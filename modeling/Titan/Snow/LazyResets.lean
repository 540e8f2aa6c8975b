import Titan.Snow.EagerTopological
import Titan.Snow.TreeRuns

/-!
# Titan.Snow.LazyResets — flags are as good as resets

Settling commutes with every operation of `Topological`. The loop of `vote` is the
main part: blocks that are done carry no mark, so that the mark of the block that
is voted on tells whether it is to be reset, and handing the mark to its children
keeps what is pending above it.
-/

namespace Titan.Snow

namespace Topological

variable {U B : Type} {W : Universe} {F : Factory U B} {params : Parameters}

/-- All snowball trees of a state are sound. -/
def TreesSound (C : F.Counter params) (ts : Topological U B) : Prop :=
  ∀ x n sb, ts.blocks x = some n → n.sb = some sb → sb.Sound C

/-! ## Adding a block -/

variable {C : F.Counter params} {n : SnowmanBlock U B}

theorem addChild_settle (hF : F.Lawful) (q : Bool) (hsound : ∀ sb, n.sb = some sb → sb.Sound C)
    (id : ID) : addChild F params (n.settle F q) id = (addChild F params n id).settle F q := by
  have hsb : (addChild F params (n.settle F q) id).sb = ((addChild F params n id).settle F q).sb := by
    unfold addChild SnowmanBlock.settle
    rcases hn : n.sb with _ | sb
    · simp only [Option.map_none, Option.map_some, Tree.settle_new C]
    · simp only [Option.map_some, Tree.settle_add hF (hsound sb hn)]
  unfold addChild SnowmanBlock.settle at hsb ⊢
  dsimp only at hsb ⊢
  rw [hsb]

variable {id : ID}

variable {ts : Topological U B} {parentNode : SnowmanBlock U B}

theorem marked_inserted (hnone : ts.blocks id = none)
    (hparent : ts.blocks (W.parent id) = some parentNode) (x : ID) :
    (inserted W F params ts parentNode id).Marked x ↔ ts.Marked x := by
  unfold Marked
  rw [inserted_blocks]
  split
  next hx =>
    subst hx
    simp [hnone]
  split
  next hx =>
    subst hx
    simp [hparent, addChild]
  next => rfl

theorem settled_inserted (hF : F.Lawful) (hsound : TreesSound C ts)
    (hnone : ts.blocks id = none) (hparent : ts.blocks (W.parent id) = some parentNode) :
    inserted W F params (ts.settled W F) (parentNode.settle F (ts.pending W (W.parent id))) id =
      (inserted W F params ts parentNode id).settled W F := by
  have hpending : (inserted W F params ts parentNode id).pending W = ts.pending W :=
    pending_congr W rfl (marked_inserted hnone hparent)
  have hchild := addChild_settle hF (ts.pending W (W.parent id))
    (fun sb hsb => hsound _ _ sb hparent hsb) id
  unfold settled
  rw [hpending]
  unfold inserted
  rw [hchild, mapBlocks_setBlock (fun x n => n.settle F (ts.pending W x)) ts]
  exact mapBlocks_setBlock (fun x n => n.settle F (ts.pending W x)) _ id ⟨true, false, none, []⟩

variable {root : ID} {added : List ID}

/-- `Add` on the reference. -/
theorem settled_add (hF : F.Lawful) (h : Inv W root added ts) (hsound : TreesSound C ts)
    (hheight : W.height id = W.height (W.parent id) + 1) :
    (ts.settled W F).add W F params id = (ts.add W F params id).map (settled W F) := by
  have hproc : (ts.settled W F).processing id = ts.processing id := by
    unfold processing settled
    rw [mapBlocks_blocks, Option.isSome_map]
    rfl
  unfold Topological.add
  rw [hproc]
  split
  · rfl
  next hnew =>
    have hblock : (ts.settled W F).blocks (W.parent id) =
        (ts.blocks (W.parent id)).map (SnowmanBlock.settle F (ts.pending W (W.parent id))) := rfl
    rw [hblock]
    rcases hparent : ts.blocks (W.parent id) with _ | parentNode
    · rfl
    · have hnone := (h.fresh (by simpa using hnew) (by simp [hparent]) hheight).2.2
      have hins := settled_inserted hF hsound hnone hparent
      unfold inserted at hins
      dsimp only [Option.map_some]
      rw [hins]
      generalize (ts.setBlock (W.parent id) (addChild F params parentNode id)).setBlock id
        ⟨true, false, none, []⟩ = ts₁
      have hsame : (ts₁.settled W F).preference = ts₁.preference := rfl
      rw [hsame]
      split <;> rfl

theorem TreesSound.add (hF : F.Lawful) {ts' : Topological U B} (h : TreesSound C ts)
    (hadd : ts.add W F params id = .ok ts') : TreesSound C ts' := by
  rcases add_cases hadd with ⟨-, parentNode, hparent, hcases⟩
  have hblocks : ts'.blocks = (inserted W F params ts parentNode id).blocks := by
    rcases hcases with ⟨-, rfl⟩ | ⟨-, rfl⟩ <;> rfl
  intro x n sb hn hsb
  rw [hblocks, inserted_blocks] at hn
  split at hn
  · rw [← Option.some.inj hn] at hsb
    cases hsb
  split at hn
  · rw [← Option.some.inj hn] at hsb
    unfold addChild at hsb
    split at hsb
    · rw [← Option.some.inj hsb]
      exact Tree.new_sound C id
    next sb₀ hsb₀ =>
      rw [← Option.some.inj hsb]
      exact (h _ _ sb₀ hparent hsb₀).add hF id
  · exact h x n sb hn hsb

/-! ## Marks -/

theorem keys_setBlock (h : Inv W root added ts) (hid : (ts.blocks id).isSome) (n : SnowmanBlock U B) :
    (ts.setBlock id n).keys = ts.keys := by
  exact if_pos ((h.forest.mem_keys id).mpr hid)

theorem falterChildren_keys (h : Inv W root added ts) (transitively : Bool) (nextID : ID)
    (children : List ID) : (falterChildren ts transitively nextID children).keys = ts.keys := by
  induction children with
  | nil => rfl
  | cons childID rest ih =>
    rw [falterChildren]
    split
    · exact ih
    split
    · exact ih
    next child hchild =>
      rw [keys_setBlock (falterChildren_spec h transitively nextID rest).1 (by simp [hchild]), ih]

theorem marked_setFlag (x : ID) :
    (ts.setBlock id { n with shouldFalter := true }).Marked x ↔ x = id ∨ ts.Marked x := by
  unfold Marked setBlock
  dsimp only
  by_cases hx : x = id
  · subst hx
    rw [Function.update_self]
    exact ⟨fun _ => .inl rfl, fun _ => ⟨_, rfl, rfl⟩⟩
  · rw [Function.update_of_ne hx]
    exact ⟨.inr, fun h => h.resolve_left hx⟩

theorem marked_falterChildren (h : Inv W root added ts) (transitively : Bool) (nextID : ID)
    (children : List ID) (x : ID) :
    (falterChildren ts transitively nextID children).Marked x ↔ ts.Marked x ∨
      ((ts.blocks x).isSome ∧ x ∈ children ∧ (transitively = true ∨ x ≠ nextID)) := by
  induction children with
  | nil => exact ⟨.inl, fun hx => hx.resolve_right (fun hx => absurd hx.2.1 List.not_mem_nil)⟩
  | cons childID rest ih =>
    have hsome := (falterChildren_spec h transitively nextID rest).2.isSome childID
    rw [falterChildren]
    split
    next hskip =>
      -- the child that is voted on next
      rw [ih, List.mem_cons]
      constructor
      · exact Or.imp_right (fun hx => ⟨hx.1, .inr hx.2.1, hx.2.2⟩)
      · refine Or.imp_right ?_
        rintro ⟨hx, rfl | hmem, hother⟩
        · rcases hother with htrans | hne
          · exact absurd htrans hskip.1
          · exact absurd hskip.2 hne
        · exact ⟨hx, hmem, hother⟩
    next hnot =>
      have hmark : transitively = true ∨ childID ≠ nextID := by
        by_contra hskip
        rcases not_or.mp hskip with ⟨htrans, hne⟩
        exact hnot ⟨htrans, not_not.mp hne⟩
      rw [List.mem_cons]
      split
      next hgone =>
        -- rejected in the meantime
        rw [hgone] at hsome
        rw [ih]
        refine ⟨Or.imp_right (fun hx => ⟨hx.1, .inr hx.2.1, hx.2.2⟩), Or.imp_right ?_⟩
        rintro ⟨hx, rfl | hmem, hother⟩
        · rw [← hsome] at hx
          cases hx
        · exact ⟨hx, hmem, hother⟩
      next child hchild =>
        rw [hchild] at hsome
        rw [marked_setFlag, ih]
        constructor
        · rintro (rfl | hx | hx)
          · exact .inr ⟨by rw [← hsome]; rfl, .inl rfl, hmark⟩
          · exact .inl hx
          · exact .inr ⟨hx.1, .inr hx.2.1, hx.2.2⟩
        · rintro (hx | ⟨hx, rfl | hmem, hother⟩)
          · exact .inr (.inl hx)
          · exact .inl rfl
          · exact .inr (.inr ⟨hx, hmem, hother⟩)

/-! ## One iteration -/

/-- If nothing below the block is marked, it is to be reset exactly if it is marked. -/
theorem under_iff_marked {y : ID}
    (hbelow : y ≠ ts.lastAcceptedID → ¬ Under W ts.lastAcceptedID ts.Marked (W.parent y)) :
    Under W ts.lastAcceptedID ts.Marked y ↔ ts.Marked y := by
  constructor
  · intro hunder
    cases hunder with
    | self hmark => exact hmark
    | parent hne hup => exact absurd hup (hbelow hne)
  · exact .self

/-- The state after an iteration on the block `y`: `ts₂` is the state after the decision, `ts₃`
has the new marks, and `roots` are the children that are not voted on next. -/
structure MarkStep (W : Universe) (ts : Topological U B) (y : ID) (n : SnowmanBlock U B) (roots : List ID)
    (ts₂ ts₃ : Topological U B) : Prop where
  block : ts.blocks y = some n
  last : ts₃.lastAcceptedID = ts₂.lastAcceptedID
  child : ∀ x ∈ roots, x ∈ n.children
  marked : ∀ x, (ts₂.blocks x).isSome → (ts₃.Marked x ↔
    (x ≠ y ∧ ts.Marked x) ∨ (x ∈ n.children ∧ (n.shouldFalter = true ∨ x ∈ roots)))
  /-- Nothing below the block is marked. -/
  ancestors : y ≠ ts.lastAcceptedID → ¬ Under W ts.lastAcceptedID ts.Marked (W.parent y)

variable {y : ID}

/-- What is pending after an iteration: what was pending, without the block itself, and the
subtrees that are not voted on. -/
theorem MarkStep.under_iff {ts₂ ts₃ : Topological U B} {pref : ID} {roots : List ID}
    (hm : MarkStep W ts y n roots ts₂ ts₃) (h : Inv W root added ts) (h₂ : Inv W root added ts₂)
    (hstep : LoopStep W F ts y pref ts₂) {x : ID} (hx : (ts₂.blocks x).isSome) :
    Under W ts₃.lastAcceptedID ts₃.Marked x ↔
      (x ≠ y ∧ Under W ts.lastAcceptedID ts.Marked x) ∨ Under W ts₂.lastAcceptedID (· ∈ roots) x := by
  have hkids := childrenOf_eq hm.block
  have hself : ∀ c ∈ n.children, c ≠ y ∧ c ≠ ts.lastAcceptedID ∧ W.parent c = y := by
    intro c hc
    rcases h.child_spec (hkids ▸ hc) with ⟨-, hlast, hparent, hheight⟩
    refine ⟨?_, hlast, hparent⟩
    rintro rfl
    omega
  have hlast : ∀ z, (ts₂.blocks z).isSome → z ≠ y → z ≠ ts₂.lastAcceptedID → z ≠ ts.lastAcceptedID := by
    intro z _ hzy hz₂ hz
    rcases hstep.outcome with ⟨hsame, -⟩ | ⟨hy, -⟩
    · exact hz₂ (hz.trans hsame.symm)
    · exact hzy (hz.trans hy.symm)
  rw [hm.last]
  constructor
  · intro hunder
    induction hunder with
    | self hmark =>
      rcases (hm.marked _ hx).mp hmark with ⟨hne, hold⟩ | ⟨hchild, hflag | hroot⟩
      · exact .inl ⟨hne, .self hold⟩
      · rcases hself _ hchild with ⟨hne, hnotLast, hparent⟩
        exact .inl ⟨hne, .parent hnotLast (hparent.symm ▸ .self ⟨n, hm.block, hflag⟩)⟩
      · exact .inr (.self hroot)
    | @parent x hne _ ih =>
      rcases ih (h₂.parent_spec hx hne).2.1 with ⟨hparent, hold⟩ | hroot
      · by_cases hxy : x = y
        · -- nothing below the block was pending
          subst hxy
          have hstay : x ≠ ts.lastAcceptedID := by
            rcases hstep.outcome with ⟨hsame, -⟩ | ⟨-, -, hgone, -⟩
            · rwa [hsame] at hne
            · rw [hgone] at hx
              cases hx
          exact absurd hold (hm.ancestors hstay)
        · exact .inl ⟨hxy, .parent (hlast x hx hxy hne) hold⟩
      · exact .inr (.parent hne hroot)
  · rintro (⟨hne, hold⟩ | hroot)
    · induction hold with
      | self hmark => exact .self ((hm.marked _ hx).mpr (.inl ⟨hne, hmark⟩))
      | @parent x hnotLast hup ih =>
        by_cases hparent : W.parent x = y
        · -- the mark of the block went to its children
          have hflag := (marked_iff hm.block).mp ((under_iff_marked hm.ancestors).mp (hparent ▸ hup))
          have hchild : x ∈ n.children := by
            have hin : (ts.blocks x).isSome := by
              rcases Option.isSome_iff_exists.mp hx with ⟨m, hm⟩
              rcases hstep.node x m hm with ⟨m', hm', -⟩
              rw [hm']
              rfl
            have := h.parent_mem x hin hnotLast
            rwa [hparent, hkids] at this
          exact .self ((hm.marked _ hx).mpr (.inr ⟨hchild, .inl hflag⟩))
        · have hstay : x ≠ ts₂.lastAcceptedID := by
            intro heq
            rcases hstep.outcome with ⟨hsame, -⟩ | ⟨hy, hlast₂, -⟩
            · exact hnotLast (heq.trans hsame)
            · rcases h.child_spec hstep.pref_child with ⟨-, -, hpref, -⟩
              exact hparent (by rw [heq, hlast₂, hpref])
          exact .parent hstay (ih (h₂.parent_spec hx hstay).2.1 hparent)
    · induction hroot with
      | self hmem => exact .self ((hm.marked _ hx).mpr (.inr ⟨hm.child _ hmem, .inr hmem⟩))
      | parent hne _ ih => exact .parent hne (ih (h₂.parent_spec hx hne).2.1)

/-- The reference after an iteration: the subtrees that are not voted on are reset. -/
theorem MarkStep.settled {C : F.Counter params} {ts₂ ts₃ : Topological U B} {pref : ID} {roots : List ID}
    (hm : MarkStep W ts y n roots ts₂ ts₃) (h : Inv W root added ts) (h₂ : Inv W root added ts₂)
    (hstep : LoopStep W F ts y pref ts₂) (hflags : FlagsOnly ts₂ ts₃) (hkeys : ts₃.keys = ts₂.keys) :
    resetSubtrees W F
        (ts₂.mapBlocks fun x m => m.settle F (if x = y then false else ts.pending W x)) roots =
      ts₃.settled W F := by
  rw [resetSubtrees_settle W params C]
  unfold Topological.settled
  rw [mapBlocks_flagsOnly hflags hkeys]
  refine mapBlocks_congr fun x m hx => ?_
  have hsome : (ts₂.blocks x).isSome := by rw [hx]; rfl
  have hpending : ((if x = y then false else ts.pending W x) ||
      isAbove W ts₂.lastAcceptedID roots (W.height x + 1) x) = ts₃.pending W x := by
    rw [Bool.eq_iff_iff, Bool.or_eq_true_iff, isAbove_iff h₂ roots hsome, pending_iff,
      hm.under_iff h h₂ hstep hsome]
    refine or_congr_left ?_
    by_cases hxy : x = y
    · simp [hxy]
    · simp [hxy, pending_iff]
  rw [hpending]

theorem mapBlocks_setBlock_congr {g g' : ID → SnowmanBlock U B → SnowmanBlock U B}
    (hg : ∀ x, x ≠ id → g x = g' x) (n : SnowmanBlock U B) :
    (ts.mapBlocks g).setBlock id n = (ts.mapBlocks g').setBlock id n := by
  have hblocks : Function.update (ts.mapBlocks g).blocks id (some n) =
      Function.update (ts.mapBlocks g').blocks id (some n) := by
    funext x
    by_cases hx : x = id
    · subst hx
      rw [Function.update_self, Function.update_self]
    · rw [Function.update_of_ne hx, Function.update_of_ne hx, mapBlocks_blocks, mapBlocks_blocks, hg x hx]
  unfold setBlock
  rw [hblocks]
  rfl

/-- The decision of an iteration, on the reference. -/
theorem decision_settled (hF : F.Lawful) (sb : Tree U B) (ord : ℕ → List ID → List ID)
    (p : ID → Bool) (hp : p y = false) :
    let n' : SnowmanBlock U B := n.recorded sb
    let ts' := (ts.mapBlocks fun x m => m.settle F (p x)).setBlock y (n'.settle F false)
    (if (sb.settle F false).finalized F ∧ ts'.lastAcceptedID = y then
        (acceptPreferredChild W F ts' ord (n'.settle F false)).map (·.deleteBlock y)
      else some ts') =
      (if sb.finalized F ∧ (ts.setBlock y n').lastAcceptedID = y then
        (acceptPreferredChild W F (ts.setBlock y n') ord n').map (·.deleteBlock y)
      else some (ts.setBlock y n')).map (mapBlocks fun x m => m.settle F (p x)) := by
  intro n' ts'
  have hg : Respects F (fun x (m : SnowmanBlock U B) => m.settle F (p x)) := settle_respects hF p
  have hts' : ts' = (ts.setBlock y n').mapBlocks fun x m => m.settle F (p x) := by
    have := mapBlocks_setBlock (fun x m => SnowmanBlock.settle F (p x) m) ts y n'
    rwa [hp] at this
  have hpref : (n'.settle F false).sb.map (Tree.preference F) = n'.sb.map (Tree.preference F) := by
    have := hg.preference y n'
    rwa [hp] at this
  have hlast : ((ts.setBlock y n').mapBlocks fun x m => m.settle F (p x)).lastAcceptedID =
      (ts.setBlock y n').lastAcceptedID := rfl
  have hchildren : (n'.settle F false).children = n'.children := rfl
  rw [hts', Tree.settle_finalized hF, hlast,
    hg.acceptPreferredChild W (ts.setBlock y n') ord hchildren hpref]
  split
  · rw [Option.map_map, Option.map_map]
    congr 1
    funext ts₁
    exact mapBlocks_deleteBlock _ ts₁ y
  · rfl

/-- The poll of a marked block, on the reference. -/
theorem settle_poll (hF : F.Lawful) {sb : Tree U B} (hsound : sb.Sound C) (marked : Bool)
    (votes : Bag ID) :
    ((sb.settle F marked).recordPollEager F params votes).1 =
      (((if marked then sb.recordUnsuccessfulPoll else sb).recordPoll F params votes).1).settle F false ∧
    (((if marked then sb.recordUnsuccessfulPoll else sb).recordPoll F params votes).1).Sound C := by
  cases marked with
  | false => exact ⟨(hsound.settle_recordPoll hF votes).symm, hsound.recordPoll hF votes⟩
  | true =>
    have hreset := hsound.recordUnsuccessfulPoll hF
    rw [← Tree.settle_recordUnsuccessfulPoll]
    exact ⟨(hreset.settle_recordPoll hF votes).symm, hreset.recordPoll hF votes⟩

section Loop

variable {root : ID} {added : List ID} {ts₀ ts : Topological U B} {Q rest : List ID} {np : ID} {on : Bool}

/-- A block of the tree that is not the last accepted one was not the first one either. -/
theorem LoopInv.ne_first (hJ : LoopInv ts₀ Q rest np on ts) {z : ID} (hz : (ts.blocks z).isSome)
    (hne : z ≠ ts.lastAcceptedID) : z ≠ ts₀.lastAcceptedID := by
  rintro rfl
  rw [hJ.first hne] at hz
  cases hz

/-- Nothing is pending for blocks that are done. -/
theorem LoopInv.done_not_pending (h : Inv W root added ts) {rest' : List ID}
    (hs : VoteStack W ts₀ (Q ++ rest')) (hJ : LoopInv ts₀ Q rest np on ts)
    (hdone : ∀ q ∈ Q, ¬ ts.Marked q) {z : ID} (hz : z ∈ Q) (htree : (ts.blocks z).isSome) :
    ¬ Under W ts.lastAcceptedID ts.Marked z := by
  intro hunder
  induction hunder with
  | self hmark => exact hdone _ hz hmark
  | parent hne _ ih =>
    exact ih (hs.parent_done hz (hJ.ne_first htree hne)) (h.parent_spec htree hne).2.1

theorem LoopInv.ancestors (h : Inv W root added ts) (hs : VoteStack W ts₀ (Q ++ y :: rest))
    (hJ : LoopInv ts₀ Q (y :: rest) np on ts) (hdone : ∀ q ∈ Q, ¬ ts.Marked q)
    (htree : (ts.blocks y).isSome) (hne : y ≠ ts.lastAcceptedID) :
    ¬ Under W ts.lastAcceptedID ts.Marked (W.parent y) := by
  rcases h.parent_spec htree hne with ⟨-, hparent, hheight⟩
  have hself : W.parent y ≠ y := by
    intro heq
    rw [heq] at hheight
    omega
  exact hJ.done_not_pending h hs hdone (hs.parent_done_next (hJ.ne_first htree hne) hself) hparent

/-- Without siblings, a child of the block that is voted on is on the rest of the stack if it is
voted on next. -/
theorem VoteStack.next_eq {c : ID} {stack : List Votes} (h₀ : Inv W root added ts₀)
    (hs : VoteStack W ts₀ (Q ++ y :: stack.map Votes.parentID))
    (hu : NoSiblings W ts₀ (Q ++ y :: stack.map Votes.parentID)) (hc : W.parent c = y)
    (hne : c ≠ ts₀.lastAcceptedID) :
    c ∈ stack.map Votes.parentID ↔ stack.head?.map (·.parentID) = some c := by
  rcases stack with _ | ⟨next, rest⟩
  · simp
  constructor
  · intro hmem
    have hparent := hs.parent_next h₀ hu Q _ y next.parentID rfl
    have hsame : next.parentID = c := by
      refine hu _ (by simp) c ?_ (hs.ne_last h₀) hne (by rw [hparent, hc])
      exact List.mem_append_right _ (List.mem_cons_of_mem _ hmem)
    rw [← hsame]
    rfl
  · intro heq
    rw [← Option.some.inj heq]
    exact List.mem_cons_self

/-- One iteration of the loop of `vote`, and of the loop of the reference. -/
theorem settled_voteLoop_cons (hF : F.Lawful) (C : F.Counter params) (hzero : (0 : ID) ∉ added)
    (ord : ℕ → ℕ → List ID → List ID) (hord : ∀ m k l, (ord m k l).Perm l) (vote : Votes)
    (stack : List Votes) (h₀ : Inv W root added ts₀) (h : Inv W root added ts)
    (hs : VoteStack W ts₀ (Q ++ vote.parentID :: stack.map Votes.parentID))
    (hu : NoSiblings W ts₀ (Q ++ vote.parentID :: stack.map Votes.parentID))
    (hJ : LoopInv ts₀ Q (vote.parentID :: stack.map Votes.parentID) np on ts)
    (hsound : TreesSound C ts) (hdone : ∀ q ∈ Q, ¬ ts.Marked q)
    (hy : ts.childrenOf vote.parentID ≠ []) :
    ∃ pref ts', Inv W root added ts' ∧ LoopStep W F ts vote.parentID pref ts' ∧
      TreesSound C ts' ∧ (∀ q ∈ Q ++ [vote.parentID], ¬ ts'.Marked q) ∧
      voteLoop W F params ord (vote :: stack) np on ts =
        voteLoop W F params ord stack (if on then pref else np)
          (on && (stack.head?.map (·.parentID)).getD 0 = pref) ts' ∧
      voteLoopEager W F params ord (vote :: stack) np on (ts.settled W F) =
        voteLoopEager W F params ord stack (if on then pref else np)
          (on && (stack.head?.map (·.parentID)).getD 0 = pref) (ts'.settled W F) := by
  rcases h.inner_block hy with ⟨n, sb₀, hn, hsb₀, hprefers⟩
  have htree : (ts.blocks vote.parentID).isSome := by rw [hn]; rfl
  have hkids := childrenOf_eq hn
  have hancestors := hJ.ancestors h hs hdone htree
  -- the mark tells whether the block is to be reset
  have hpending : ts.pending W vote.parentID = n.shouldFalter := by
    rw [Bool.eq_iff_iff, pending_iff, under_iff_marked hancestors, marked_iff hn]
  rcases settle_poll hF (hsound _ _ _ hn hsb₀) n.shouldFalter vote.votes with ⟨hpoll, hsbSound⟩
  have hprefers₁ : (if n.shouldFalter then sb₀.recordUnsuccessfulPoll else sb₀).node.PrefersIn
      (· ∈ n.children) := by
    split <;> exact hprefers
  have hsb := Tree.recordPoll_prefersIn F params vote.votes hprefers₁
  rw [voteLoop, voteLoopEager]
  have hblock : (ts.settled W F).blocks vote.parentID = some (n.settle F n.shouldFalter) := by
    unfold settled
    rw [mapBlocks_blocks, hn, Option.map_some, hpending]
  have hsbEager : (n.settle F n.shouldFalter).sb = some (sb₀.settle F n.shouldFalter) := by
    unfold SnowmanBlock.settle
    rw [hsb₀]
    rfl
  simp only [hn, hsb₀, hblock, hsbEager, hpoll]
  generalize (Tree.recordPoll F params (if n.shouldFalter then sb₀.recordUnsuccessfulPoll else sb₀)
    vote.votes).1 = sb at *
  rcases decision_spec F h hn hsb (ord stack.length) (hord stack.length) with
    ⟨ts₂, hdecision, h₂, hstep, hframe⟩
  simp only [hdecision]
  -- of the children at most the next block of the stack reached the threshold
  have hfailed : n.children.filter (· ∉ stack.map Votes.parentID) =
      n.children.filter fun c => stack.head?.map (·.parentID) ≠ some c := by
    refine List.filter_congr fun c hc => decide_eq_decide.mpr (not_congr ?_)
    rcases h.child_spec (hkids ▸ hc) with ⟨hin, hlast, hparent, -⟩
    exact hs.next_eq h₀ hu hparent (hJ.ne_first hin hlast)
  have hchildren : (SnowmanBlock.settle F n.shouldFalter n).children = n.children := rfl
  rw [hchildren, hfailed]
  generalize hnext : (stack.head?.map (·.parentID)) = next
  have hnonzero : ∀ c ∈ n.children, c ≠ 0 := by
    rintro c hc rfl
    rcases h.child_spec (hkids ▸ hc) with ⟨hc, hlast, -, -⟩
    exact hzero (h.processing_added _ hc hlast)
  have hnextID : ∀ c ∈ n.children, (next = some c ↔ next.getD 0 = c) := by
    intro c hc
    rcases next with _ | z
    · exact ⟨fun h => absurd h (Option.some_ne_none c).symm, fun h => absurd h.symm (hnonzero c hc)⟩
    · exact Option.some_inj
  rcases falterChildren_spec h₂ n.shouldFalter (next.getD 0) n.children with ⟨h₃, hflags⟩
  have hkeys := falterChildren_keys h₂ n.shouldFalter (next.getD 0) n.children
  have hmarks := marked_falterChildren h₂ n.shouldFalter (next.getD 0) n.children
  generalize falterChildren ts₂ n.shouldFalter (next.getD 0) n.children = ts₃ at *
  -- nodes that stay, without the marks
  have hnode : ∀ x m, ts₂.blocks x = some m → (x = vote.parentID ∧ m.shouldFalter = false ∧ m.sb = some sb) ∨
      (x ≠ vote.parentID ∧ ts.blocks x = some m) := by
    intro x m hm
    have hset := hframe x m hm
    unfold setBlock at hset
    dsimp only at hset
    by_cases hx : x = vote.parentID
    · subst hx
      rw [Function.update_self] at hset
      rw [← Option.some.inj hset]
      exact .inl ⟨rfl, rfl, rfl⟩
    · rw [Function.update_of_ne hx] at hset
      exact .inr ⟨hx, hset⟩
  have hm : MarkStep W ts vote.parentID n (n.children.filter fun c => next ≠ some c) ts₂ ts₃ := by
    refine ⟨hn, by rw [hflags.rest], fun x hx => (List.mem_filter.mp hx).1, ?_, hancestors⟩
    intro x hx
    rcases Option.isSome_iff_exists.mp hx with ⟨m, hm⟩
    have hold : ts₂.Marked x ↔ x ≠ vote.parentID ∧ ts.Marked x := by
      rw [marked_iff hm]
      rcases hnode x m hm with ⟨rfl, hflag, -⟩ | ⟨hne, hsame⟩
      · simp [hflag]
      · simp [marked_iff hsame, hne]
    rw [hmarks, hold]
    refine or_congr_right ⟨fun hc => ⟨hc.2.1, hc.2.2.imp_right fun hne => ?_⟩,
      fun hc => ⟨hx, hc.1, hc.2.imp_right fun hroot => ?_⟩⟩
    · refine List.mem_filter.mpr ⟨hc.2.1, decide_eq_true fun heq => ?_⟩
      exact hne ((hnextID x hc.2.1).mp heq).symm
    · intro heq
      have hne := of_decide_eq_true (List.mem_filter.mp hroot).2
      exact hne ((hnextID x hc.1).mpr heq.symm)
  refine ⟨sb.preference F, ts₃, h₃, hstep.falter F hflags, ?_, ?_, rfl, ?_⟩
  · intro x m sb' hm' hsb'
    rcases hflags.node hm' with ⟨m₂, hm₂, hsame, -⟩
    rw [hsame] at hsb'
    rcases hnode x m₂ hm₂ with ⟨-, -, hown⟩ | ⟨-, hother⟩
    · rw [hown] at hsb'
      rw [← Option.some.inj hsb']
      exact hsbSound
    · exact hsound x m₂ sb' hother hsb'
  · intro q hq hmark
    have hin : (ts₂.blocks q).isSome := by
      rcases hmark with ⟨m, hm, -⟩
      rw [← hflags.isSome, hm]
      rfl
    rcases (hm.marked q hin).mp hmark with ⟨hne, hold⟩ | ⟨hchild, -⟩
    · rcases List.mem_append.mp hq with hQ | hself
      · exact hdone q hQ hold
      · exact hne (List.mem_singleton.mp hself)
    · rcases h.child_spec (hkids ▸ hchild) with ⟨hin', hlast, hparent, hheight⟩
      refine hs.child_not_done hparent (hJ.ne_first hin' hlast) ?_ hq
      rintro rfl
      omega
  · -- the reference decides on the same state, settled but for the block itself
    have hset : (ts.settled W F).setBlock vote.parentID
          (SnowmanBlock.settle F false (n.recorded sb)) =
        (ts.mapBlocks fun x m => m.settle F (if x = vote.parentID then false else ts.pending W x)).setBlock
          vote.parentID (SnowmanBlock.settle F false (n.recorded sb)) := by
      refine mapBlocks_setBlock_congr ?_ _
      intro x hx
      rw [if_neg hx]
    have hdecEager := (decision_settled (W := W) (n := n) hF sb (ord stack.length)
      (fun x => if x = vote.parentID then false else ts.pending W x) (if_pos rfl)).trans
        (congrArg (Option.map _) hdecision)
    rw [← hset] at hdecEager
    split
    next heq => exact absurd (hdecEager.symm.trans heq) (by simp)
    next ts₂' heq =>
      obtain rfl := Option.some.inj (hdecEager.symm.trans heq)
      have hpref : (next = some (sb.preference F)) ↔ next.getD 0 = sb.preference F :=
        hnextID _ (hkids ▸ hstep.pref_child)
      rw [Tree.settle_preference hF]
      have hroots := hm.settled (C := C) h h₂ hstep hflags hkeys
      rw [hroots, decide_eq_decide.mpr hpref]

/-- The loop of `vote` on the reference. -/
theorem settled_voteLoop (hF : F.Lawful) (C : F.Counter params) (hzero : (0 : ID) ∉ added)
    (ord : ℕ → ℕ → List ID → List ID) (hord : ∀ m k l, (ord m k l).Perm l) (stack : List Votes)
    (Q : List ID) (np : ID) (on : Bool) (ts : Topological U B) (h₀ : Inv W root added ts₀)
    (h : Inv W root added ts) (hs : VoteStack W ts₀ (Q ++ stack.map Votes.parentID))
    (hu : NoSiblings W ts₀ (Q ++ stack.map Votes.parentID))
    (hJ : LoopInv ts₀ Q (stack.map Votes.parentID) np on ts) (hsound : TreesSound C ts)
    (hdone : ∀ q ∈ Q, ¬ ts.Marked q) :
    voteLoopEager W F params ord stack np on (ts.settled W F) =
        (voteLoop W F params ord stack np on ts).map (fun r => (r.1, r.2.settled W F)) ∧
      ∀ r, voteLoop W F params ord stack np on ts = some r → TreesSound C r.2 := by
  induction stack generalizing Q np on ts with
  | nil =>
    refine ⟨rfl, ?_⟩
    rintro r hr
    rw [← Option.some.inj hr]
    exact hsound
  | cons vote stack ih =>
    rcases hn : ts.blocks vote.parentID with _ | n
    · -- the block was rejected: both loops stop
      have hblock : (ts.settled W F).blocks vote.parentID = none := by
        unfold settled
        rw [mapBlocks_blocks, hn]
        rfl
      rw [voteLoop, voteLoopEager, hn, hblock]
      refine ⟨rfl, ?_⟩
      rintro r hr
      rw [← Option.some.inj hr]
      exact hsound
    · rcases settled_voteLoop_cons hF C hzero ord hord vote stack h₀ h hs hu hJ hsound hdone
        (hJ.inner hs hn) with ⟨pref, ts', h', hstep, hsound', hdone', hlazy, heager⟩
      rw [hlazy, heager]
      have hsplit : Q ++ vote.parentID :: stack.map Votes.parentID =
          (Q ++ [vote.parentID]) ++ stack.map Votes.parentID := by simp
      have hJ' := hJ.step F h h' hs (by simp [hn]) hstep
      rw [List.head?_map] at hJ'
      exact ih _ _ _ _ h' (hsplit ▸ hs) (hsplit ▸ hu) hJ' hsound' hdone'

end Loop

/-! ## Polls -/

section Polls

variable {root : ID} {added : List ID} {ts : Topological U B}

/-- Everything in the tree is above the last accepted block. -/
theorem Inv.under_last (h : Inv W root added ts) {P : ID → Prop} (hP : P ts.lastAcceptedID) {x : ID}
    (hx : (ts.blocks x).isSome) : Under W ts.lastAcceptedID P x := by
  by_contra hnot
  refine h.root_mem (P := fun x => ¬ Under W ts.lastAcceptedID P x) ?_ x hnot hx (.self hP)
  intro y hy _ hne hparent
  exact hy (.parent hne hparent)

/-- A poll without a majority resets everything. -/
theorem settled_setFlag (C : F.Counter params) (h : Inv W root added ts)
    (hn : ts.blocks ts.lastAcceptedID = some n) :
    resetSubtrees W F (ts.settled W F) [ts.lastAcceptedID] =
      (ts.setBlock ts.lastAcceptedID { n with shouldFalter := true }).settled W F := by
  rcases setFlag_spec h hn with ⟨-, hflags⟩
  unfold settled
  rw [resetSubtrees_settle W params C,
    mapBlocks_flagsOnly hflags (keys_setBlock h h.last_mem { n with shouldFalter := true })]
  refine mapBlocks_congr fun x m hx => ?_
  have hsome : (ts.blocks x).isSome := by rw [hx]; rfl
  have habove := (isAbove_iff h [ts.lastAcceptedID] hsome).mpr (h.under_last (by simp) hsome)
  have hpending : (ts.setBlock ts.lastAcceptedID { n with shouldFalter := true }).pending W x = true := by
    rw [pending_iff]
    exact h.under_last ((marked_setFlag _).mpr (.inl rfl)) hsome
  rw [habove, Bool.or_true, hpending]

/-- `vote` on the reference, for a stack that is a branch. -/
theorem settled_vote (hF : F.Lawful) (C : F.Counter params) (hzero : (0 : ID) ∉ added)
    (h : Inv W root added ts) (hsound : TreesSound C ts) (ord : ℕ → ℕ → List ID → List ID)
    (hord : ∀ m k l, (ord m k l).Perm l) (stack : List Votes)
    (hs : VoteStack W ts (stack.map Votes.parentID)) (hu : NoSiblings W ts (stack.map Votes.parentID)) :
    voteEager W F params (ts.settled W F) ord stack =
        (vote W F params ts ord stack).map (fun r => (r.1, r.2.settled W F)) ∧
      ∀ r, vote W F params ts ord stack = some r → TreesSound C r.2 := by
  cases stack with
  | nil =>
    rcases Option.isSome_iff_exists.mp h.last_mem with ⟨n, hn⟩
    rw [vote, hn]
    constructor
    · exact congrArg (fun ts' => some (ts.preference, ts')) (settled_setFlag C h hn)
    · rintro r hr x m sb hm hsb
      rw [← Option.some.inj hr] at hm
      rcases (setFlag_spec h hn).2.node hm with ⟨m₁, hm₁, hsame, -⟩
      exact hsound x m₁ sb hm₁ (hsame ▸ hsb)
  | cons top stack =>
    exact settled_voteLoop hF C hzero ord hord (top :: stack) [] ts.lastAcceptedID true ts h h hs hu
      (.start h hs) hsound (by simp)

theorem updatePreference_frame (h : Inv W root added ts) {np : ID} (hnp : (ts.blocks np).isSome) :
    ∃ ts', updatePreference W F ts np = some ts' ∧ ts'.blocks = ts.blocks ∧
      ts'.lastAcceptedID = ts.lastAcceptedID := by
  unfold updatePreference
  split
  · exact ⟨ts, rfl, rfl, rfl⟩
  · rcases rebuild_spec F h hnp with ⟨ts₁, ts₂, -, -, hrun₁, hrun₂, -, hblocks, hlast, -⟩
    refine ⟨ts₂, ?_, hblocks, hlast⟩
    rw [hrun₁]
    exact hrun₂

/-- `RecordPoll` on the reference, with fewer votes than two majorities. -/
theorem settled_recordPoll (hF : F.Lawful) (C : F.Counter params) (hzero : (0 : ID) ∉ added)
    (h : Inv W root added ts) {l : List ID} (hc : Cached W ts l) (hsound : TreesSound C ts)
    {ord : PollOrder} (hord : ord.Lawful) {votes : Bag ID}
    (hvotes : votes.len < 2 * params.alphaPreference) :
    recordPollEager W F params (ts.settled W F) ord votes =
        (recordPoll W F params ts ord votes).map (settled W F) ∧
      ∀ ts', recordPoll W F params ts ord votes = some ts' → TreesSound C ts' := by
  rcases collectVotes_spec params h hord votes with ⟨stack, hstack, hs, hu⟩
  rcases vote_spec F params h hc ord.children hord.children stack hs with ⟨np, ts₁, acc, hvote, h₁, hv⟩
  rcases settled_vote hF C hzero h hsound ord.children hord.children stack hs (hu hvotes) with
    ⟨hvoteEager, hsound₁⟩
  rcases updatePreference_frame (F := F) h₁ hv.preferred with ⟨ts₂, hupdate, hblocks, hlast⟩
  have hpoll : recordPoll W F params ts ord votes = some ts₂ := by
    rw [recordPoll, hstack]
    simp only [bind, Option.bind, hvote, hupdate]
  have hpending : ts₂.pending W = ts₁.pending W := by
    refine pending_congr W hlast fun x => ?_
    unfold Marked
    rw [hblocks]
  constructor
  · have hstackEager : collectVotes W params (ts.settled W F) ord votes = some stack :=
      ((settle_respects hF _).collectVotes W params ts ord votes).trans hstack
    have hupdateEager : updatePreference W F (ts₁.settled W F) np = some (ts₂.settled W F) := by
      unfold settled
      rw [(settle_respects hF _).updatePreference W ts₁ np, hupdate, hpending]
      rfl
    rw [hvote] at hvoteEager
    rw [hpoll, recordPollEager, hstackEager]
    simp only [bind, Option.bind, hvoteEager, Option.map_some, hupdateEager]
  · intro ts' hts' x n sb hn hsb
    rw [hpoll] at hts'
    rw [← Option.some.inj hts', hblocks] at hn
    exact hsound₁ _ hvote x n sb hn hsb

end Polls

end Topological

end Titan.Snow
