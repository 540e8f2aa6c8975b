import Titan.Snow.Votes

/-!
# Titan.Snow.Polls — polls keep the invariant and return

`LoopStep` says once what an iteration of the loop in `vote` can do: the snowball
tree of one block changes, flags change, and possibly a child of the last
accepted block is accepted. `voteLoop_rule` is the induction rule for the loop.

Acceptance may cascade: the loop invariant says that a block is accepted only
while the loop is on the preferred branch, so that the preferred block is never
among those deleted.
-/

namespace Titan.Snow

variable {U B : Type} {W : Universe} (F : Factory U B) (params : Parameters)

/-- A node without its falter flag. -/
def SnowmanBlock.unflagged (n : SnowmanBlock U B) : SnowmanBlock U B :=
  { n with shouldFalter := false }

/-- The block after votes were recorded in `sb`. -/
abbrev SnowmanBlock.recorded (n : SnowmanBlock U B) (sb : Tree U B) : SnowmanBlock U B :=
  { n with sb := some sb, shouldFalter := false }

namespace Topological

/-! ## Flags -/

/-- Only falter flags differ. -/
structure FlagsOnly (ts ts' : Topological U B) : Prop where
  blocks : ∀ x, (ts'.blocks x).map SnowmanBlock.unflagged =
    (ts.blocks x).map SnowmanBlock.unflagged
  rest : ts' = { ts with keys := ts'.keys, blocks := ts'.blocks }

theorem FlagsOnly.refl (ts : Topological U B) : FlagsOnly ts ts := ⟨fun _ => rfl, rfl⟩

variable {ts ts' : Topological U B}

/-- A node after flags changed. -/
theorem FlagsOnly.node (h : FlagsOnly ts ts') {x : ID} {n' : SnowmanBlock U B}
    (hn' : ts'.blocks x = some n') :
    ∃ n, ts.blocks x = some n ∧ n'.sb = n.sb ∧ n'.children = n.children := by
  have hx := h.blocks x
  rw [hn'] at hx
  rcases hn : ts.blocks x with _ | n
  · rw [hn] at hx
    cases hx
  · rw [hn] at hx
    have heq : n'.unflagged = n.unflagged := Option.some.inj hx
    have hsb : n'.unflagged.sb = n.unflagged.sb := by rw [heq]
    have hchildren : n'.unflagged.children = n.unflagged.children := by rw [heq]
    exact ⟨n, rfl, hsb, hchildren⟩

theorem FlagsOnly.isSome (h : FlagsOnly ts ts') (x : ID) :
    (ts'.blocks x).isSome = (ts.blocks x).isSome := by
  have := congrArg Option.isSome (h.blocks x)
  simpa using this

variable {n : SnowmanBlock U B}

theorem FlagsOnly.node_of (h : FlagsOnly ts ts') {x : ID} (hn : ts.blocks x = some n) :
    ∃ n', ts'.blocks x = some n' ∧ n'.sb = n.sb := by
  obtain ⟨n', hn'⟩ := Option.isSome_iff_exists.mp ((h.isSome x).trans (by simp [hn]))
  obtain ⟨n₁, hn₁, hsb, -⟩ := h.node hn'
  rw [hn] at hn₁
  obtain rfl : n = n₁ := Option.some.inj hn₁
  exact ⟨n', hn', hsb⟩

variable {root : ID} {added : List ID}

section

variable (h : Inv W root added ts)
include h

/-- Setting the flag of a node. -/
theorem setFlag_spec {id : ID} (hn : ts.blocks id = some n) :
    Inv W root added (ts.setBlock id { n with shouldFalter := true }) ∧
      FlagsOnly ts (ts.setBlock id { n with shouldFalter := true }) := by
  refine ⟨h.setNode hn rfl rfl (h.node_ok id n hn), ?_, rfl⟩
  intro x
  by_cases hx : x = id
  · simp [setBlock, hx, hn, SnowmanBlock.unflagged]
  · simp [setBlock, hx]

omit h in
theorem FlagsOnly.trans {ts₁ ts₂ : Topological U B} (h₁ : FlagsOnly ts ts₁) (h₂ : FlagsOnly ts₁ ts₂) :
    FlagsOnly ts ts₂ := by
  refine ⟨fun x => (h₂.blocks x).trans (h₁.blocks x), ?_⟩
  rw [h₂.rest, h₁.rest]

/-- Faltering children changes flags only. -/
theorem falterChildren_spec (transitively : Bool) (nextID : ID) (children : List ID) :
    Inv W root added (falterChildren ts transitively nextID children) ∧
      FlagsOnly ts (falterChildren ts transitively nextID children) := by
  induction children with
  | nil => exact ⟨h, FlagsOnly.refl ts⟩
  | cons childID rest ih =>
    obtain ⟨hinv, hflags⟩ := ih
    rw [falterChildren]
    generalize falterChildren ts transitively nextID rest = ts₁ at hinv hflags
    by_cases hskip : ¬ transitively ∧ childID = nextID
    · rw [if_pos hskip]
      exact ⟨hinv, hflags⟩
    rw [if_neg hskip]
    rcases hchild : ts₁.blocks childID with _ | child
    · exact ⟨hinv, hflags⟩
    obtain ⟨hinv', hflag⟩ := setFlag_spec hinv hchild
    exact ⟨hinv', hflags.trans hflag⟩

/-! ## One iteration -/

variable (W) in
/-- What an iteration of the loop of `vote` on the block `y` does; `pref` is the
preference of `y` afterwards. -/
structure LoopStep (ts : Topological U B) (y pref : ID) (ts' : Topological U B) : Prop where
  pref_child : pref ∈ ts.childrenOf y
  /-- Nodes that stay keep their children, and all but `y` keep their votes. -/
  node : ∀ x n', ts'.blocks x = some n' → ∃ n, ts.blocks x = some n ∧
    n'.children = n.children ∧ (x ≠ y → n'.sb = n.sb) ∧
    (x = y → ∃ sb, n'.sb = some sb ∧ sb.preference F = pref)
  outcome :
    (ts'.lastAcceptedID = ts.lastAcceptedID ∧
      (∀ x, (ts'.blocks x).isSome = (ts.blocks x).isSome) ∧
      ts'.preferredIDs = ts.preferredIDs ∧ ts'.preferredHeights = ts.preferredHeights) ∨
    (y = ts.lastAcceptedID ∧ ts'.lastAcceptedID = pref ∧ ts'.blocks y = none ∧
      ts'.preferredIDs = ts.preferredIDs.filter (· ≠ pref) ∧
      ts'.preferredHeights = Function.update ts.preferredHeights (W.height pref) none)
  preference : ts'.preference = ts.preference
  log : ts.log <+: ts'.log

omit h in
/-- The part of an iteration after the decision: faltering children changes flags
only. -/
theorem LoopStep.falter {ts₁ : Topological U B} {y pref : ID} (h : LoopStep W F ts y pref ts₁)
    (hflags : FlagsOnly ts₁ ts') : LoopStep W F ts y pref ts' := by
  have hrest := hflags.rest
  refine ⟨h.pref_child, ?_, ?_, ?_, ?_⟩
  · intro x n' hn'
    obtain ⟨n₁, hn₁, hsb, hchildren⟩ := hflags.node hn'
    obtain ⟨n, hn, hkids, hother, hself⟩ := h.node x n₁ hn₁
    refine ⟨n, hn, by rw [hchildren, hkids], ?_, ?_⟩
    · intro hx
      rw [hsb, hother hx]
    · intro hx
      rw [hsb]
      exact hself hx
  · rcases h.outcome with ⟨hlast, hsome, hids, hheights⟩ | ⟨hy, hlast, hgone, hids, hheights⟩
    · left
      rw [hrest]
      refine ⟨hlast, ?_, hids, hheights⟩
      intro x
      rw [← hsome x, ← hflags.isSome x]
    · right
      rw [hrest]
      refine ⟨hy, hlast, ?_, hids, hheights⟩
      have := hflags.isSome y
      rw [hgone] at this
      simpa using this
  · rw [hrest]
    exact h.preference
  · rw [hrest]
    exact h.log

variable {sb : Tree U B}

/-- The votes are recorded and nothing is accepted. -/
theorem LoopStep.recorded {y : ID}
    (hn : ts.blocks y = some n) (hsb : sb.node.PrefersIn (· ∈ n.children)) :
    Inv W root added (ts.setBlock y (n.recorded sb)) ∧
      LoopStep W F ts y (sb.preference F)
        (ts.setBlock y (n.recorded sb)) := by
  refine ⟨h.setNode hn rfl rfl hsb, ?_, ?_, ?_, rfl, List.prefix_rfl⟩
  · rw [childrenOf, hn]
    exact Tree.preference_mem F hsb
  · intro x n' hn'
    by_cases hx : x = y
    · subst hx
      have heq : n.recorded sb = n' := by
        simpa [setBlock] using hn'
      refine ⟨n, hn, by rw [← heq], fun hne => absurd rfl hne, fun _ => ⟨sb, by rw [← heq], rfl⟩⟩
    · have hsame : ts.blocks x = some n' := by simpa [setBlock, hx] using hn'
      exact ⟨n', hsame, rfl, fun _ => rfl, fun heq => absurd heq hx⟩
  · exact Or.inl ⟨rfl, isSome_setBlock hn, rfl, rfl⟩

/-- The votes are recorded and the preferred child is accepted. -/
theorem LoopStep.accepted
    (hn : ts.blocks ts.lastAcceptedID = some n) (hsb : sb.node.PrefersIn (· ∈ n.children))
    (ord : ℕ → List ID → List ID) (hord : ∀ k l, (ord k l).Perm l) :
    ∃ ts₁, acceptPreferredChild W F
        (ts.setBlock ts.lastAcceptedID (n.recorded sb)) ord (n.recorded sb) = some ts₁ ∧
      Inv W root added (ts₁.deleteBlock ts.lastAcceptedID) ∧
      LoopStep W F ts ts.lastAcceptedID (sb.preference F) (ts₁.deleteBlock ts.lastAcceptedID) ∧
      ∀ x m, (ts₁.deleteBlock ts.lastAcceptedID).blocks x = some m →
        (ts.setBlock ts.lastAcceptedID (n.recorded sb)).blocks x = some m := by
  obtain ⟨hinv, hrec⟩ := LoopStep.recorded F h hn hsb
  have hblock : (ts.setBlock ts.lastAcceptedID (n.recorded sb)).blocks
      ts.lastAcceptedID = some (n.recorded sb) := by simp [setBlock]
  obtain ⟨ts₁, D, hrun, hprune⟩ := acceptPreferredChild_prune F hinv hblock rfl ord hord
  obtain ⟨rejected, -, hlog⟩ := hprune.log
  refine ⟨ts₁, hrun, hinv.prune hprune, ⟨hrec.pref_child, ?_, Or.inr ⟨rfl, hprune.last, ?_, ?_, ?_⟩,
    hprune.preference, ⟨_, hlog.symm⟩⟩, fun x m hm => (hprune.blocks_eq hm).1⟩
  · intro x n' hn'
    exact hrec.node x n' (hprune.blocks_eq hn').1
  · simp [deleteBlock]
  · exact hprune.preferredIDs
  · exact hprune.preferredHeights

/-- What an iteration decides after the votes are recorded: the preferred child of a finalized
last accepted block is accepted. Nodes that stay are not changed by it. -/
theorem decision_spec {y : ID} (hn : ts.blocks y = some n)
    (hsb : sb.node.PrefersIn (· ∈ n.children)) (ord : ℕ → List ID → List ID)
    (hord : ∀ k l, (ord k l).Perm l) :
    ∃ ts₂, (if sb.finalized F ∧
          (ts.setBlock y (n.recorded sb)).lastAcceptedID = y then
        (acceptPreferredChild W F (ts.setBlock y (n.recorded sb)) ord (n.recorded sb)).map (·.deleteBlock y)
      else some (ts.setBlock y (n.recorded sb))) = some ts₂ ∧
      Inv W root added ts₂ ∧ LoopStep W F ts y (sb.preference F) ts₂ ∧
      ∀ x m, ts₂.blocks x = some m →
        (ts.setBlock y (n.recorded sb)).blocks x = some m := by
  split
  · rename_i hfinal
    have hlast : ts.lastAcceptedID = y := hfinal.2
    subst hlast
    obtain ⟨ts₁, hrun, hinv, hstep, hblocks⟩ := LoopStep.accepted F h hn hsb ord hord
    exact ⟨_, by rw [hrun]; rfl, hinv, hstep, hblocks⟩
  · obtain ⟨hinv, hstep⟩ := LoopStep.recorded F h hn hsb
    exact ⟨_, rfl, hinv, hstep, fun _ _ hm => hm⟩

/-- A block with children has a snowball tree over them. -/
theorem Inv.inner_block {y : ID} (hy : ts.childrenOf y ≠ []) :
    ∃ n sb, ts.blocks y = some n ∧ n.sb = some sb ∧
      sb.node.PrefersIn (· ∈ n.children) := by
  obtain ⟨c, hc⟩ := List.exists_mem_of_ne_nil _ hy
  obtain ⟨n, hn, hchildren⟩ := exists_block_of_child hc
  have hok := h.node_ok _ n hn
  rcases hsb : n.sb with _ | sb
  · rw [SnowmanBlock.Ok, hsb] at hok
    exact absurd (hchildren ▸ hok) hy
  · rw [SnowmanBlock.Ok, hsb] at hok
    exact ⟨n, sb, hn, hsb, hok⟩

/-- One iteration of the loop, on a block that is in the tree and has children. -/
theorem voteLoop_cons (ord : ℕ → ℕ → List ID → List ID)
    (hord : ∀ m k l, (ord m k l).Perm l) (vote : Votes) (stack : List Votes) (np : ID) (on : Bool)
    (hy : ts.childrenOf vote.parentID ≠ []) :
    ∃ pref ts', Inv W root added ts' ∧ LoopStep W F ts vote.parentID pref ts' ∧
      voteLoop W F params ord (vote :: stack) np on ts =
        voteLoop W F params ord stack (if on then pref else np)
          (on && (stack.head?.map (·.parentID)).getD 0 = pref) ts' := by
  obtain ⟨n, sb₀, hn, hsb₀, hprefers⟩ := h.inner_block hy
  rw [voteLoop]
  simp only [hn, hsb₀]
  generalize hreset : (if n.shouldFalter then sb₀.recordUnsuccessfulPoll else sb₀) = sb₁
  have hprefers₁ : sb₁.node.PrefersIn (· ∈ n.children) := by
    rw [← hreset]
    split
    · exact hprefers
    · exact hprefers
  have hsb := Tree.recordPoll_prefersIn F params vote.votes hprefers₁
  generalize (Tree.recordPoll F params sb₁ vote.votes).1 = sb at hsb
  obtain ⟨ts₂, hdecision, hinv₂, hstep₂, -⟩ :=
    decision_spec F h hn hsb (ord stack.length) (hord stack.length)
  simp only [hdecision]
  obtain ⟨hinv, hflags⟩ := falterChildren_spec hinv₂ n.shouldFalter
    ((stack.head?.map (·.parentID)).getD 0) n.children
  exact ⟨sb.preference F, _, hinv, hstep₂.falter F hflags, rfl⟩

/-! ## The loop -/

/-- The loop invariant: of the stack `Q ++ rest` of a poll that started in `ts₀`, the
blocks `Q` are done; `np` is the new preferred block and `on` says that the loop is
still on the preferred branch. -/
structure LoopInv (ts₀ : Topological U B) (Q rest : List ID) (np : ID) (on : Bool)
    (ts : Topological U B) : Prop where
  preferred : (ts.blocks np).isSome
  children : ∀ x n, ts.blocks x = some n → n.children = ts₀.childrenOf x
  first : ts₀.lastAcceptedID ≠ ts.lastAcceptedID → ts.blocks ts₀.lastAcceptedID = none
  /-- The last accepted block is done, or it is next and preferred, or the loop is
  about to stop. -/
  next : ts.lastAcceptedID ∈ Q ∨ (rest.head? = some ts.lastAcceptedID ∧ on = true) ∨
    ∀ y, rest.head? = some y → ts.blocks y = none

omit h in
/-- The block that is voted on next has children. -/
theorem LoopInv.inner {ts₀ ts : Topological U B} {Q rest : List ID} {np y : ID} {on : Bool}
    {n : SnowmanBlock U B} (hJ : LoopInv ts₀ Q (y :: rest) np on ts)
    (hs : VoteStack W ts₀ (Q ++ y :: rest)) (hn : ts.blocks y = some n) : ts.childrenOf y ≠ [] := by
  rw [childrenOf_eq hn, hJ.children y n hn]
  exact hs.inner y (by simp)

/-- A set of blocks closed under parents that meets the tree holds its root. -/
theorem Inv.root_mem {P : ID → Prop}
    (hP : ∀ x, P x → (ts.blocks x).isSome → x ≠ ts.lastAcceptedID → P (W.parent x)) :
    ∀ x, P x → (ts.blocks x).isSome → P ts.lastAcceptedID := by
  intro x
  induction hk : W.height x using Nat.strongRecOn generalizing x with
  | _ k ih =>
    intro hx htree
    by_cases hlast : x = ts.lastAcceptedID
    · exact hlast ▸ hx
    · obtain ⟨-, hparent, hheight⟩ := h.parent_spec htree hlast
      exact ih _ (by omega) (W.parent x) rfl (hP x hx htree hlast) hparent

end

section Stack

variable {ts₀ : Topological U B} {Q rest : List ID} {y : ID}

/-- In a vote stack, the parent of a block is done before the block. -/
theorem VoteStack.parent_done (hs : VoteStack W ts₀ (Q ++ rest)) {z : ID} (hz : z ∈ Q)
    (hne : z ≠ ts₀.lastAcceptedID) : W.parent z ∈ Q := by
  rcases List.mem_append.mp (hs.closed z (List.mem_append_left _ hz) hne) with hdone | hlater
  · exact hdone
  · exact absurd rfl ((List.pairwise_append.mp hs.order).2.2 z hz _ hlater hne)

theorem VoteStack.parent_done_next {next : ID} (hs : VoteStack W ts₀ (Q ++ next :: rest))
    (hne : next ≠ ts₀.lastAcceptedID) (hself : W.parent next ≠ next) : W.parent next ∈ Q := by
  have hsplit : Q ++ next :: rest = (Q ++ [next]) ++ rest := by simp
  rw [hsplit] at hs
  rcases List.mem_append.mp (hs.parent_done (z := next) (by simp) hne) with hdone | hhere
  · exact hdone
  · exact absurd (List.mem_singleton.mp hhere) hself

/-- A child of `y` is not done before `y`. -/
theorem VoteStack.child_not_done (hs : VoteStack W ts₀ (Q ++ y :: rest)) {c : ID}
    (hc : W.parent c = y) (hne : c ≠ ts₀.lastAcceptedID) (hself : c ≠ y) : c ∉ Q ++ [y] := by
  intro hmem
  rcases List.mem_append.mp hmem with hQ | hy
  · exact (List.pairwise_append.mp hs.order).2.2 c hQ y (by simp) hne hc
  · exact hself (List.mem_singleton.mp hy)

/-- Accepting `pref` while the next block of the stack is another one: that block
was deleted. Otherwise it would be above `pref`, and `pref` would be done. -/
theorem VoteStack.next_deleted {next : ID} (hs : VoteStack W ts₀ (Q ++ y :: next :: rest))
    (h' : Inv W root added ts') (hparent : W.parent ts'.lastAcceptedID = y)
    (hself : ts'.lastAcceptedID ≠ y) (hold : ts'.lastAcceptedID ≠ ts₀.lastAcceptedID)
    (hgone : ts'.blocks ts₀.lastAcceptedID = none) (hne : next ≠ ts'.lastAcceptedID) :
    ts'.blocks next = none := by
  by_contra hsome
  have htree : (ts'.blocks next).isSome := Option.isSome_iff_ne_none.mpr hsome
  have hfirst : ∀ x, (ts'.blocks x).isSome → x ≠ ts₀.lastAcceptedID := by
    rintro x hx rfl
    rw [hgone] at hx
    cases hx
  obtain ⟨-, hparentTree, hheight⟩ := h'.parent_spec htree hne
  have hsplit : Q ++ y :: next :: rest = (Q ++ [y]) ++ next :: rest := by simp
  have hstart : W.parent next ∈ Q ++ [y] := by
    refine VoteStack.parent_done_next (hsplit ▸ hs) (hfirst next htree) ?_
    intro heq
    rw [heq] at hheight
    omega
  have hdone : ts'.lastAcceptedID ∈ Q ++ [y] := by
    refine h'.root_mem (P := (· ∈ Q ++ [y])) ?_ (W.parent next) hstart hparentTree
    intro x hx hxtree _
    exact VoteStack.parent_done (hsplit ▸ hs) hx (hfirst x hxtree)
  exact hs.child_not_done hparent hold hself hdone

theorem LoopInv.step {np pref : ID} {on : Bool} (h : Inv W root added ts)
    (h' : Inv W root added ts') (hs : VoteStack W ts₀ (Q ++ y :: rest))
    (hJ : LoopInv ts₀ Q (y :: rest) np on ts) (hy : (ts.blocks y).isSome)
    (hstep : LoopStep W F ts y pref ts') :
    LoopInv ts₀ (Q ++ [y]) rest (if on then pref else np) (on && rest.head?.getD 0 = pref) ts' := by
  have hchildren : ∀ x n, ts'.blocks x = some n → n.children = ts₀.childrenOf x := by
    intro x n hn
    obtain ⟨n₁, hn₁, hkids, -, -⟩ := hstep.node x n hn
    rw [hkids, hJ.children x n₁ hn₁]
  have hnone : ∀ x, ts.blocks x = none → ts'.blocks x = none := by
    intro x hx
    rcases hx' : ts'.blocks x with _ | n
    · rfl
    · obtain ⟨n₁, hn₁, -⟩ := hstep.node x n hx'
      rw [hx] at hn₁
      cases hn₁
  obtain ⟨hprefTree, hprefLast, hprefParent, -⟩ := h.child_spec hstep.pref_child
  -- the loop does not stop here
  have hnext : ts.lastAcceptedID ∈ Q ∨ (y = ts.lastAcceptedID ∧ on = true) := by
    rcases hJ.next with hQ | ⟨hhead, hon⟩ | hstop
    · exact Or.inl hQ
    · exact Or.inr ⟨Option.some.inj hhead, hon⟩
    · rw [hstop y rfl] at hy
      cases hy
  rcases hstep.outcome with ⟨hlast, hsome, -, -⟩ | ⟨hyLast, hlast, hgone, -, -⟩
  · refine ⟨?_, hchildren, ?_, Or.inl ?_⟩
    · rw [hsome]
      split
      · exact hprefTree
      · exact hJ.preferred
    · intro hne
      exact hnone _ (hJ.first (hlast ▸ hne))
    · rw [hlast]
      rcases hnext with hQ | ⟨rfl, -⟩
      · exact List.mem_append_left _ hQ
      · simp
  · have hon : on = true := by
      rcases hnext with hQ | ⟨-, hon⟩
      · have hdisj := (List.nodup_append.mp hs.nodup).2.2
        exact absurd hyLast.symm (hdisj _ hQ y (by simp))
      · exact hon
    subst hon
    have hfirst : ts₀.lastAcceptedID ≠ pref := by
      intro heq
      have := hJ.first (by rw [heq]; exact hprefLast)
      rw [heq] at this
      rw [this] at hprefTree
      cases hprefTree
    have hfirstGone : ts'.blocks ts₀.lastAcceptedID = none := by
      by_cases heq : ts₀.lastAcceptedID = ts.lastAcceptedID
      · rw [heq, ← hyLast]
        exact hgone
      · exact hnone _ (hJ.first heq)
    refine ⟨?_, hchildren, fun _ => hfirstGone, Or.inr ?_⟩
    · rw [← hlast]
      exact h'.last_mem
    · cases rest with
      | nil => exact Or.inr (by simp)
      | cons next rest =>
        by_cases hnextPref : next = pref
        · exact Or.inl ⟨by rw [hlast, ← hnextPref]; rfl, by simp [hnextPref]⟩
        · refine Or.inr ?_
          intro z hz
          obtain rfl : next = z := Option.some.inj hz
          refine hs.next_deleted h' (hlast ▸ hprefParent) ?_ ?_ hfirstGone (hlast ▸ hnextPref)
          · rw [hlast, hyLast]
            exact hprefLast
          · rw [hlast]
            exact hfirst.symm

end Stack

/-- The induction rule for the loop: what an iteration keeps, the loop keeps. The
loop returns, and it stops at the end of the stack or at a deleted block. -/
theorem voteLoop_rule {ts₀ : Topological U B} (ord : ℕ → ℕ → List ID → List ID)
    (hord : ∀ m k l, (ord m k l).Perm l)
    (M : List ID → List ID → ID → Bool → Topological U B → Prop)
    (hM : ∀ Q y rest np on ts pref ts', Inv W root added ts → Inv W root added ts' → VoteStack W ts₀ (Q ++ y :: rest) → LoopInv ts₀ Q (y :: rest) np on ts → (ts.blocks y).isSome → LoopStep W F ts y pref ts' → M Q (y :: rest) np on ts → M (Q ++ [y]) rest (if on then pref else np) (on && rest.head?.getD 0 = pref) ts')
    (stack : List Votes) (Q : List ID) (np : ID) (on : Bool) (ts : Topological U B)
    (h : Inv W root added ts) (hs : VoteStack W ts₀ (Q ++ stack.map Votes.parentID))
    (hJ : LoopInv ts₀ Q (stack.map Votes.parentID) np on ts)
    (hstart : M Q (stack.map Votes.parentID) np on ts) :
    ∃ Q' rest np' on' ts', voteLoop W F params ord stack np on ts = some (np', ts') ∧
      Inv W root added ts' ∧ Q' ++ rest = Q ++ stack.map Votes.parentID ∧
      LoopInv ts₀ Q' rest np' on' ts' ∧ M Q' rest np' on' ts' ∧
      ∀ y, rest.head? = some y → ts'.blocks y = none := by
  induction stack generalizing Q np on ts with
  | nil => exact ⟨Q, [], np, on, ts, rfl, h, rfl, hJ, hstart, by simp⟩
  | cons vote stack ih =>
    rw [List.map_cons] at hs hJ hstart ⊢
    rcases hblock : ts.blocks vote.parentID with _ | n
    · refine ⟨Q, _, np, on, ts, ?_, h, rfl, hJ, hstart, ?_⟩
      · rw [voteLoop, hblock]
      · intro y hy
        obtain rfl : vote.parentID = y := Option.some.inj hy
        exact hblock
    have hy : (ts.blocks vote.parentID).isSome := by simp [hblock]
    obtain ⟨pref, ts', h', hstep, hrun⟩ :=
      voteLoop_cons F params h ord hord vote stack np on (hJ.inner hs hblock)
    have hhead : (stack.head?.map (·.parentID)).getD 0 =
        (stack.map Votes.parentID).head?.getD 0 := by rw [List.head?_map]
    rw [hhead] at hrun
    have hsplit : Q ++ vote.parentID :: stack.map Votes.parentID =
        (Q ++ [vote.parentID]) ++ stack.map Votes.parentID := by simp
    rw [hrun, hsplit]
    exact ih _ _ _ _ h' (hsplit ▸ hs) (hJ.step F h h' hs hy hstep)
      (hM _ _ _ _ _ _ _ _ h h' hs hJ hy hstep hstart)

end Topological

end Titan.Snow
