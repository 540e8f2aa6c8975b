import Titan.Snow.EagerTree
import Titan.Snow.Consensus

/-!
# Titan.Snow.EagerTopological — Snowman without falter flags

A poll that does not vote on a block has to reset the snowball trees of the block and
of everything above it. `Topological` marks the block with `shouldFalter` and passes
the mark on when a later poll visits it. The reference here resets the whole subtree
at once.

`settled` applies the pending resets of a state: a block is to be reset if it or an
ancestor in the tree is marked. It maps every run to a run of the reference.
-/

namespace Titan.Snow

variable {U B : Type} (W : Universe) (F : Factory U B) (params : Parameters)

/-- Reset the snowball tree of a block. -/
def SnowmanBlock.reset (n : SnowmanBlock U B) : SnowmanBlock U B :=
  { n with sb := n.sb.map (Tree.recordUnsuccessfulPollEager F) }

/-- Apply the pending resets of a block. -/
def SnowmanBlock.settle (pending : Bool) (n : SnowmanBlock U B) : SnowmanBlock U B :=
  { n with shouldFalter := false, sb := n.sb.map (Tree.settle F pending) }

namespace Topological

/-! ## The reference -/

def mapBlocks (g : ID → SnowmanBlock U B → SnowmanBlock U B) (ts : Topological U B) : Topological U B :=
  { ts with blocks := fun x => (ts.blocks x).map (g x) }

/-- Whether the block is one of `roots` or above one of them. -/
def isAbove (last : ID) (roots : List ID) : ℕ → ID → Bool
  | 0, _ => false
  | fuel + 1, x => decide (x ∈ roots) || (x ≠ last && isAbove last roots fuel (W.parent x))

/-- Reset the snowball trees of `roots` and of all blocks above them. -/
def resetSubtrees (ts : Topological U B) (roots : List ID) : Topological U B :=
  ts.mapBlocks fun x n =>
    if isAbove W ts.lastAcceptedID roots (W.height x + 1) x then n.reset F else n

/-- The loop of `vote` in the reference. A block reached `AlphaPreference` if it is on the
stack; the subtrees of the other children are reset. -/
def voteLoopEager (ord : ℕ → ℕ → List ID → List ID) :
    List Votes → ID → Bool → Topological U B → Option (ID × Topological U B)
  | [], newPreferred, _, ts => some (newPreferred, ts)
  | vote :: stack, newPreferred, onPreferredBranch, ts =>
    match ts.blocks vote.parentID with
    | none => some (newPreferred, ts)
    | some parentBlock =>
      match parentBlock.sb with
      | none => none
      | some sb =>
        let sb := (sb.recordPollEager F params vote.votes).1
        let parentBlock := { parentBlock with sb := some sb }
        let ts := ts.setBlock vote.parentID parentBlock
        let decision :=
          if sb.finalized F ∧ ts.lastAcceptedID = vote.parentID then
            (acceptPreferredChild W F ts (ord stack.length) parentBlock).map
              (·.deleteBlock vote.parentID)
          else some ts
        match decision with
        | none => none
        | some ts =>
          let parentPreference := sb.preference F
          let newPreferred := if onPreferredBranch then parentPreference else newPreferred
          let next := stack.head?.map (·.parentID)
          let failed := parentBlock.children.filter (· ∉ stack.map Votes.parentID)
          let ts := resetSubtrees W F ts failed
          voteLoopEager ord stack newPreferred
            (onPreferredBranch && next = some parentPreference) ts

/-- `vote` in the reference. -/
def voteEager (ts : Topological U B) (ord : ℕ → ℕ → List ID → List ID) (stack : List Votes) :
    Option (ID × Topological U B) :=
  match stack with
  | [] => some (ts.preference, resetSubtrees W F ts [ts.lastAcceptedID])
  | _ :: _ => voteLoopEager W F params ord stack ts.lastAcceptedID true ts

/-- `RecordPoll` in the reference. -/
def recordPollEager (ts : Topological U B) (ord : PollOrder) (voteBag : Bag ID) :
    Option (Topological U B) := do
  let stack ← collectVotes W params ts ord voteBag
  let (preferred, ts) ← voteEager W F params ts ord.children stack
  updatePreference W F ts preferred

/-! ## What reads blocks only up to resets -/

/-- Changes of blocks that no operation notices, except polls of the changed trees. -/
structure Respects (g : ID → SnowmanBlock U B → SnowmanBlock U B) : Prop where
  hasBlk : ∀ x n, (g x n).hasBlk = n.hasBlk
  children : ∀ x n, (g x n).children = n.children
  preference : ∀ x n, (g x n).sb.map (Tree.preference F) = n.sb.map (Tree.preference F)

variable {F} {g : ID → SnowmanBlock U B → SnowmanBlock U B}

theorem mapBlocks_blocks (g : ID → SnowmanBlock U B → SnowmanBlock U B) (ts : Topological U B) (x : ID) :
    (ts.mapBlocks g).blocks x = (ts.blocks x).map (g x) := rfl

variable {ts : Topological U B}

theorem mapBlocks_congr {g g' : ID → SnowmanBlock U B → SnowmanBlock U B}
    (h : ∀ x n, ts.blocks x = some n → g x n = g' x n) : ts.mapBlocks g = ts.mapBlocks g' := by
  have hblocks : (fun x => (ts.blocks x).map (g x)) = fun x => (ts.blocks x).map (g' x) := by
    funext x
    rcases hx : ts.blocks x with _ | n
    · rfl
    · rw [Option.map_some, Option.map_some, h x n hx]
  unfold mapBlocks
  rw [hblocks]

theorem mapBlocks_setBlock (g : ID → SnowmanBlock U B → SnowmanBlock U B) (ts : Topological U B) (id : ID)
    (n : SnowmanBlock U B) :
    (ts.mapBlocks g).setBlock id (g id n) = (ts.setBlock id n).mapBlocks g := by
  have hblocks : Function.update (fun x => (ts.blocks x).map (g x)) id (some (g id n)) =
      fun x => (Function.update ts.blocks id (some n) x).map (g x) := by
    funext x
    exact (Function.apply_update (fun x => Option.map (g x)) ts.blocks id (some n) x).symm
  unfold setBlock mapBlocks
  rw [hblocks]

theorem mapBlocks_deleteBlock (g : ID → SnowmanBlock U B → SnowmanBlock U B) (ts : Topological U B) (id : ID) :
    (ts.mapBlocks g).deleteBlock id = (ts.deleteBlock id).mapBlocks g := by
  have hblocks : Function.update (fun x => (ts.blocks x).map (g x)) id none =
      fun x => (Function.update ts.blocks id none x).map (g x) := by
    funext x
    exact (Function.apply_update (fun x => Option.map (g x)) ts.blocks id none x).symm
  unfold deleteBlock mapBlocks
  rw [hblocks]

namespace Respects

variable (hg : Respects F g)
include hg

section

variable (ts : Topological U B)

theorem decided (x : ID) (n : SnowmanBlock U B) :
    (ts.mapBlocks g).decided W x (g x n) = ts.decided W x n := by
  unfold Topological.decided
  rw [hg.hasBlk]
  rfl

theorem markAncestors (fuel : ℕ) (id : ID) (k : Kahn) :
    Topological.markAncestors W (ts.mapBlocks g) fuel id k =
      Topological.markAncestors W ts fuel id k := by
  induction fuel generalizing id k with
  | zero => rfl
  | succ fuel ih =>
    unfold Topological.markAncestors
    rw [mapBlocks_blocks]
    rcases ts.blocks id with _ | n
    · rfl
    · simp only [Option.map_some, hg.decided, ih]

theorem calculateInDegree (votes : Bag ID) (l : List ID) (k : Kahn) :
    Topological.calculateInDegree W (ts.mapBlocks g) votes l k =
      Topological.calculateInDegree W ts votes l k := by
  induction l generalizing k with
  | nil => rfl
  | cons vote rest ih =>
    unfold Topological.calculateInDegree
    rw [mapBlocks_blocks]
    rcases ts.blocks vote with _ | n
    · simp only [Option.map_none, ih]
    · simp only [Option.map_some, hg.decided, hg.markAncestors, ih]
      rfl

theorem pushVotes (ord : ℕ → List ID → List ID) (fuel : ℕ) (k : Kahn)
    (stack : List Votes) :
    Topological.pushVotes W params (ts.mapBlocks g) ord fuel k stack =
      Topological.pushVotes W params ts ord fuel k stack := by
  induction fuel generalizing k stack with
  | zero => rfl
  | succ fuel ih =>
    unfold Topological.pushVotes
    rcases ord fuel k.leaves with _ | ⟨leafID, rest⟩
    · rfl
    · simp only [mapBlocks_blocks]
      rcases k.nodes leafID with _ | kahn <;> rcases ts.blocks leafID with _ | n
      · rfl
      · rfl
      · rfl
      · simp only [Option.map_some, hg.decided, ih]

theorem collectVotes (ord : PollOrder) (votes : Bag ID) :
    Topological.collectVotes W params (ts.mapBlocks g) ord votes =
      Topological.collectVotes W params ts ord votes := by
  unfold Topological.collectVotes
  simp only [hg.calculateInDegree, hg.pushVotes]
  rfl

end

theorem rejectTransitively (ord : ℕ → List ID → List ID) (fuel : ℕ) (stack : List ID)
    (ts : Topological U B) :
    Topological.rejectTransitively ord fuel stack (ts.mapBlocks g) =
      (Topological.rejectTransitively ord fuel stack ts).map (mapBlocks g) := by
  induction fuel generalizing stack ts with
  | zero => cases stack <;> rfl
  | succ fuel ih =>
    cases stack with
    | nil => rfl
    | cons id rest =>
      unfold Topological.rejectTransitively
      dsimp only
      rw [mapBlocks_blocks]
      generalize (id :: rest).getLast (List.cons_ne_nil _ _) = rejectedID
      rcases ts.blocks rejectedID with _ | n
      · rfl
      · simp only [Option.map_some, hg.children, mapBlocks_deleteBlock]
        exact ih _ { ts.deleteBlock rejectedID with
          log := (ts.deleteBlock rejectedID).log ++ (ord fuel n.children).map .rejected }

/-- Accepting the preferred child of a block; `n'` is the changed block. -/
theorem acceptPreferredChild (ts : Topological U B) (ord : ℕ → List ID → List ID)
    {n n' : SnowmanBlock U B} (hchildren : n'.children = n.children)
    (hpref : n'.sb.map (Tree.preference F) = n.sb.map (Tree.preference F)) :
    Topological.acceptPreferredChild W F (ts.mapBlocks g) ord n' =
      (Topological.acceptPreferredChild W F ts ord n).map (mapBlocks g) := by
  unfold Topological.acceptPreferredChild
  rcases hsb : n.sb with _ | sb
  · rw [hsb, Option.map_none, Option.map_eq_none_iff] at hpref
    rw [hpref]
    rfl
  · rw [hsb, Option.map_some, Option.map_eq_some_iff] at hpref
    rcases hpref with ⟨sb', hsb', heq⟩
    simp only [hsb', heq, hchildren]
    split
    · rfl
    · exact hg.rejectTransitively ord _ _
        { ts with
          lastAcceptedID := sb.preference F
          lastAcceptedHeight := W.height (sb.preference F)
          preferredIDs := ts.preferredIDs.filter (· ≠ sb.preference F)
          preferredHeights := Function.update ts.preferredHeights (W.height (sb.preference F)) none
          log := ts.log ++ .accepted (sb.preference F) ::
            ((ord ts.keys.length n.children).filter (· ≠ sb.preference F)).map .rejected }

theorem preferAncestors (fuel : ℕ) (id : ID) (ts : Topological U B) :
    Topological.preferAncestors W fuel id (ts.mapBlocks g) =
      (Topological.preferAncestors W fuel id ts).map (mapBlocks g) := by
  induction fuel generalizing id ts with
  | zero => rfl
  | succ fuel ih =>
    unfold Topological.preferAncestors
    rw [mapBlocks_blocks]
    rcases ts.blocks id with _ | n
    · rfl
    · simp only [Option.map_some, hg.decided]
      split
      · rfl
      · exact ih _ { ts with
          preferredIDs := ts.preferredIDs ++ [id]
          preferredHeights := Function.update ts.preferredHeights (W.height id) (some id) }

theorem preferDescendants (fuel : ℕ) (id : ID) (ts : Topological U B) :
    Topological.preferDescendants W F fuel id (ts.mapBlocks g) =
      (Topological.preferDescendants W F fuel id ts).map (mapBlocks g) := by
  induction fuel generalizing id ts with
  | zero => rfl
  | succ fuel ih =>
    unfold Topological.preferDescendants
    rw [mapBlocks_blocks]
    rcases ts.blocks id with _ | n
    · rfl
    · have hpref := hg.preference id n
      simp only [Option.map_some]
      rcases hsb : n.sb with _ | sb
      · rw [hsb, Option.map_none, Option.map_eq_none_iff] at hpref
        rw [hpref]
        rfl
      · rw [hsb, Option.map_some, Option.map_eq_some_iff] at hpref
        rcases hpref with ⟨sb', hsb', heq⟩
        simp only [hsb', heq]
        exact ih _ { ts with
          preference := sb.preference F
          preferredIDs := ts.preferredIDs ++ [sb.preference F]
          preferredHeights :=
            Function.update ts.preferredHeights (W.height (sb.preference F)) (some (sb.preference F)) }

theorem updatePreference (ts : Topological U B) (preferred : ID) :
    Topological.updatePreference W F (ts.mapBlocks g) preferred =
      (Topological.updatePreference W F ts preferred).map (mapBlocks g) := by
  unfold Topological.updatePreference
  have hids : (ts.mapBlocks g).preferredIDs = ts.preferredIDs := rfl
  rw [hids]
  split
  · rfl
  have hstart := hg.preferAncestors W (ts.keys.length + 1) preferred
    { ts with preferredIDs := [], preferredHeights := fun _ => none, preference := preferred }
  refine (congrArg (fun o => Option.bind o _) hstart).trans ?_
  rcases Topological.preferAncestors W (ts.keys.length + 1) preferred _ with _ | ts'
  · rfl
  · exact hg.preferDescendants W _ preferred ts'

end Respects

/-! ## Pending resets -/

/-- `P` holds of the block or of one of its ancestors up to `last`. -/
inductive Under (last : ID) (P : ID → Prop) : ID → Prop
  | self {x : ID} : P x → Under last P x
  | parent {x : ID} : x ≠ last → Under last P (W.parent x) → Under last P x

def Marked (ts : Topological U B) (x : ID) : Prop :=
  ∃ n, ts.blocks x = some n ∧ n.shouldFalter = true

theorem marked_iff {x : ID} {n : SnowmanBlock U B}
    (hn : ts.blocks x = some n) : ts.Marked x ↔ n.shouldFalter = true := by
  simp [Marked, hn]

open Classical in
/-- The snowball tree of the block is to be reset. -/
noncomputable def pending (ts : Topological U B) (x : ID) : Bool :=
  decide (Under W ts.lastAcceptedID ts.Marked x)

variable (F) in
/-- The state with all pending resets applied. -/
noncomputable def settled (ts : Topological U B) : Topological U B :=
  ts.mapBlocks fun x n => n.settle F (ts.pending W x)

theorem pending_iff (ts : Topological U B) (x : ID) :
    ts.pending W x = true ↔ Under W ts.lastAcceptedID ts.Marked x := by
  classical
  exact decide_eq_true_iff

/-- What is pending depends on the marks and the last accepted block. -/
theorem pending_congr {ts ts' : Topological U B} (hlast : ts'.lastAcceptedID = ts.lastAcceptedID)
    (hmarked : ∀ x, ts'.Marked x ↔ ts.Marked x) : ts'.pending W = ts.pending W := by
  have hsame : ts'.Marked = ts.Marked := funext fun x => propext (hmarked x)
  unfold pending
  rw [hlast, hsame]

section Blocks

variable (hF : F.Lawful) (C : F.Counter params)

include hF in
theorem settle_respects (p : ID → Bool) :
    Respects F (fun x (n : SnowmanBlock U B) => n.settle F (p x)) where
  hasBlk := fun _ _ => rfl
  children := fun _ _ => rfl
  preference := by
    intro x n
    show (n.sb.map (Tree.settle F (p x))).map (Tree.preference F) = n.sb.map (Tree.preference F)
    rcases n.sb with _ | sb
    · rfl
    · simp only [Option.map_some, Tree.settle_preference hF]

include C in
/-- Resetting a block makes what is pending irrelevant. -/
theorem reset_settle (q : Bool) (n : SnowmanBlock U B) : (n.settle F q).reset F = n.settle F true := by
  unfold SnowmanBlock.reset SnowmanBlock.settle
  rcases n.sb with _ | sb
  · rfl
  · simp only [Option.map_some, Tree.recordUnsuccessfulPollEager_settle C]

end Blocks

/-! ## Resetting subtrees -/

theorem under_of_isAbove {last : ID} {roots : List ID} {fuel : ℕ} {x : ID}
    (h : isAbove W last roots fuel x = true) : Under W last (· ∈ roots) x := by
  induction fuel generalizing x with
  | zero => cases h
  | succ fuel ih =>
    rcases Bool.or_eq_true_iff.mp h with hself | hparent
    · exact .self (of_decide_eq_true hself)
    · rcases Bool.and_eq_true_iff.mp hparent with ⟨hne, hup⟩
      exact .parent (of_decide_eq_true hne) (ih hup)

/-- In the tree the height of a block bounds the way to the last accepted one. -/
theorem isAbove_iff {W : Universe} {root : ID} {added : List ID}
    (h : Inv W root added ts) (roots : List ID) {x : ID} (hx : (ts.blocks x).isSome) :
    isAbove W ts.lastAcceptedID roots (W.height x + 1) x = true ↔
      Under W ts.lastAcceptedID (· ∈ roots) x := by
  refine ⟨under_of_isAbove W, fun hunder => ?_⟩
  have hfuel : ∀ fuel, W.height x < fuel → isAbove W ts.lastAcceptedID roots fuel x = true := by
    induction hunder with
    | self hmem =>
      intro fuel hlt
      obtain ⟨fuel, rfl⟩ : ∃ k, fuel = k + 1 := ⟨fuel - 1, by omega⟩
      unfold isAbove
      rw [decide_eq_true hmem, Bool.true_or]
    | parent hne _ ih =>
      intro fuel hlt
      obtain ⟨fuel, rfl⟩ : ∃ k, fuel = k + 1 := ⟨fuel - 1, by omega⟩
      rcases h.parent_spec hx hne with ⟨-, hparent, hheight⟩
      unfold isAbove
      rw [ih hparent fuel (by omega), decide_eq_true hne, Bool.and_self, Bool.or_true]
  exact hfuel _ (Nat.lt_succ_self _)

theorem resetSubtrees_mapBlocks (g : ID → SnowmanBlock U B → SnowmanBlock U B) (ts : Topological U B)
    (roots : List ID) : resetSubtrees W F (ts.mapBlocks g) roots = ts.mapBlocks (fun x n =>
      if isAbove W ts.lastAcceptedID roots (W.height x + 1) x then (g x n).reset F else g x n) := by
  have hblocks : ∀ x, (((ts.mapBlocks g).blocks x).map (fun n =>
      if isAbove W ts.lastAcceptedID roots (W.height x + 1) x then n.reset F else n)) =
        (ts.blocks x).map (fun n =>
          if isAbove W ts.lastAcceptedID roots (W.height x + 1) x then (g x n).reset F else g x n) := by
    intro x
    rw [mapBlocks_blocks, Option.map_map]
    rfl
  exact congrArg (fun b => { ts with blocks := b }) (funext hblocks)

/-- Settled blocks after resetting subtrees. -/
theorem resetSubtrees_settle (C : F.Counter params) (p : ID → Bool) (ts : Topological U B)
    (roots : List ID) :
    resetSubtrees W F (ts.mapBlocks fun x n => n.settle F (p x)) roots =
      ts.mapBlocks (fun x n =>
        n.settle F (p x || isAbove W ts.lastAcceptedID roots (W.height x + 1) x)) := by
  rw [resetSubtrees_mapBlocks]
  refine mapBlocks_congr fun x n _ => ?_
  split
  next habove => rw [reset_settle params C, habove, Bool.or_true]
  next hnot => rw [Bool.eq_false_iff.mpr hnot, Bool.or_false]

/-- Settling a state of which only the marks changed. -/
theorem mapBlocks_flagsOnly {ts ts' : Topological U B} (h : FlagsOnly ts ts') (hkeys : ts'.keys = ts.keys)
    (p : ID → Bool) : ts'.mapBlocks (fun x n => n.settle F (p x)) =
      ts.mapBlocks (fun x n => n.settle F (p x)) := by
  have hblocks : (fun x => (ts'.blocks x).map (fun n => n.settle F (p x))) =
      fun x => (ts.blocks x).map (fun n => n.settle F (p x)) := by
    funext x
    have hx := congrArg (Option.map (fun n => SnowmanBlock.settle F (p x) n)) (h.blocks x)
    rw [Option.map_map, Option.map_map] at hx
    exact hx
  have hrest := h.rest
  rw [hkeys] at hrest
  unfold mapBlocks
  rw [hblocks, hrest]

end Topological

end Titan.Snow
