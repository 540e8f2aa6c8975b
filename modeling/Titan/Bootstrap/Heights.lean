import Titan.Bootstrap.Sessions

/-!
# Titan.Bootstrap.Heights — the interval tree as a set of heights

`Add` and `Remove` of an interval tree change one height of a set. The tree lists the runs of
the set, counts its heights mod 2 ^ 64 and can be read back from the database.

Where the code moves an upper bound in place it moves it by one, to a height at which no
interval ends. So the order of the intervals in the B-tree stays as it is.
-/

namespace Titan.Bootstrap

open Lib
open PChain (GoMap)

inductive Change
  | add (height : UInt64)
  | remove (height : UInt64)

/-- The tree and the database after a change. -/
def Change.apply (s : Tree × DB) : Change → Tree × DB
  | .add height => ((s.1.add height.toNat).1, s.2.write (s.1.add height.toNat).2)
  | .remove height => ((s.1.remove height.toNat).1, s.2.write (s.1.remove height.toNat).2)

/-- The heights after a change. -/
def Change.applySet (S : Finset ℕ) : Change → Finset ℕ
  | .add height => insert height.toNat S
  | .remove height => S.erase height.toNat

/-- A tree and its database stand for the heights. -/
structure Represents (t : Tree) (db : DB) (S : Finset ℕ) : Prop where
  contains : ∀ height, t.contains height = true ↔ height ∈ S
  runs : ∀ height, height ∈ S ↔ ∃ i ∈ t.flatten, i.lowerBound ≤ height ∧ height ≤ i.upperBound
  ordered : ∀ i ∈ t.flatten, i.lowerBound ≤ i.upperBound
  /-- The runs are in increasing order, with a height missing between two of them. -/
  apart : t.flatten.Pairwise fun i j => i.upperBound + 1 < j.lowerBound
  len : t.numKnownHeights = BitVec.ofNat 64 S.card
  newTree_flatten : (Tree.newTree db).flatten = t.flatten
  newTree_len : (Tree.newTree db).numKnownHeights = t.numKnownHeights
  /-- No interval ends where `Add` moves an upper bound to. -/
  add_inPlace : ∀ height, t.contains height = false → t.knownHeights.lookup height = none
  /-- No interval ends where `Remove` moves an upper bound to. -/
  remove_inPlace : ∀ height l, t.knownHeights.lookup (height + 1) = some l → l ≤ height →
    t.knownHeights.lookup height = none

/-! ## Counting -/

/-- The size of a set is the sum of the sizes of its runs. -/
theorem card_eq_sum {l : List (ℕ × ℕ)} (hordered : ∀ e ∈ l, e.2 ≤ e.1)
    (hapart : l.Pairwise fun a b => a.1 < b.2) {S : Finset ℕ}
    (hS : ∀ x, x ∈ S ↔ ∃ e ∈ l, e.2 ≤ x ∧ x ≤ e.1) : S.card = (l.map fun e => e.1 + 1 - e.2).sum := by
  induction l generalizing S with
  | nil =>
    rw [Finset.card_eq_zero.mpr]
    · rfl
    · refine Finset.eq_empty_of_forall_notMem fun x hx => ?_
      rcases (hS x).mp hx with ⟨e, he, -⟩
      cases he
  | cons e l ih =>
    rcases List.pairwise_cons.mp hapart with ⟨hfirst, hrest⟩
    -- the first run, and the heights above it
    have hrun : S.filter (fun x => ¬ e.1 < x) = Finset.Icc e.2 e.1 := by
      ext x
      rw [Finset.mem_filter, Finset.mem_Icc, hS]
      constructor
      · rintro ⟨⟨e', he', hl, hu⟩, hx⟩
        rcases List.mem_cons.mp he' with rfl | he'
        · exact ⟨hl, hu⟩
        · have := hfirst e' he'
          omega
      · rintro ⟨hl, hu⟩
        exact ⟨⟨e, List.mem_cons_self, hl, hu⟩, by omega⟩
    have habove := ih (S := S.filter (e.1 < ·)) (fun e' he' => hordered e' (List.mem_cons_of_mem _ he')) hrest
      fun x => by
        rw [Finset.mem_filter, hS]
        constructor
        · rintro ⟨⟨e', he', hl, hu⟩, hx⟩
          rcases List.mem_cons.mp he' with rfl | he'
          · omega
          · exact ⟨e', he', hl, hu⟩
        · rintro ⟨e', he', hl, hu⟩
          have := hfirst e' he'
          exact ⟨⟨e', List.mem_cons_of_mem _ he', hl, hu⟩, by omega⟩
    rw [← Finset.card_filter_add_card_filter_not (e.1 < ·), hrun, habove, Nat.card_Icc, List.map_cons, List.sum_cons,
      Nat.add_comm]

/-- The loop of `NewTree` counts the heights of the intervals. -/
theorem len_insertAll {l : List (ℕ × ℕ)} (hordered : ∀ e ∈ l, e.2 ≤ e.1) (t : Tree) :
    ((l.map Interval.ofEntry).foldl (fun t i =>
      (⟨t.knownHeights.insert i.upperBound i.lowerBound,
        t.numKnownHeights + (BitVec.ofNat 64 i.upperBound - BitVec.ofNat 64 i.lowerBound + 1)⟩ : Tree))
      t).numKnownHeights = t.numKnownHeights + BitVec.ofNat 64 (l.map fun e => e.1 + 1 - e.2).sum := by
  induction l generalizing t with
  | nil => simp
  | cons e l ih =>
    have hle := hordered e List.mem_cons_self
    have hsize : BitVec.ofNat 64 e.1 - BitVec.ofNat 64 e.2 + 1 = BitVec.ofNat 64 (e.1 + 1 - e.2) := by
      apply BitVec.eq_of_toNat_eq
      have hone : (1 : BitVec 64).toNat = 1 := rfl
      rw [BitVec.toNat_add, BitVec.toNat_sub, BitVec.toNat_ofNat, BitVec.toNat_ofNat, BitVec.toNat_ofNat]
      omega
    rw [List.map_cons, List.foldl_cons, ih fun e' he' => hordered e' (List.mem_cons_of_mem _ he'), List.map_cons,
      List.sum_cons, BitVec.ofNat_add, ← hsize]
    exact BitVec.add_assoc _ _ _

theorem numKnownHeights_add (t : Tree) (height : ℕ) : (t.add height).1.numKnownHeights =
    if t.contains height then t.numKnownHeights else t.numKnownHeights + 1 := by
  unfold Tree.add Tree.contains
  dsimp only
  split
  · rfl
  · split <;> rfl

theorem numKnownHeights_remove (t : Tree) (height : ℕ) : (t.remove height).1.numKnownHeights =
    if t.contains height then t.numKnownHeights - 1 else t.numKnownHeights := by
  unfold Tree.remove Tree.contains
  rcases t.ascend height with _ | i
  · rfl
  · rw [Option.any_some, Option.filter_some]
    by_cases hi : i.contains height = true
    · rw [if_pos hi, if_pos hi]
      dsimp only
      split
      · rfl
      · split
        · rfl
        · split <;> rfl
    · rw [if_neg hi, if_neg hi]

/-! ## Runs of changes -/

/-- What every change keeps. -/
structure Tracks (s : Tree × DB) (S : Finset ℕ) : Prop where
  separate : Separate s.1.knownHeights
  covers : ∀ x, Covers s.1.knownHeights x ↔ x ∈ S
  len : s.1.numKnownHeights = BitVec.ofNat 64 S.card
  matched : Matches s.1 s.2

section Steps

variable {s : Tree × DB} {S : Finset ℕ} (h : Tracks s S)

include h

theorem Tracks.contains_iff (height : ℕ) : s.1.contains height = true ↔ height ∈ S :=
  (Bootstrap.contains_iff h.separate).trans (h.covers height)

/-- What a change writes is what it does to the tree. -/
theorem Tracks.matched_write {t : Tree} {ops : List DBOp} (hops : ops.foldl applyInterval s.1.knownHeights = t.knownHeights) :
    Matches t (s.2.write ops) := by
  intro u
  rw [← hops]
  exact lookup_foldl_applyInterval ops h.matched u

theorem Tracks.add (height : UInt64) : Tracks (Change.apply s (.add height)) (Change.applySet S (.add height)) := by
  have hmatched := h.matched_write (s.1.add_writes height.toNat).1
  have hlen := numKnownHeights_add s.1 height.toNat
  by_cases hmem : height.toNat ∈ S
  · -- the height is already in the tree
    have hcontains := (h.contains_iff height.toNat).mpr hmem
    have hsame : (s.1.add height.toNat).1 = s.1 := by
      exact congrArg Prod.fst (if_pos hcontains)
    have hset : Change.applySet S (.add height) = S := Finset.insert_eq_of_mem hmem
    rw [hset]
    exact ⟨hsame.symm ▸ h.separate, hsame.symm ▸ h.covers, hsame.symm ▸ h.len, hmatched⟩
  · have hnot : ¬ Covers s.1.knownHeights height.toNat := fun hcovers => hmem ((h.covers _).mp hcovers)
    have hadds := adds_add h.separate hnot (Nat.le_pred_of_lt height.toNat_lt)
    rw [if_neg fun hcontains => hmem ((h.contains_iff _).mp hcontains), h.len] at hlen
    refine ⟨hadds.separate, fun x => ?_, ?_, hmatched⟩
    · rw [Change.applySet, Finset.mem_insert, ← h.covers, or_comm]
      exact hadds.covers x
    · rw [Change.applySet, Finset.card_insert_of_notMem hmem, BitVec.ofNat_add]
      exact hlen

theorem Tracks.remove (height : UInt64) :
    Tracks (Change.apply s (.remove height)) (Change.applySet S (.remove height)) := by
  have hmatched := h.matched_write (s.1.remove_writes height.toNat).1
  have hlen := numKnownHeights_remove s.1 height.toNat
  have hremoves := removes_remove h.separate height.toNat
  refine ⟨hremoves.separate, fun x => ?_, ?_, hmatched⟩
  · rw [Change.applySet, Finset.mem_erase, ← h.covers, and_comm]
    exact hremoves.covers x
  · refine hlen.trans ?_
    rw [Change.applySet]
    by_cases hmem : height.toNat ∈ S
    · have hcard := Finset.card_erase_add_one hmem
      rw [if_pos ((h.contains_iff _).mpr hmem), h.len, ← hcard, BitVec.ofNat_add]
      exact BitVec.add_sub_cancel _ _
    · rw [if_neg fun hcontains => hmem ((h.contains_iff _).mp hcontains), h.len, Finset.erase_eq_of_notMem hmem]

theorem Tracks.represents : Represents s.1 s.2 S := by
  have hlisting := listing_sortedEntries (fun _ => True) s.1.knownHeights
  have hmem : ∀ {e}, e ∈ sortedEntries (fun _ => True) s.1.knownHeights → s.1.knownHeights.lookup e.1 = some e.2 :=
    fun he => (hlisting.mem_entry he).2
  have hruns : ∀ x, x ∈ S ↔ ∃ e ∈ sortedEntries (fun _ => True) s.1.knownHeights, e.2 ≤ x ∧ x ≤ e.1 := by
    intro x
    rw [← h.covers]
    constructor
    · rintro ⟨u, l, hu, hl, hle⟩
      exact ⟨(u, l), (hlisting.mem u l).mpr ⟨trivial, hu⟩, hl, hle⟩
    · rintro ⟨e, he, hl, hle⟩
      exact ⟨e.1, e.2, hmem he, hl, hle⟩
  have hapart := hlisting.sorted.imp_of_mem fun {a b} ha hb hlt => h.separate.apart (hmem ha) (hmem hb) hlt
  have hordered : ∀ e ∈ sortedEntries (fun _ => True) s.1.knownHeights, e.2 ≤ e.1 :=
    fun e he => h.separate.ordered (hmem he)
  constructor
  case contains => exact h.contains_iff
  case runs =>
    intro x
    rw [hruns, Tree.flatten]
    simp only [List.mem_map, exists_exists_and_eq_and]
    rfl
  case ordered =>
    intro i hi
    rcases List.mem_map.mp hi with ⟨e, he, rfl⟩
    exact hordered e he
  case apart => exact List.pairwise_map.mpr hapart
  case len => exact h.len
  case newTree_flatten =>
    have hsame := fun u => (matches_newTree s.2 u).trans (h.matched u).symm
    rw [Tree.flatten, sortedEntries_congr hsame, ← Tree.flatten]
  case newTree_len =>
    have hfold := len_insertAll hordered ⟨∅, 0⟩
    rw [← card_eq_sum hordered (hapart.imp fun {a b} hab => by omega) hruns, sortedEntries_congr h.matched] at hfold
    refine hfold.trans ?_
    rw [h.len]
    exact BitVec.zero_add _
  case add_inPlace =>
    intro height hnot
    rcases hu : s.1.knownHeights.lookup height with _ | l
    · rfl
    · have hcovers : Covers s.1.knownHeights height := ⟨height, l, hu, h.separate.ordered hu, le_refl _⟩
      rw [(Bootstrap.contains_iff h.separate).mpr hcovers] at hnot
      cases hnot
  case remove_inPlace =>
    intro height l hu hl
    rcases hu' : s.1.knownHeights.lookup height with _ | l'
    · rfl
    · have := h.separate.apart hu' hu (Nat.lt_succ_self height)
      omega

end Steps

/-- After any changes from the empty tree, the tree and the database stand for the set that the changes build. -/
theorem interval_tree_is_set (changes : List Change) :
    Represents (changes.foldl Change.apply (⟨∅, 0⟩, ⟨∅, ∅⟩)).1 (changes.foldl Change.apply (⟨∅, 0⟩, ⟨∅, ∅⟩)).2
      (changes.foldl Change.applySet ∅) := by
  have hrun : ∀ (changes : List Change) (s : Tree × DB) (S : Finset ℕ), Tracks s S →
      Tracks (changes.foldl Change.apply s) (changes.foldl Change.applySet S) := by
    intro changes
    induction changes with
    | nil => exact fun s S h => h
    | cons c changes ih =>
      intro s S h
      refine ih _ _ ?_
      cases c with
      | add height => exact h.add height
      | remove height => exact h.remove height
  have hnone : ∀ {u l}, (∅ : GoMap ℕ ℕ).lookup u ≠ some l := by
    intro u l hu
    cases hu
  have hempty : Separate (∅ : GoMap ℕ ℕ) :=
    ⟨fun hu => absurd hu hnone, fun hu => absurd hu hnone, fun hu => absurd hu hnone⟩
  refine (hrun changes _ _ ⟨hempty, fun x => ?_, rfl, fun _ => rfl⟩).represents
  constructor
  · rintro ⟨u, l, hu, -⟩
    exact absurd hu hnone
  · intro hx
    cases hx

end Titan.Bootstrap
