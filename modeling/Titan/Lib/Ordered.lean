import Mathlib

/-!
# Titan.Lib.Ordered — ordered trees and ordered merges

An ordered tree keeps one element of each class of elements that `less` does not
tell apart, and is walked in increasing order. `TreeOps` names the operations,
`TreeOps.Lawful` the laws a client may use; `TreeOps.ofLess` is a lawful tree
for every transitive order, so the laws can be met.

Two increasing sequences are merged head by head; the merge of sequences with
no tie between them is increasing again.
-/

namespace Titan.Lib

variable {α : Type}

/-! ## Ordered trees -/

/-- The operations of an ordered tree. -/
structure TreeOps (α : Type) where
  Tree : Type
  empty : Tree
  /-- Add an element, in the place of the one it is not told apart from, if any. -/
  replaceOrInsert : Tree → α → Tree
  /-- Remove the element that is not told apart from the argument, if any. -/
  delete : Tree → α → Tree
  /-- The elements in increasing order. -/
  ascend : Tree → List α

/-- The laws of an ordered tree over `less`. -/
structure TreeOps.Lawful (T : TreeOps α) (less : α → α → Bool) : Prop where
  ascend_empty : T.ascend T.empty = []
  mem_replaceOrInsert : ∀ t a b,
    b ∈ T.ascend (T.replaceOrInsert t a) ↔ b = a ∨ b ∈ T.ascend t ∧ (less b a ∨ less a b)
  mem_delete : ∀ t a b,
    b ∈ T.ascend (T.delete t a) ↔ b ∈ T.ascend t ∧ (less b a ∨ less a b)
  ascend_sorted : ∀ t, (T.ascend t).Pairwise (fun a b => less a b)

section OfLess

variable (less : α → α → Bool) (htrans : ∀ a b c, less a b → less b c → less a c)

/-- Increasing lists as ordered trees. -/
def TreeOps.ofLess : TreeOps α where
  Tree := { l : List α // l.Pairwise (fun a b => less a b) }
  empty := ⟨[], List.Pairwise.nil⟩
  replaceOrInsert t a :=
    ⟨t.1.filter (fun b => less b a) ++ a :: t.1.filter (fun b => less a b), by
      rw [List.pairwise_append, List.pairwise_cons]
      refine ⟨t.2.filter _, ⟨?_, t.2.filter _⟩, ?_⟩
      · intro b hb
        exact (List.mem_filter.mp hb).2
      · intro b hb c hc
        have hba : less b a := (List.mem_filter.mp hb).2
        rcases List.mem_cons.mp hc with rfl | hc
        · exact hba
        · exact htrans b a c hba (List.mem_filter.mp hc).2⟩
  delete t a := ⟨t.1.filter (fun b => less b a || less a b), t.2.filter _⟩
  ascend t := t.1

theorem TreeOps.ofLess_lawful : (TreeOps.ofLess less htrans).Lawful less := by
  constructor
  · rfl
  · intro t a b
    simp only [TreeOps.ofLess, List.mem_append, List.mem_cons, List.mem_filter]
    tauto
  · intro t a b
    simp [TreeOps.ofLess, List.mem_filter]
  · exact fun t => t.2

end OfLess

/-! ## Ordered merges -/

/-- Put `x`, and then `rest` of what is left, into a sequence: before the first element
that is not less. -/
def mergeHead (less : α → α → Bool) (x : α) (rest : List α → List α) : List α → List α
  | [] => x :: rest []
  | y :: ys => if less y x then y :: mergeHead less x rest ys else x :: rest (y :: ys)

/-- Merge two sequences head by head, from the left one when neither head is
less. By recursion on the left sequence and, inside, on the right one, so that it
evaluates. -/
def mergeBy (less : α → α → Bool) : List α → List α → List α
  | [], ys => ys
  | x :: xs, ys => mergeHead less x (mergeBy less xs) ys

theorem mergeBy_cons_cons (less : α → α → Bool) (x y : α) (xs ys : List α) :
    mergeBy less (x :: xs) (y :: ys) =
      if less y x then y :: mergeBy less (x :: xs) ys else x :: mergeBy less xs (y :: ys) := rfl

theorem mergeBy_nil (less : α → α → Bool) (xs : List α) : mergeBy less xs [] = xs := by
  induction xs with
  | nil => rfl
  | cons x xs ih => exact congrArg (x :: ·) ih

theorem mem_mergeBy {less : α → α → Bool} {xs ys : List α} {a : α} :
    a ∈ mergeBy less xs ys ↔ a ∈ xs ∨ a ∈ ys := by
  induction xs generalizing ys with
  | nil => simp [mergeBy]
  | cons x xs ihx =>
    induction ys with
    | nil => simp [mergeBy_nil]
    | cons y ys ihy =>
      rw [mergeBy_cons_cons]
      split
      next =>
        rw [List.mem_cons, ihy, List.mem_cons, List.mem_cons]
        tauto
      next =>
        rw [List.mem_cons, ihx, List.mem_cons, List.mem_cons]
        tauto

/-- Increasing sequences without a tie between them merge into an increasing one. -/
theorem pairwise_mergeBy {less : α → α → Bool}
    (htrans : ∀ a b c, less a b → less b c → less a c) {xs ys : List α}
    (hx : xs.Pairwise (fun a b => less a b)) (hy : ys.Pairwise (fun a b => less a b))
    (hxy : ∀ x ∈ xs, ∀ y ∈ ys, less x y ∨ less y x) :
    (mergeBy less xs ys).Pairwise (fun a b => less a b) := by
  induction xs generalizing ys with
  | nil => exact hy
  | cons x xs ihx =>
    induction ys with
    | nil => rwa [mergeBy_nil]
    | cons y ys ihy =>
      have hxs := List.pairwise_cons.mp hx
      have hys := List.pairwise_cons.mp hy
      rw [mergeBy_cons_cons]
      split
      next hlt =>
        constructor
        · intro z hz
          rcases mem_mergeBy.mp hz with hz | hz
          · rcases List.mem_cons.mp hz with rfl | hz
            · exact hlt
            · exact htrans y x z hlt (hxs.1 z hz)
          · exact hys.1 z hz
        · apply ihy hys.2
          exact fun a ha b hb => hxy a ha b (List.mem_cons_of_mem y hb)
      next hle =>
        -- the left head goes first: it is less than the right head, so than all of the right
        have hlt : less x y := by
          rcases hxy x List.mem_cons_self y List.mem_cons_self with h | h
          · exact h
          · exact absurd h hle
        constructor
        · intro z hz
          rcases mem_mergeBy.mp hz with hz | hz
          · exact hxs.1 z hz
          · rcases List.mem_cons.mp hz with rfl | hz
            · exact hlt
            · exact htrans x y z hlt (hys.1 z hz)
        · apply ihx hxs.2 hy
          exact fun a ha => hxy a (List.mem_cons_of_mem x ha)

/-! ## Prefixes -/

/-- In a sequence where a test that holds somewhere holds everywhere before, the
prefix that passes the test is everything that passes it. -/
theorem mem_takeWhile_of_pairwise {p : α → Bool} {l : List α}
    (h : l.Pairwise (fun a b => p b → p a)) {x : α} : x ∈ l.takeWhile p ↔ x ∈ l ∧ p x := by
  induction l with
  | nil => simp
  | cons a l ih =>
    rw [List.pairwise_cons] at h
    rw [List.takeWhile_cons]
    split
    next ha =>
      rw [List.mem_cons, List.mem_cons, ih h.2]
      constructor
      · rintro (rfl | ⟨hx, hp⟩)
        · exact ⟨.inl rfl, ha⟩
        · exact ⟨.inr hx, hp⟩
      · rintro ⟨rfl | hx, hp⟩
        · exact .inl rfl
        · exact .inr ⟨hx, hp⟩
    next ha =>
      constructor
      · intro hx
        cases hx
      · rintro ⟨hx, hp⟩
        rcases List.mem_cons.mp hx with rfl | hx
        · exact absurd hp ha
        · exact absurd (h.1 x hx hp) ha

end Titan.Lib
