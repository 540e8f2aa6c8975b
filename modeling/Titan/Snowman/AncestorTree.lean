import Mathlib

/-!
# Titan.Snowman.AncestorTree — the blocks that wait for an ancestor

The engine remembers the parents of blocks that it could not verify. `GetAncestor` follows
the parents as far as they are known; `RemoveDescendants` forgets a block and everything that
is known above it.

A loop that does not end is `none`. `WellFormed` says that the two maps agree and that
parents have smaller ranks: then both loops return.
-/

namespace Titan.Snowman

open Relation

variable {ID : Type}

/-- An absent set of children is the empty one. -/
structure AncestorTree (ID : Type) where
  childToParent : ID → Option ID
  parentToChildren : ID → Finset ID

namespace AncestorTree

def NewTree : AncestorTree ID := ⟨fun _ => none, fun _ => ∅⟩

def has (t : AncestorTree ID) (blkID : ID) : Bool := (t.childToParent blkID).isSome

def getAncestor (t : AncestorTree ID) (blkID : ID) : Option ID :=
  match t.childToParent blkID with
  | none => some blkID
  | some parentID => by apply getAncestor; exacts [t, parentID]
partial_fixpoint

/-- The maps agree, and parents have smaller ranks. -/
structure WellFormed (rank : ID → ℕ) (t : AncestorTree ID) : Prop where
  finite : {x | t.has x}.Finite
  mem_children : ∀ x p, x ∈ t.parentToChildren p ↔ t.childToParent x = some p
  rank_lt : ∀ x p, t.childToParent x = some p → rank p < rank x

variable {rank : ID → ℕ} {t : AncestorTree ID}

theorem has_iff {x : ID} : t.has x ↔ ∃ p, t.childToParent x = some p :=
  Option.isSome_iff_exists

theorem wellFormed_new : WellFormed rank (NewTree : AncestorTree ID) := by
  constructor <;> simp [NewTree, has]

/-! ## Following the parents -/

/-- `GetAncestor` returns the end of the recorded chain. -/
theorem getAncestor_spec (h : WellFormed rank t) (x : ID) :
    ∃ r, t.getAncestor x = some r ∧ t.has r = false ∧
      ReflTransGen (fun b a => t.childToParent b = some a) x r := by
  induction hn : rank x using Nat.strong_induction_on generalizing x with
  | _ n ih =>
    rw [getAncestor]
    rcases hx : t.childToParent x with _ | p
    · exact ⟨x, rfl, by simp [has, hx], .refl⟩
    · obtain ⟨r, hr, hend, hchain⟩ := ih (rank p) (hn ▸ h.rank_lt x p hx) p rfl
      exact ⟨r, hr, hend, .head hx hchain⟩

/-! ## Changing the tree -/

variable [DecidableEq ID]

def add (t : AncestorTree ID) (blkID parentID : ID) : AncestorTree ID :=
  ⟨Function.update t.childToParent blkID (some parentID),
    Function.update t.parentToChildren parentID (insert blkID (t.parentToChildren parentID))⟩

def remove (t : AncestorTree ID) (blkID : ID) : AncestorTree ID :=
  match t.childToParent blkID with
  | none => t
  | some parent =>
    ⟨Function.update t.childToParent blkID none,
      Function.update t.parentToChildren parent ((t.parentToChildren parent).erase blkID)⟩

/-- The loop of `RemoveDescendants`, with the top of the stack first; `order` is the order
in which a set is visited. -/
def removeLoop (order : Finset ID → List ID) (t : AncestorTree ID) (childrenList : List ID) :
    Option (AncestorTree ID) :=
  match childrenList with
  | [] => some t
  | childID :: rest =>
    by
      apply removeLoop
      exacts [order, t.remove childID, order ((t.remove childID).parentToChildren childID) ++ rest]
partial_fixpoint

def removeDescendants (t : AncestorTree ID) (order : Finset ID → List ID) (blkID : ID) :
    Option (AncestorTree ID) :=
  t.removeLoop order [blkID]

/-- A block is added under the parent that it had, if it was there. -/
theorem WellFormed.add (h : WellFormed rank t) {x p : ID} (hrank : rank p < rank x)
    (hsame : ∀ q, t.childToParent x = some q → q = p) : WellFormed rank (t.add x p) := by
  constructor
  · refine (h.finite.insert x).subset ?_
    intro y hy
    by_cases hyx : y = x
    · exact Or.inl hyx
    · exact Or.inr (by simpa [AncestorTree.add, has, hyx] using hy)
  · intro y q
    have hold := h.mem_children y q
    have hnew := hsame q
    by_cases hyx : y = x <;> by_cases hqp : q = p <;>
      simp_all [AncestorTree.add, eq_comm]
  · intro y q hq
    simp only [AncestorTree.add, Function.update_apply] at hq
    split at hq
    · obtain rfl : p = q := Option.some.inj hq
      exact ‹y = x› ▸ hrank
    · exact h.rank_lt y q hq

@[simp] theorem remove_childToParent (t : AncestorTree ID) (x : ID) :
    (t.remove x).childToParent = Function.update t.childToParent x none := by
  unfold remove
  split
  · rename_i hnone
    exact (Function.update_eq_self_iff.mpr hnone.symm).symm
  · rfl

theorem remove_some {x y p : ID} :
    (t.remove x).childToParent y = some p ↔ y ≠ x ∧ t.childToParent y = some p := by
  by_cases hy : y = x <;> simp [hy]

theorem WellFormed.remove (h : WellFormed rank t) (x : ID) : WellFormed rank (t.remove x) := by
  constructor
  · refine h.finite.subset ?_
    intro y hy
    obtain ⟨p, hp⟩ := has_iff.mp hy
    exact has_iff.mpr ⟨p, (remove_some.mp hp).2⟩
  · intro y p
    rw [remove_some, ← h.mem_children]
    unfold AncestorTree.remove
    rcases hx : t.childToParent x with _ | q
    · have : x ∉ t.parentToChildren p := by simp [h.mem_children, hx]
      exact ⟨fun hy => ⟨fun heq => this (heq ▸ hy), hy⟩, And.right⟩
    · by_cases hp : p = q
      · simp [hp]
      · have : x ∉ t.parentToChildren p := by simpa [h.mem_children, hx] using Ne.symm hp
        simp only [Function.update_apply, if_neg hp]
        exact ⟨fun hy => ⟨fun heq => this (heq ▸ hy), hy⟩, And.right⟩
  · intro y p hp
    exact h.rank_lt y p (remove_some.mp hp).2

/-! ## Forgetting a subtree -/

/-- What is left after forgetting everything above the `targets`: a block that is left has a
parent that is no target and is itself left if it was recorded. -/
structure Pruned (targets : ID → Prop) (t t' : AncestorTree ID) : Prop where
  sub : ∀ x p, t'.childToParent x = some p → t.childToParent x = some p
  closed : ∀ x p, t'.childToParent x = some p → ¬ targets p ∧ (t.has p → t'.has p)

/-- The loop that started from `t₀`: it has visited the blocks of `visited`, which are gone,
and `stack` holds the recorded children of visited blocks. -/
structure Removing (rank : ID → ℕ) (t₀ : AncestorTree ID) (visited : Set ID) (stack : List ID)
    (t : AncestorTree ID) : Prop where
  tree : WellFormed rank t
  sub : ∀ x p, t.childToParent x = some p → t₀.childToParent x = some p
  left : ∀ x, t₀.has x → t.has x ∨ x ∈ visited
  gone : ∀ x ∈ visited, t.childToParent x = none
  nodup : stack.Nodup
  mem_stack : ∀ x, x ∈ stack ↔ ∃ p ∈ visited, t.childToParent x = some p

section Removing

variable {t₀ : AncestorTree ID} {order : Finset ID → List ID} {visited : Set ID} {d : ID}
  {rest : List ID}

/-- The children of the popped block `d` replace it on the stack. -/
theorem Removing.pop (hord : ∀ s, (order s : Multiset ID) = s.val)
    (htree : WellFormed rank t) (hsub : ∀ x p, t.childToParent x = some p →
      t₀.childToParent x = some p) (hleft : ∀ x, t₀.has x → t.has x ∨ x ∈ visited)
    (hgone : ∀ x ∈ visited, t.childToParent x = none) (hd : d ∉ visited) (hnodup : rest.Nodup)
    (hrest : ∀ x, x ∈ rest ↔ x ≠ d ∧ ∃ p ∈ visited, t.childToParent x = some p) :
    Removing rank t₀ (insert d visited) (order ((t.remove d).parentToChildren d) ++ rest)
      (t.remove d) := by
  have htree' := htree.remove d
  have hmem : ∀ x, x ∈ order ((t.remove d).parentToChildren d) ↔
      x ≠ d ∧ t.childToParent x = some d := by
    intro x
    rw [← Multiset.mem_coe, hord, Finset.mem_val, htree'.mem_children, remove_some]
  refine ⟨htree', ?_, ?_, ?_, ?_, ?_⟩
  · intro x p hp
    exact hsub x p (remove_some.mp hp).2
  · intro x hx
    by_cases hxd : x = d
    · exact Or.inr (Or.inl hxd)
    · refine (hleft x hx).imp ?_ Or.inr
      intro hold
      simpa [has, hxd] using hold
  · rintro x (rfl | hx)
    · simp
    · by_cases hxd : x = d <;> simp [hxd, hgone x hx]
  · refine List.nodup_append.mpr ⟨?_, hnodup, ?_⟩
    · rw [← Multiset.coe_nodup, hord]
      exact Finset.nodup _
    · rintro x hx y hy rfl
      -- its parent would be both `d` and a visited block
      obtain ⟨-, p, hp, hxp⟩ := (hrest x).mp hy
      obtain rfl : p = d := Option.some.inj (hxp.symm.trans ((hmem x).mp hx).2)
      exact hd hp
  · intro x
    rw [List.mem_append, hmem, hrest]
    constructor
    · rintro (⟨hne, hx⟩ | ⟨hne, p, hp, hx⟩)
      · exact ⟨d, Or.inl rfl, remove_some.mpr ⟨hne, hx⟩⟩
      · exact ⟨p, Or.inr hp, remove_some.mpr ⟨hne, hx⟩⟩
    · rintro ⟨p, rfl | hp, hx⟩
      · exact Or.inl (remove_some.mp hx)
      · obtain ⟨hne, hx⟩ := remove_some.mp hx
        exact Or.inr ⟨hne, p, hp, hx⟩

/-- The loop ends: each iteration removes a recorded block. -/
theorem removeLoop_spec (hord : ∀ s, (order s : Multiset ID) = s.val) {stack : List ID}
    (h : Removing rank t₀ visited stack t) :
    ∃ t' visited', t.removeLoop order stack = some t' ∧ visited ⊆ visited' ∧
      Removing rank t₀ visited' [] t' := by
  induction hn : {x | t.has x}.ncard using Nat.strong_induction_on
    generalizing t visited stack with
  | _ n ih =>
    rw [removeLoop.eq_def]
    cases stack with
    | nil => exact ⟨t, visited, rfl, subset_rfl, h⟩
    | cons d rest =>
      obtain ⟨p, hp, hd⟩ := (h.mem_stack d).mp List.mem_cons_self
      obtain ⟨hfresh, hnodup⟩ := List.nodup_cons.mp h.nodup
      have hnew : d ∉ visited := by
        intro hvisited
        simp [h.gone d hvisited] at hd
      have hnext := Removing.pop hord h.tree h.sub h.left h.gone hnew hnodup (by
        intro x
        rw [← h.mem_stack, List.mem_cons]
        constructor
        · intro hx
          exact ⟨fun heq => hfresh (heq ▸ hx), Or.inr hx⟩
        · rintro ⟨hne, hx⟩
          exact hx.resolve_left hne)
      have hless : {x | (t.remove d).has x}.ncard < n := by
        rw [← hn]
        refine Set.ncard_lt_ncard ⟨?_, ?_⟩ h.tree.finite
        · intro x hx
          obtain ⟨q, hq⟩ := has_iff.mp hx
          exact has_iff.mpr ⟨q, (remove_some.mp hq).2⟩
        · intro hall
          simpa [has] using hall (has_iff.mpr ⟨p, hd⟩ : d ∈ {x | t.has x})
      obtain ⟨t', visited', hrun, hgrow, hend⟩ := ih _ hless hnext rfl
      exact ⟨t', visited', hrun, (Set.subset_insert d visited).trans hgrow, hend⟩

end Removing

theorem removeDescendants_spec {order : Finset ID → List ID}
    (hord : ∀ s, (order s : Multiset ID) = s.val) (h : WellFormed rank t) (blkID : ID) :
    ∃ t', t.removeDescendants order blkID = some t' ∧ WellFormed rank t' ∧
      Pruned (· = blkID) t t' := by
  have hfirst : Removing rank t (insert blkID ∅) _ (t.remove blkID) :=
    Removing.pop hord h (fun _ _ hp => hp) (fun _ hx => Or.inl hx) (by simp) (by simp)
      List.nodup_nil (by simp)
  obtain ⟨t', visited, hrun, hgrow, hend⟩ := removeLoop_spec hord hfirst
  refine ⟨t', ?_, hend.tree, hend.sub, ?_⟩
  · rw [removeDescendants, removeLoop.eq_def]
    exact hrun
  · intro x p hp
    -- the stack is empty: no block that is left has a visited parent
    have hnot : p ∉ visited := by
      intro hvisited
      simpa using (hend.mem_stack x).mpr ⟨p, hvisited, hp⟩
    constructor
    · rintro rfl
      exact hnot (hgrow (Set.mem_insert p ∅))
    · intro hold
      exact (hend.left p hold).resolve_right hnot

end AncestorTree

end Titan.Snowman
