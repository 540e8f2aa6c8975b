import Mathlib

/-!
# Titan.Lib.LinkedList — doubly linked lists in maps

A doubly linked list of keys is kept as a map from each key to its `Link`, the keys next
to it. `links none l` is the map that a list `l` without repetitions is kept as; the lemmas
say which links change when a key is put in front or taken out.
-/

namespace Titan.Lib

variable {K : Type}

/-- The keys next to a key of a list. -/
structure Link (K : Type) where
  next : Option K
  previous : Option K
deriving DecidableEq, Repr

variable [DecidableEq K]

/-- The links of a list that comes after a key. -/
def links : Option K → List K → K → Option (Link K)
  | _, [], _ => none
  | previous, x :: l, k => if k = x then some ⟨l.head?, previous⟩ else links (some x) l k

variable {previous previous' : Option K} {l a b : List K} {k p x : K}

theorem links_self : links previous (x :: l) x = some ⟨l.head?, previous⟩ := if_pos rfl

theorem links_of_ne (h : k ≠ x) : links previous (x :: l) k = links (some x) l k := if_neg h

theorem links_eq_none : links previous l k = none ↔ k ∉ l := by
  induction l generalizing previous with
  | nil => simp [links]
  | cons x l ih =>
    by_cases hk : k = x
    · subst hk
      simp [links_self]
    · rw [links_of_ne hk, ih, List.mem_cons, not_or]
      exact ⟨fun h => ⟨hk, h⟩, And.right⟩

/-- Only the first key knows what comes before the list. -/
theorem links_change_previous : links previous l k =
    if l.head? = some k then (links previous' l k).map fun link => { link with previous := previous }
    else links previous' l k := by
  split
  next hhead =>
    cases l with
    | nil => cases hhead
    | cons x l =>
      cases hhead
      rw [links_self, links_self]
      rfl
  next hhead =>
    cases l with
    | nil => rfl
    | cons x l =>
      have hk : k ≠ x := fun heq => hhead (by rw [heq]; rfl)
      rw [links_of_ne hk, links_of_ne hk]

/-! ## Parts of a list -/

/-- A key that is not in the first part has its links from the second. -/
theorem links_append_of_notMem (h : k ∉ a) : links previous (a ++ b) k = links (a.getLast?.or previous) b k := by
  induction a generalizing previous with
  | nil => rfl
  | cons x a ih =>
    rw [List.mem_cons, not_or] at h
    rw [List.cons_append, links_of_ne h.1, ih h.2]
    cases a with
    | nil => rfl
    | cons y a => rw [List.getLast?_cons_cons, List.getLast?_cons, Option.some_or, Option.some_or]

theorem links_middle (h : x ∉ a) :
    links previous (a ++ x :: b) x = some ⟨b.head?, a.getLast?.or previous⟩ := by
  rw [links_append_of_notMem h, links_self]

/-- What follows the next key is not known. -/
theorem links_append_congr {b' : List K} (h : k ∈ a) :
    links previous (a ++ p :: b) k = links previous (a ++ p :: b') k := by
  induction a generalizing previous with
  | nil => cases h
  | cons x a ih =>
    rw [List.cons_append, List.cons_append]
    by_cases hk : k = x
    · subst hk
      rw [links_self, links_self]
      cases a <;> rfl
    · rw [links_of_ne hk, links_of_ne hk]
      exact ih ((List.mem_cons.mp h).resolve_left hk)

/-! ## Changes -/

/-- The link of a key, if there is a key, is changed. -/
def relink (f : K → Option (Link K)) (key : Option K) (change : Link K → Link K) : K → Option (Link K) :=
  key.elim f fun k => Function.update f k ((f k).map change)

theorem relink_apply (f : K → Option (Link K)) (key : Option K) (change : Link K → Link K) (x : K) :
    relink f key change x = if key = some x then (f x).map change else f x := by
  cases key with
  | none => rfl
  | some k =>
    simp only [relink, Option.elim_some, Function.update_apply, Option.some_inj, eq_comm (a := k)]
    split
    next h => rw [h]
    next => rfl

/-- A key is put in front: the key that was first gets a previous one. -/
theorem links_cons : links none (k :: l) = Function.update
    (relink (links none l) l.head? fun link => { link with previous := some k }) k (some ⟨l.head?, none⟩) := by
  funext x
  by_cases h : x = k
  · rw [h, Function.update_self, links_self]
  · rw [Function.update_of_ne h, links_of_ne h, relink_apply]
    exact links_change_previous

/-- The first key is taken out: the next one has no previous key any more. -/
theorem links_tail (hk : k ∉ l) : links none l = relink (Function.update (links none (k :: l)) k none) l.head?
    fun link => { link with previous := none } := by
  funext x
  rw [relink_apply]
  by_cases h : x = k
  · rw [h, Function.update_self, Option.map_none, ite_self, links_eq_none.mpr hk]
  · rw [Function.update_of_ne h, links_of_ne h]
    exact links_change_previous

/-- A key after another one is taken out: the keys next to it are linked. -/
theorem links_remove (hnodup : (a ++ p :: k :: b).Nodup) : links none (a ++ p :: b) =
    relink (relink (Function.update (links none (a ++ p :: k :: b)) k none) (some p)
      fun link => { link with next := b.head? }) b.head? fun link => { link with previous := some p } := by
  rcases List.nodup_append.mp hnodup with ⟨-, hright, hdisjoint⟩
  have hpa : p ∉ a := fun h => hdisjoint p h p List.mem_cons_self rfl
  have hka : k ∉ a := fun h => hdisjoint k h k (List.mem_cons_of_mem _ List.mem_cons_self) rfl
  rcases List.nodup_cons.mp hright with ⟨hp, hright⟩
  rcases List.nodup_cons.mp hright with ⟨hkb, -⟩
  have hpk : p ≠ k := fun heq => hp (heq ▸ List.mem_cons_self)
  have hpb : b.head? ≠ some p := fun h => hp (List.mem_cons_of_mem _ (List.mem_of_head? h))
  funext x
  rw [relink_apply, relink_apply]
  by_cases hk : x = k
  · rw [hk, Function.update_self, Option.map_none, ite_self, Option.map_none, ite_self, links_eq_none]
    simp [hka, hkb, Ne.symm hpk]
  · rw [Function.update_of_ne hk]
    by_cases hxp : x = p
    · rw [hxp, if_neg hpb, if_pos rfl, links_middle hpa, links_middle hpa]
      rfl
    · rw [if_neg fun heq => hxp (Option.some.inj heq).symm]
      by_cases hxa : x ∈ a
      · -- the links before `p` stay
        have hhead : b.head? ≠ some x := fun h =>
          hdisjoint x hxa x (List.mem_cons_of_mem _ (List.mem_cons_of_mem _ (List.mem_of_head? h))) rfl
        rw [if_neg hhead]
        exact links_append_congr hxa
      · rw [links_append_of_notMem hxa, links_append_of_notMem hxa, links_of_ne hxp, links_of_ne hxp, links_of_ne hk]
        exact links_change_previous

end Titan.Lib
