import Mathlib

/-!
# Titan.Lib.Store — ordered key-value stores

A store maps keys to values, takes writes in batches and is walked in the order of its
keys. `Store` names the operations and `Store.Law` what a client may rely on.

* `Listing m r l` says that `l` are the entries of the map `m` in the range `r`, in
  strictly increasing order. A map has at most one listing.
* An iterator belongs to the moment it was made. `Store.Law.Yields it l` says that `it`
  still returns `l`, whatever is written meanwhile.
* A loop over a hash map visits its entries in some order, a `Walk`.
-/

namespace Titan.Lib

/-- The order in which a loop visits the entries of a map. -/
structure Walk (α : Type) where
  order : List α → List α
  perm : ∀ l, (order l).Perm l

/-- The order in which the entries are stored. -/
def Walk.stored (α : Type) : Walk α := ⟨id, fun l => List.Perm.refl l⟩

variable {K V R : Type}

/-! ## Writes -/

section Overwrite

variable [DecidableEq K]

/-- The map after writes, in which `none` deletes. -/
def overwrite (m : K → Option V) (ops : List (K × Option V)) : K → Option V :=
  ops.foldl (fun m op => Function.update m op.1 op.2) m

theorem overwrite_cons (m : K → Option V) (op : K × Option V) (ops : List (K × Option V)) :
    overwrite m (op :: ops) = overwrite (Function.update m op.1 op.2) ops := rfl

theorem overwrite_append (m : K → Option V) (ops ops' : List (K × Option V)) :
    overwrite m (ops ++ ops') = overwrite (overwrite m ops) ops' := List.foldl_append

variable {m : K → Option V} {ops : List (K × Option V)} {k : K}

theorem overwrite_of_notMem (h : k ∉ ops.map Prod.fst) : overwrite m ops k = m k := by
  induction ops generalizing m with
  | nil => rfl
  | cons op ops ih =>
    rw [List.map_cons, List.mem_cons, not_or] at h
    rw [overwrite_cons, ih h.2, Function.update_of_ne h.1]

/-- Writes to different keys all count. -/
theorem overwrite_of_mem (hnodup : (ops.map Prod.fst).Nodup) {v : Option V} (h : (k, v) ∈ ops) :
    overwrite m ops k = v := by
  induction ops generalizing m with
  | nil => cases h
  | cons op ops ih =>
    rw [List.map_cons, List.nodup_cons] at hnodup
    rw [overwrite_cons]
    rcases List.mem_cons.mp h with rfl | h
    · rw [overwrite_of_notMem hnodup.1, Function.update_self]
    · exact ih hnodup.2 h

/-- The last write to a key counts. -/
theorem overwrite_last (h : k ∈ ops.map Prod.fst) :
    ∃ before v after, ops = before ++ (k, v) :: after ∧ k ∉ after.map Prod.fst ∧ overwrite m ops k = v := by
  induction ops generalizing m with
  | nil => cases h
  | cons op ops ih =>
    rw [overwrite_cons]
    by_cases hlater : k ∈ ops.map Prod.fst
    · rcases ih (m := Function.update m op.1 op.2) hlater with ⟨before, v, after, rfl, hlast, hv⟩
      exact ⟨op :: before, v, after, rfl, hlast, hv⟩
    · rcases List.mem_cons.mp h with rfl | hmem
      · exact ⟨[], op.2, ops, rfl, hlater, by rw [overwrite_of_notMem hlater, Function.update_self]⟩
      · exact absurd hmem hlater

/-- What is at a key depends on what was there, and on no other key. -/
theorem overwrite_congr {m' : K → Option V} (h : m k = m' k) (ops : List (K × Option V)) :
    overwrite m ops k = overwrite m' ops k := by
  induction ops generalizing m m' with
  | nil => exact h
  | cons op ops ih =>
    rw [overwrite_cons, overwrite_cons]
    apply ih
    by_cases hk : k = op.1
    · subst hk
      rw [Function.update_self, Function.update_self]
    · rw [Function.update_of_ne hk, Function.update_of_ne hk, h]

end Overwrite

/-! ## Listings -/

/-- The entries of a map in a range, in increasing order. -/
structure Listing [LT K] (m : K → Option V) (r : K → Prop) (l : List (K × V)) : Prop where
  sorted : l.Pairwise fun a b => a.1 < b.1
  mem : ∀ k v, (k, v) ∈ l ↔ r k ∧ m k = some v

section Listings

variable [LinearOrder K]

variable {m m' : K → Option V} {r : K → Prop} {l l' : List (K × V)} {k : K} {v : V}

theorem Listing.unique (h : Listing m r l) (h' : Listing m r l') : l = l' := by
  have hnodup : ∀ {l : List (K × V)}, (l.Pairwise fun a b => a.1 < b.1) → l.Nodup := by
    intro l hl
    exact hl.imp fun {a b} hab heq => absurd hab (by rw [heq]; exact lt_irrefl _)
  have hperm : l.Perm l' := by
    rw [List.perm_ext_iff_of_nodup (hnodup h.sorted) (hnodup h'.sorted)]
    intro e
    rw [h.mem, h'.mem]
  refine List.Perm.eq_of_pairwise (fun a b _ _ hab hba => ?_) h.sorted h'.sorted hperm
  exact absurd (hab.trans hba) (lt_irrefl _)

theorem Listing.mem_entry (h : Listing m r l) {e : K × V} (he : e ∈ l) : r e.1 ∧ m e.1 = some e.2 :=
  (h.mem e.1 e.2).mp he

section

variable (h : Listing m r ((k, v) :: l))
include h

/-- The first entry of a listing is the least key of the map in the range. -/
theorem Listing.least {k' : K} (hr : r k') {v' : V} (hk' : m k' = some v') :
    k ≤ k' := by
  rcases List.mem_cons.mp ((h.mem k' v').mpr ⟨hr, hk'⟩) with heq | hmem
  · cases heq
    exact le_refl _
  · exact le_of_lt ((List.pairwise_cons.mp h.sorted).1 _ hmem)

/-- The rest of a listing lists the keys above the first one. -/
theorem Listing.tail : Listing m (fun x => r x ∧ k < x) l := by
  rcases List.pairwise_cons.mp h.sorted with ⟨hhead, hsorted⟩
  refine ⟨hsorted, fun x y => ?_⟩
  constructor
  · intro hx
    rcases (h.mem x y).mp (List.mem_cons_of_mem _ hx) with ⟨hr, hy⟩
    exact ⟨⟨hr, hhead _ hx⟩, hy⟩
  · rintro ⟨⟨hr, hlt⟩, hy⟩
    rcases List.mem_cons.mp ((h.mem x y).mpr ⟨hr, hy⟩) with heq | hmem
    · cases heq
      exact absurd hlt (lt_irrefl _)
    · exact hmem

/-- Without its first key a listing lists what is left of the map. -/
theorem Listing.erase_head (hm' : ∀ x, m' x = if x = k then none else m x) :
    Listing m' r l := by
  refine ⟨h.tail.sorted, fun x y => ?_⟩
  rw [h.tail.mem, hm']
  constructor
  · rintro ⟨⟨hx, hlt⟩, hy⟩
    exact ⟨hx, by rw [if_neg (ne_of_gt hlt), hy]⟩
  · rintro ⟨hx, hy⟩
    split at hy
    next => cases hy
    next hne => exact ⟨⟨hx, lt_of_le_of_ne (h.least hx hy) (Ne.symm hne)⟩, hy⟩

end

/-- A listing also lists a smaller range that holds the same keys. -/
theorem Listing.narrow {r' : K → Prop} (h : Listing m r l) (hr : ∀ x, (m x).isSome → (r' x ↔ r x)) :
    Listing m r' l := by
  refine ⟨h.sorted, fun x y => ?_⟩
  rw [h.mem]
  constructor
  · rintro ⟨hx, hy⟩
    exact ⟨(hr x (by rw [hy]; rfl)).mpr hx, hy⟩
  · rintro ⟨hx, hy⟩
    exact ⟨(hr x (by rw [hy]; rfl)).mp hx, hy⟩

end Listings

/-! ## Stores -/

/-- The operations of a store whose iterators are made for ranges `R`. -/
structure Store (K V R : Type) where
  State : Type
  Iterator : Type
  has : State → K → Bool
  get : State → K → Option V
  /-- Write the operations of a batch, in which `none` deletes, at once. -/
  write : State → List (K × Option V) → State
  newIterator : State → R → Iterator
  /-- Move the iterator on and say whether it stands at an entry. -/
  next : State → Iterator → Bool × Iterator
  key : Iterator → K
  value : Iterator → V

/-- What a client of a store may rely on. -/
structure Store.Law [LT K] [DecidableEq K] (S : Store K V R) (inRange : R → K → Prop) where
  content : S.State → K → Option V
  Yields : S.Iterator → List (K × V) → Prop
  has_eq : ∀ s k, S.has s k = (content s k).isSome
  get_eq : ∀ s k, S.get s k = content s k
  content_write : ∀ s ops, content (S.write s ops) = overwrite (content s) ops
  yields_new : ∀ s r, ∃ l, Listing (content s) (inRange r) l ∧ Yields (S.newIterator s r) l
  yields_nil : ∀ s it, Yields it [] → (S.next s it).1 = false ∧ Yields (S.next s it).2 []
  yields_cons : ∀ s it e l, Yields it (e :: l) → (S.next s it).1 = true ∧
    S.key (S.next s it).2 = e.1 ∧ S.value (S.next s it).2 = e.2 ∧ Yields (S.next s it).2 l

end Titan.Lib
