import Titan.Lib.Store

/-!
# Titan.Lib.SortedMap — maps walked in the order of their keys

`sortedEntries p m` are the entries of a finite map whose keys satisfy `p`, in increasing
order. `ceil` and `floor` are the entries of the nearest keys above and below a key.
-/

namespace Titan.Lib

variable {K V : Type} [LinearOrder K]

/-- The entries whose keys satisfy `p`, in increasing order. -/
def sortedEntries (p : K → Prop) [DecidablePred p] (m : AList fun _ : K => V) : List (K × V) :=
  ((m.keys.filter fun k => p k).insertionSort (· ≤ ·)).filterMap fun k => (m.lookup k).map fun v => (k, v)

/-- The entry of the least key that is not below `k`. -/
def ceil (m : AList fun _ : K => V) (k : K) : Option (K × V) := (sortedEntries (k ≤ ·) m).head?

/-- The entry of the greatest key that is not above `k`. -/
def floor (m : AList fun _ : K => V) (k : K) : Option (K × V) := (sortedEntries (· ≤ k) m).getLast?

section Lookups

omit [LinearOrder K]
variable [DecidableEq K] (m : AList fun _ : K => V) (k x : K)

theorem lookup_insert_ite (v : V) : (m.insert k v).lookup x = if x = k then some v else m.lookup x := by
  split
  next h => rw [h, AList.lookup_insert]
  next h => rw [AList.lookup_insert_ne h]

theorem lookup_erase_ite : (m.erase k).lookup x = if x = k then none else m.lookup x := by
  split
  next h => rw [h, AList.lookup_erase]
  next h => rw [AList.lookup_erase_ne h]

/-- What an addition under a key leaves under each. -/
theorem getD_lookup_insert_add (m : AList fun _ : K => ℕ) (n : ℕ) :
    ((m.insert k ((m.lookup k).getD 0 + n)).lookup x).getD 0 = (m.lookup x).getD 0 + if k = x then n else 0 := by
  split
  next heq =>
    subst heq
    simp
  next hne => simp [Ne.symm hne]

end Lookups

section Entries

variable {p : K → Prop} [DecidablePred p] {m : AList fun _ : K => V} {k : K} {v : V}

theorem mem_sortedEntries : (k, v) ∈ sortedEntries p m ↔ p k ∧ m.lookup k = some v := by
  unfold sortedEntries
  rw [List.mem_filterMap]
  constructor
  · rintro ⟨k', hk, hmap⟩
    rcases Option.map_eq_some_iff.mp hmap with ⟨v', hv', heq⟩
    cases heq
    rw [(List.perm_insertionSort _ _).mem_iff, List.mem_filter] at hk
    exact ⟨by simpa using hk.2, hv'⟩
  · rintro ⟨hp, hv⟩
    refine ⟨k, ?_, by rw [hv]; rfl⟩
    rw [(List.perm_insertionSort _ _).mem_iff, List.mem_filter]
    exact ⟨AList.lookup_isSome.mp (by rw [hv]; rfl), by simpa using hp⟩

variable (p m) in
theorem pairwise_sortedEntries : (sortedEntries p m).Pairwise fun a b => a.1 < b.1 := by
  have hle := List.pairwise_insertionSort (· ≤ ·) (m.keys.filter fun k => p k)
  have hnodup := (List.perm_insertionSort (· ≤ ·) (m.keys.filter fun k => p k)).nodup_iff.mpr
    (m.keys_nodup.filter _)
  have hlt := (hle.and hnodup).imp fun {a b} hab => lt_of_le_of_ne hab.1 hab.2
  refine hlt.filterMap _ ?_
  intro a b hab x hx y hy
  rcases Option.map_eq_some_iff.mp hx with ⟨_, -, rfl⟩
  rcases Option.map_eq_some_iff.mp hy with ⟨_, -, rfl⟩
  exact hab

variable (p m) in
theorem listing_sortedEntries : Listing (fun k => m.lookup k) p (sortedEntries p m) :=
  ⟨pairwise_sortedEntries p m, fun _ _ => mem_sortedEntries⟩

theorem sortedEntries_congr {m' : AList fun _ : K => V} (h : ∀ k, m.lookup k = m'.lookup k) :
    sortedEntries p m = sortedEntries p m' := by
  have hlisting := listing_sortedEntries p m
  rw [funext h] at hlisting
  exact hlisting.unique (listing_sortedEntries p m')

theorem sortedEntries_eq_nil : sortedEntries p m = [] ↔ ∀ k v, m.lookup k = some v → ¬ p k := by
  rw [List.eq_nil_iff_forall_not_mem]
  constructor
  · intro h k v hv hp
    exact h (k, v) (mem_sortedEntries.mpr ⟨hp, hv⟩)
  · rintro h ⟨k, v⟩ hmem
    rcases mem_sortedEntries.mp hmem with ⟨hp, hv⟩
    exact h k v hv hp

theorem ceil_eq_none : ceil m k = none ↔ ∀ k' v', m.lookup k' = some v' → k' < k := by
  unfold ceil
  rw [List.head?_eq_none_iff, sortedEntries_eq_nil]
  simp only [not_le]

/-- The nearest entry above is one of the map, and no other one is nearer. -/
theorem ceil_eq_some {e : K × V} (h : ceil m k = some e) :
    m.lookup e.1 = some e.2 ∧ k ≤ e.1 ∧ ∀ k' v', m.lookup k' = some v' → k ≤ k' → e.1 ≤ k' := by
  rcases List.head?_eq_some_iff.mp h with ⟨l, hl⟩
  have hlisting := listing_sortedEntries (k ≤ ·) m
  rw [hl] at hlisting
  rcases hlisting.mem_entry List.mem_cons_self with ⟨hle, hv⟩
  exact ⟨hv, hle, fun k' v' hv' hk' => hlisting.least hk' hv'⟩

theorem floor_eq_none : floor m k = none ↔ ∀ k' v', m.lookup k' = some v' → k < k' := by
  unfold floor
  rw [List.getLast?_eq_none_iff, sortedEntries_eq_nil]
  simp only [not_le]

/-- The nearest entry below is one of the map, and no other one is nearer. -/
theorem floor_eq_some {e : K × V} (h : floor m k = some e) :
    m.lookup e.1 = some e.2 ∧ e.1 ≤ k ∧ ∀ k' v', m.lookup k' = some v' → k' ≤ k → k' ≤ e.1 := by
  rcases List.getLast?_eq_some_iff.mp h with ⟨l, hl⟩
  have hlisting := listing_sortedEntries (· ≤ k) m
  rw [hl] at hlisting
  rcases hlisting.mem_entry (List.mem_append_right l List.mem_cons_self) with ⟨hle, hv⟩
  refine ⟨hv, hle, fun k' v' hv' hk' => ?_⟩
  rcases List.mem_append.mp ((hlisting.mem k' v').mpr ⟨hk', hv'⟩) with hmem | hmem
  · exact le_of_lt ((List.pairwise_append.mp hlisting.sorted).2.2 _ hmem _ List.mem_cons_self)
  · cases List.mem_singleton.mp hmem
    exact le_refl _

end Entries

end Titan.Lib
