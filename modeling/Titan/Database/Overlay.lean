import Titan.Database.VersionDB

/-!
# Titan.Database.Overlay — versiondb is a transactional overlay

`VersionDB.law`: over a database that keeps the law of stores, `versiondb` keeps it too, so
that it can be stacked.

The merge of an iterator is described by `shadow`: the entries of the database below with
those of the changes in their place.
-/

namespace Titan.Database

open Lib

variable {S : Store Bytes Bytes Range}

/-! ## Contents -/

section Contents

variable (law : S.Law Range.Contains) (v : VersionDB S)

/-- The database below, overridden by the changes. -/
def VersionDB.view (key : Bytes) : Option Bytes :=
  match v.mem.lookup key with
  | some w => w.after
  | none => law.content v.db key

theorem get_eq_view (key : Bytes) : v.get key = v.view law key := by
  unfold VersionDB.get VersionDB.view
  rcases v.mem.lookup key with _ | w
  · exact law.get_eq v.db key
  · rfl

theorem has_eq_view (key : Bytes) : v.has key = (v.view law key).isSome := by
  unfold VersionDB.has VersionDB.view ValueDelete.after
  rcases v.mem.lookup key with _ | w
  · exact law.has_eq v.db key
  · cases hdelete : w.delete <;> simp [hdelete]

theorem view_insert (key : Bytes) (w : ValueDelete) :
    VersionDB.view law { v with mem := v.mem.insert key w } = Function.update (v.view law) key w.after := by
  funext k
  unfold VersionDB.view
  by_cases hk : k = key
  · subst hk
    rw [AList.lookup_insert, Function.update_self]
  · rw [AList.lookup_insert_ne hk, Function.update_of_ne hk]

theorem view_write (ops : List BatchOp) : (v.write ops).view law =
    overwrite (v.view law) (ops.map fun op => (op.key, (⟨op.value, op.delete⟩ : ValueDelete).after)) := by
  induction ops generalizing v with
  | nil => rfl
  | cons op ops ih =>
    rw [List.map_cons, overwrite_cons, ← view_insert law v op.key ⟨op.value, op.delete⟩]
    exact ih { v with mem := v.mem.insert op.key ⟨op.value, op.delete⟩ }

/-- A batch of the interface. -/
theorem view_write_ops (ops : List (Bytes × Option Bytes)) :
    (v.write (ops.map fun op => ⟨op.1, op.2.getD [], op.2.isNone⟩)).view law =
      overwrite (v.view law) ops := by
  rw [view_write, List.map_map]
  congr 1
  conv_rhs => rw [← List.map_id ops]
  refine List.map_congr_left fun op _ => ?_
  rcases op with ⟨key, _ | value⟩ <;> rfl

theorem view_of_no_changes {v : VersionDB S} (h : v.mem = ∅) : v.view law = law.content v.db := by
  funext k
  unfold VersionDB.view
  rw [h]
  rfl

/-- The batch writes every change, in whatever order it was collected. -/
theorem overwrite_commitBatch (walk : Walk (Sigma fun _ : Bytes => ValueDelete)) :
    overwrite (law.content v.db) (v.commitBatch walk) = v.view law := by
  have hfst : (v.commitBatch walk).map Prod.fst = (walk.order v.mem.entries).map Sigma.fst := by
    unfold VersionDB.commitBatch
    rw [List.map_map]
    refine List.map_congr_left fun e _ => ?_
    rw [Function.comp_apply]
    split <;> rfl
  have hkeys : (v.commitBatch walk).map Prod.fst |>.Perm v.mem.keys := by
    rw [hfst]
    exact (walk.perm _).map Sigma.fst
  funext k
  unfold VersionDB.view
  rcases hlookup : v.mem.lookup k with _ | w
  · refine overwrite_of_notMem fun hmem => ?_
    exact AList.lookup_eq_none.mp hlookup (hkeys.mem_iff.mp hmem)
  · refine overwrite_of_mem (hkeys.nodup_iff.mpr v.mem.keys_nodup) ?_
    refine List.mem_map.mpr ⟨⟨k, w⟩, (walk.perm _).mem_iff.mpr (AList.mem_lookup_iff.mp hlookup), ?_⟩
    unfold ValueDelete.after
    dsimp only
    split <;> rfl

theorem content_commit (walk : Walk (Sigma fun _ : Bytes => ValueDelete)) :
    law.content (v.commit walk).db = v.view law := by
  show law.content (S.write v.db (v.commitBatch walk)) = v.view law
  rw [law.content_write, overwrite_commitBatch]

end Contents

/-! ## The merge -/

/-- The entries below with those of the changes in their place. -/
def shadow : List (Bytes × ValueDelete) → List (Bytes × Bytes) → List (Bytes × Bytes)
  | [], below => below
  | (key, w) :: entries, below =>
    below.filter (fun e => e.1 < key) ++
      (if w.delete then [] else [(key, w.value)]) ++ shadow entries (below.filter fun e => key < e.1)

section Shadow

variable {entries : List (Bytes × ValueDelete)} {below : List (Bytes × Bytes)} {key : Bytes} {w : ValueDelete}
  {e : Bytes × Bytes}

/-- An entry below the next change comes first. -/
theorem shadow_cons_of_lt (h : e.1 < key) :
    shadow ((key, w) :: entries) (e :: below) = e :: shadow ((key, w) :: entries) below := by
  unfold shadow
  have hnot : ¬ key < e.1 := not_lt_of_gt h
  rw [List.filter_cons_of_pos (by simpa using h), List.filter_cons_of_neg (by simpa using hnot)]
  rfl

/-- A change below the next entry comes first. -/
theorem shadow_cons_of_forall (hall : ∀ x ∈ below, key < x.1) : shadow ((key, w) :: entries) below =
    (if w.delete then [] else [(key, w.value)]) ++ shadow entries below := by
  have hless : below.filter (fun x => x.1 < key) = [] := by
    rw [List.filter_eq_nil_iff]
    intro x hx
    simpa using le_of_lt (hall x hx)
  have hmore : below.filter (fun x => key < x.1) = below := by
    rw [List.filter_eq_self]
    intro x hx
    simpa using hall x hx
  rw [shadow, hless, hmore, List.nil_append]

theorem shadow_cons_of_gt (hsorted : (e :: below).Pairwise fun a b => a.1 < b.1) (h : key < e.1) :
    shadow ((key, w) :: entries) (e :: below) =
      (if w.delete then [] else [(key, w.value)]) ++ shadow entries (e :: below) := by
  refine shadow_cons_of_forall fun x hx => ?_
  rcases List.mem_cons.mp hx with rfl | hx
  · exact h
  · exact h.trans ((List.pairwise_cons.mp hsorted).1 x hx)

/-- A change of the next entry takes its place. -/
theorem shadow_cons_of_eq (hsorted : (e :: below).Pairwise fun a b => a.1 < b.1) (h : key = e.1) :
    shadow ((key, w) :: entries) (e :: below) =
      (if w.delete then [] else [(key, w.value)]) ++ shadow entries below := by
  have hall : ∀ x ∈ below, key < x.1 := by
    rw [h]
    exact (List.pairwise_cons.mp hsorted).1
  rw [← shadow_cons_of_forall hall, shadow, shadow, List.filter_cons_of_neg (by simp [h]),
    List.filter_cons_of_neg (by simp [h])]

theorem mem_shadow (hsorted : entries.Pairwise fun a b => a.1 < b.1) {x y : Bytes} :
    (x, y) ∈ shadow entries below ↔
      (∃ w, (x, w) ∈ entries ∧ w.after = some y) ∨ (x, y) ∈ below ∧ x ∉ entries.map Prod.fst := by
  induction entries generalizing below with
  | nil => simp [shadow]
  | cons entry entries ih =>
    rcases entry with ⟨key, w⟩
    rcases List.pairwise_cons.mp hsorted with ⟨hhead, hsorted⟩
    have hown : (x, y) ∈ (if w.delete then [] else [(key, w.value)]) ↔ x = key ∧ w.after = some y := by
      unfold ValueDelete.after
      cases w.delete <;> simp [eq_comm]
    -- the keys of the other changes are above this one
    have habove : x ∈ entries.map Prod.fst → key < x := by
      intro hx
      rcases List.mem_map.mp hx with ⟨a, ha, rfl⟩
      exact hhead a ha
    unfold shadow
    rw [List.mem_append, List.mem_append, hown, ih hsorted, List.mem_filter, List.mem_filter,
      List.map_cons, List.mem_cons]
    simp only [decide_eq_true_eq, List.mem_cons, Prod.mk.injEq]
    constructor
    · rintro ((⟨hmem, hlt⟩ | ⟨rfl, hw⟩) | (⟨w', hw', hy⟩ | ⟨⟨hmem, hlt⟩, hnot⟩))
      · exact .inr ⟨hmem, fun h => by
          rcases h with rfl | h
          · exact lt_irrefl _ hlt
          · exact lt_asymm hlt (habove h)⟩
      · exact .inl ⟨w, .inl ⟨rfl, rfl⟩, hw⟩
      · exact .inl ⟨w', .inr hw', hy⟩
      · exact .inr ⟨hmem, fun h => by
          rcases h with rfl | h
          · exact lt_irrefl _ hlt
          · exact hnot h⟩
    · rintro (⟨w', ⟨rfl, rfl⟩ | hw', hy⟩ | ⟨hmem, hnot⟩)
      · exact .inl (.inr ⟨rfl, hy⟩)
      · exact .inr (.inl ⟨w', hw', hy⟩)
      · rcases lt_trichotomy x key with hlt | heq | hlt
        · exact .inl (.inl ⟨hmem, hlt⟩)
        · exact absurd (.inl heq) hnot
        · exact .inr (.inr ⟨⟨hmem, hlt⟩, fun h => hnot (.inr h)⟩)

theorem pairwise_shadow (hsorted : entries.Pairwise fun a b => a.1 < b.1)
    (hbelow : below.Pairwise fun a b => a.1 < b.1) :
    (shadow entries below).Pairwise fun a b => a.1 < b.1 := by
  induction entries generalizing below with
  | nil => exact hbelow
  | cons entry entries ih =>
    rcases entry with ⟨key, w⟩
    rcases List.pairwise_cons.mp hsorted with ⟨hhead, hsorted⟩
    have hown : ∀ a ∈ (if w.delete then [] else [(key, w.value)] : List (Bytes × Bytes)), a.1 = key := by
      cases w.delete <;> simp
    have hrest : ∀ b ∈ shadow entries (below.filter fun e => key < e.1), key < b.1 := by
      rintro ⟨x, y⟩ hb
      rcases (mem_shadow hsorted).mp hb with ⟨w', hw', -⟩ | ⟨hmem, -⟩
      · exact hhead _ hw'
      · simpa using (List.mem_filter.mp hmem).2
    have hless : ∀ a ∈ below.filter (fun e => e.1 < key), a.1 < key := by
      intro a ha
      simpa using (List.mem_filter.mp ha).2
    refine List.pairwise_append.mpr ⟨List.pairwise_append.mpr ⟨hbelow.filter _, ?_, ?_⟩,
      ih hsorted (hbelow.filter _), ?_⟩
    · cases w.delete <;> simp
    · intro a ha b hb
      rw [hown b hb]
      exact hless a ha
    · intro a ha b hb
      rcases List.mem_append.mp ha with ha | ha
      · exact (hless a ha).trans (hrest b hb)
      · rw [hown a ha]
        exact hrest b hb

end Shadow

/-! ## Iterators -/

section Iterators

variable (law : S.Law Range.Contains)

/-- What the database below still returns: its iterator is one entry ahead. -/
def Below (inner : S.Iterator) (exhausted : Bool) (below : List (Bytes × Bytes)) : Prop :=
  if exhausted then below = []
  else ∃ rest, below = (S.key inner, S.value inner) :: rest ∧ law.Yields inner rest

/-- What an iterator still returns. -/
def Iterator.Yields (it : Iterator S) (l : List (Bytes × Bytes)) : Prop :=
  ∃ below, (below.Pairwise fun a b => a.1 < b.1) ∧ l = shadow it.entries below ∧
    if it.initialized then Below law it.inner it.exhausted below else law.Yields it.inner below

theorem yields_of_initialized {it : Iterator S} {below : List (Bytes × Bytes)} (hinit : it.initialized = true)
    (hsorted : below.Pairwise fun a b => a.1 < b.1) (h : Below law it.inner it.exhausted below) :
    it.Yields law (shadow it.entries below) :=
  ⟨below, hsorted, rfl, by rwa [if_pos hinit]⟩

/-- Moving the iterator of the database below. -/
theorem below_next (db : S.State) {inner : S.Iterator} {l : List (Bytes × Bytes)} (h : law.Yields inner l) :
    Below law (S.next db inner).2 (!(S.next db inner).1) l := by
  rcases l with _ | ⟨e, l⟩
  · rw [(law.yields_nil db inner h).1]
    rfl
  · rcases law.yields_cons db inner e l h with ⟨hnext, hkey, hvalue, hrest⟩
    rw [hnext]
    exact ⟨l, by rw [hkey, hvalue], hrest⟩

/-- The iterator stands at the first entry of `l` and still returns the others, or there
is none. -/
def Iterator.Moved (l : List (Bytes × Bytes)) (result : Bool × Iterator S) : Prop :=
  match l with
  | [] => result.1 = false ∧ result.2.Yields law []
  | e :: rest => result.1 = true ∧ result.2.key = e.1 ∧ result.2.value = e.2 ∧ result.2.Yields law rest

theorem loop_moved (db : S.State) (it : Iterator S) (hinit : it.initialized = true)
    (entries : List (Bytes × ValueDelete)) (inner : S.Iterator) (exhausted : Bool)
    (below : List (Bytes × Bytes)) (hsorted : below.Pairwise fun a b => a.1 < b.1)
    (h : Below law inner exhausted below) :
    Iterator.Moved law (shadow entries below) (it.loop db entries inner exhausted) := by
  induction entries generalizing inner exhausted below with
  | nil =>
    cases exhausted with
    | true =>
      have hnil : below = [] := h
      subst hnil
      exact ⟨rfl, yields_of_initialized law hinit List.Pairwise.nil rfl⟩
    | false =>
      rcases (show ∃ rest, below = _ ∧ law.Yields inner rest from h) with ⟨rest, rfl, hrest⟩
      exact ⟨rfl, rfl, rfl,
        yields_of_initialized law hinit (List.pairwise_cons.mp hsorted).2 (below_next law db hrest)⟩
  | cons entry entries ih =>
    rcases entry with ⟨memKey, memValue⟩
    cases exhausted with
    | true =>
      have hnil : below = [] := h
      subst hnil
      rw [Iterator.loop]
      cases hdelete : memValue.delete with
      | true =>
        rw [if_pos rfl, shadow, List.filter_nil, List.filter_nil, if_pos hdelete]
        exact ih inner true [] List.Pairwise.nil rfl
      | false =>
        rw [if_neg Bool.false_ne_true, shadow, List.filter_nil, List.filter_nil,
          if_neg (by rw [hdelete]; exact Bool.false_ne_true)]
        exact ⟨rfl, rfl, rfl, yields_of_initialized law hinit List.Pairwise.nil rfl⟩
    | false =>
      rcases (show ∃ rest, below = _ ∧ law.Yields inner rest from h) with ⟨rest, rfl, hrest⟩
      have hmoved := below_next law db hrest
      have hsorted' := (List.pairwise_cons.mp hsorted).2
      rw [Iterator.loop]
      split
      next hlt =>
        -- the change comes first
        rw [shadow_cons_of_gt hsorted hlt]
        cases hdelete : memValue.delete with
        | true => exact ih inner false _ hsorted h
        | false =>
          exact ⟨rfl, rfl, rfl, yields_of_initialized law hinit hsorted h⟩
      next hge =>
        split
        next hlt =>
          -- the entry of the database below comes first
          rw [shadow_cons_of_lt hlt]
          exact ⟨rfl, rfl, rfl, yields_of_initialized law hinit hsorted' hmoved⟩
        next hle =>
          -- the change takes the place of the entry
          rw [shadow_cons_of_eq hsorted (le_antisymm (not_lt.mp hle) (not_lt.mp hge))]
          cases hdelete : memValue.delete with
          | true => exact ih _ _ rest hsorted' hmoved
          | false =>
            exact ⟨rfl, rfl, rfl, yields_of_initialized law hinit hsorted' hmoved⟩

theorem next_moved (db : S.State) {it : Iterator S} {l : List (Bytes × Bytes)} (h : it.Yields law l) :
    Iterator.Moved law l (it.next db) := by
  rcases h with ⟨below, hsorted, rfl, hbelow⟩
  unfold Iterator.next
  split
  next hinit =>
    rw [if_pos hinit] at hbelow
    exact loop_moved law db it hinit it.entries it.inner it.exhausted below hsorted hbelow
  next hinit =>
    rw [if_neg hinit] at hbelow
    exact loop_moved law db _ rfl it.entries _ _ below hsorted (below_next law db hbelow)

/-! ## A new iterator -/

variable (v : VersionDB S) (r : Range)

/-- An iterator returns what is in the view when it is made. -/
theorem yields_newIterator :
    ∃ l, Listing (v.view law) r.Contains l ∧ (v.newIteratorWithStartAndPrefix r).Yields law l := by
  rcases law.yields_new v.db r with ⟨below, hbelow, hyields⟩
  refine ⟨shadow (r.sortedEntries v.mem) below, ⟨pairwise_shadow (r.pairwise_sortedEntries v.mem) hbelow.sorted, ?_⟩,
    below, hbelow.sorted, rfl, hyields⟩
  intro key value
  rw [mem_shadow (r.pairwise_sortedEntries v.mem), hbelow.mem]
  have hkeys : key ∈ (r.sortedEntries v.mem).map Prod.fst ↔ r.Contains key ∧ (v.mem.lookup key).isSome := by
    rw [List.mem_map]
    constructor
    · rintro ⟨⟨k, w⟩, hmem, rfl⟩
      rcases (r.mem_sortedEntries v.mem).mp hmem with ⟨hr, hw⟩
      exact ⟨hr, by rw [hw]; rfl⟩
    · rintro ⟨hr, hsome⟩
      rcases Option.isSome_iff_exists.mp hsome with ⟨w, hw⟩
      exact ⟨(key, w), (r.mem_sortedEntries v.mem).mpr ⟨hr, hw⟩, rfl⟩
  rw [hkeys]
  simp only [Range.mem_sortedEntries]
  unfold VersionDB.view
  -- either a change decides, or there is none and the database below does
  rcases v.mem.lookup key with _ | w
  · simp
  · simp only [Option.isSome_some, and_true, Option.some.injEq]
    constructor
    · rintro (⟨w', ⟨hr, rfl⟩, hw⟩ | ⟨⟨hr, -⟩, hnot⟩)
      · exact ⟨hr, hw⟩
      · exact absurd hr hnot
    · rintro ⟨hr, hw⟩
      exact .inl ⟨w, ⟨hr, rfl⟩, hw⟩

end Iterators

/-- `versiondb` is a store again. -/
def VersionDB.law (law : S.Law Range.Contains) : (VersionDB.store S).Law Range.Contains where
  content := VersionDB.view law
  Yields := Iterator.Yields law
  has_eq := has_eq_view law
  get_eq := get_eq_view law
  content_write := view_write_ops law
  yields_new := yields_newIterator law
  yields_nil v _ h := next_moved law v.db h
  yields_cons v _ _ _ h := next_moved law v.db h

end Titan.Database
