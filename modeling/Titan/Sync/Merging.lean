import Titan.Sync.WorkHeap

/-!
# Titan.Sync.Merging — what `MergeInsert` does to the ranges

A new item is merged with the item whose range stops at its start and with the one whose
range starts at its stop. If its range completes a tiling, the heap does so afterwards.
-/

namespace Titan.Sync

open Lib

namespace WorkHeap

variable {wh : WorkHeap} {item : WorkItem}

/-- What a heap is after an item was put into it or merged with others. -/
structure Inserted (wh : WorkHeap) (item : WorkItem) (wh' : WorkHeap) : Prop where
  ok : wh'.Ok
  nodup : (wh'.innerHeap.map WorkItem.ref).Nodup
  refs : ∀ x ∈ wh'.innerHeap, x.ref = item.ref ∨ x.ref ∈ wh.innerHeap.map WorkItem.ref
  roots : ∀ x ∈ wh'.innerHeap, x.localRootID = item.localRootID ∨ ∃ y ∈ wh.innerHeap, x.localRootID = y.localRootID
  tiling : ∀ others, Tiling (item.range :: (wh.innerHeap.map WorkItem.range ++ others)) →
    Tiling (wh'.innerHeap.map WorkItem.range ++ others)

section Neighbours

variable (hne : ∀ x ∈ wh.sortedItems, x.start ≠ item.start)

include hne

theorem mergedBefore_spec {b : WorkItem} (hb : wh.mergedBefore item = some b) :
    b ∈ wh.sortedItems ∧ StartLT b.start item.start ∧ ∃ m, item.start = some m ∧ b.stop = some m := by
  rcases Option.filter_eq_some_iff.mp hb with ⟨hdescend, hmerge⟩
  rw [decide_eq_true_eq] at hmerge
  have hmem := List.mem_of_getLast? hdescend
  rw [List.mem_filter, Bool.not_eq_true', less_eq_false] at hmem
  have hlt : StartLT b.start item.start := .of_not (hne b hmem.1) hmem.2
  rcases hlt with ⟨m, hm, hbelow⟩
  exact ⟨hmem.1, ⟨m, hm, hbelow⟩, m, hm, hmerge.2.symm.trans hm⟩

theorem mergedAfter_spec {a : WorkItem} (ha : wh.mergedAfter item = some a) :
    a ∈ wh.sortedItems ∧ ascend item wh.sortedItems = some a ∧ StartLT item.start a.start ∧
      ∃ m, item.stop = some m ∧ a.start = some m := by
  rcases Option.filter_eq_some_iff.mp ha with ⟨hascend, hmerge⟩
  rw [decide_eq_true_eq] at hmerge
  have hmem := List.mem_of_find?_eq_some hascend
  have hnot := List.find?_some hascend
  rw [Bool.not_eq_true', less_eq_false] at hnot
  have hlt : StartLT item.start a.start := .of_not (hne a hmem).symm hnot
  rcases hlt with ⟨m, hm, habove⟩
  exact ⟨hmem, hascend, ⟨m, hm, habove⟩, m, hmerge.2.trans hm, hm⟩

end Neighbours

theorem inserted_insert (h : wh.Ok) (hne : ∀ x ∈ wh.innerHeap, x.start ≠ item.start) (hnodup : (wh.innerHeap.map WorkItem.ref).Nodup)
    (hfresh : item.ref ∉ wh.innerHeap.map WorkItem.ref) : Inserted wh item (wh.insert item) := by
  have hperm : (wh.insert item).innerHeap.Perm (item :: wh.innerHeap) :=
    List.perm_append_singleton item wh.innerHeap
  refine ⟨h.insert hne, ?_, ?_, ?_, ?_⟩
  · exact (hperm.map WorkItem.ref).nodup_iff.mpr (List.nodup_cons.mpr ⟨hfresh, hnodup⟩)
  · intro x hx
    rcases List.mem_cons.mp (hperm.mem_iff.mp hx) with rfl | hx
    · exact .inl rfl
    · exact .inr (List.mem_map_of_mem hx)
  · intro x hx
    rcases List.mem_cons.mp (hperm.mem_iff.mp hx) with rfl | hx
    · exact .inl rfl
    · exact .inr ⟨x, hx, rfl⟩
  · intro others htiling
    exact htiling.perm ((hperm.map WorkItem.range).append_right others)

/-- An item of the heap in front of the others. -/
theorem Ok.lists_cons (h : wh.Ok) (hnodup : (wh.innerHeap.map WorkItem.ref).Nodup) {x : WorkItem}
    (hx : x ∈ wh.sortedItems) : ∃ rest, wh.Lists (x :: rest) := by
  rcases List.append_of_mem (h.perm.mem_iff.mp hx) with ⟨l, l', heq⟩
  have hlists : wh.Lists wh.innerHeap := ⟨h, List.Perm.refl _, hnodup⟩
  exact ⟨l ++ l', hlists.permute (heq ▸ List.perm_middle)⟩

/-- One item changed into one with the same pointer and root, and others taken out. -/
theorem inserted_replace {wh' : WorkHeap} {x y : WorkItem} (gone : List WorkItem) {rest : List WorkItem}
    (h : wh.Lists (x :: (gone ++ rest))) (h' : wh'.Lists (y :: rest)) (href : y.ref = x.ref)
    (hroot : y.localRootID = x.localRootID)
    (htiling : ∀ l, Tiling (item.range :: x.range :: (gone.map WorkItem.range ++ l)) → Tiling (y.range :: l)) :
    Inserted wh item wh' := by
  refine ⟨h'.ok, h'.inner_nodup, fun z hz => .inr ?_, fun z hz => .inr ?_, fun others hbefore => ?_⟩
  · rcases List.mem_cons.mp (h'.perm.mem_iff.mp hz) with rfl | hz
    · rw [href]
      exact List.mem_map_of_mem (h.perm.mem_iff.mpr List.mem_cons_self)
    · exact List.mem_map_of_mem (h.perm.mem_iff.mpr (List.mem_cons_of_mem _ (List.mem_append_right _ hz)))
  · rcases List.mem_cons.mp (h'.perm.mem_iff.mp hz) with rfl | hz
    · exact ⟨x, h.perm.mem_iff.mpr List.mem_cons_self, hroot⟩
    · exact ⟨z, h.perm.mem_iff.mpr (List.mem_cons_of_mem _ (List.mem_append_right _ hz)), rfl⟩
  · have hold := (((h.perm.map WorkItem.range).append_right others).cons item.range).symm
    rw [List.map_cons, List.map_append, List.cons_append, List.append_assoc] at hold
    exact (htiling _ (hbefore.perm hold)).perm ((h'.perm.map WorkItem.range).append_right others)

theorem Ok.start_ne (h : wh.Ok) (hne : ∀ x ∈ wh.innerHeap, x.start ≠ item.start) :
    ∀ x ∈ wh.sortedItems, x.start ≠ item.start :=
  fun x hx => hne x (h.perm.mem_iff.mp hx)

section Merge

variable (h : wh.Ok) (hnodup : (wh.innerHeap.map WorkItem.ref).Nodup)
  (hne : ∀ x ∈ wh.innerHeap, x.start ≠ item.start)

include h hnodup hne

theorem inserted_after {a : WorkItem} (ha : wh.mergedAfter item = some a) :
    Inserted wh item (wh.update a.ref (extendAfter item)) := by
  have hne' := h.start_ne hne
  rcases mergedAfter_spec hne' ha with ⟨hmem, hascend, -, m, hstop, hstart⟩
  rcases h.lists_cons hnodup hmem with ⟨rest, hlists⟩
  have hok := h.update_after hnodup hascend (hne' a hmem)
  refine inserted_replace [] hlists (hlists.update hok rfl) rfl rfl fun l htiling => ?_
  unfold WorkItem.range at htiling
  rw [hstop, hstart] at htiling
  exact htiling.join

theorem inserted_before {b : WorkItem} (hb : wh.mergedBefore item = some b) :
    Inserted wh item (wh.update b.ref (extendBefore item)) := by
  rcases mergedBefore_spec (h.start_ne hne) hb with ⟨hmem, -, m, hstart, hstop⟩
  rcases h.lists_cons hnodup hmem with ⟨rest, hlists⟩
  have hok := h.update_start (extendBefore item) (fun _ => rfl) b.ref
  refine inserted_replace [] hlists (hlists.update hok rfl) rfl rfl fun l htiling => ?_
  have hswap := htiling.perm (List.Perm.swap item.range b.range _)
  unfold WorkItem.range at hswap
  rw [hstop, hstart] at hswap
  exact hswap.join

/-- The items before and after a new one become one item. -/
theorem inserted_both {a b : WorkItem} (hb : wh.mergedBefore item = some b)
    (ha : (wh.update b.ref (extendBefore item)).mergedAfter item = some a) :
    Inserted wh item
      (((((wh.update b.ref (extendBefore item)).update a.ref (extendAfter item)).update b.ref fun x =>
        { x with stop := (extendAfter item a).stop }).remove (extendAfter item a)).update b.ref fun x =>
        { x with priority := x.priority.max (extendAfter item a).priority }) := by
  rcases mergedBefore_spec (h.start_ne hne) hb with ⟨hbmem, hblt, m, hstart, hstop⟩
  rcases h.lists_cons hnodup hbmem with ⟨rest, hlists⟩
  -- the item before
  have hok₁ := h.update_start (extendBefore item) (fun _ => rfl) b.ref
  have h₁ := hlists.update hok₁ rfl
  have hne₁ : ∀ x ∈ (wh.update b.ref (extendBefore item)).sortedItems, x.start ≠ item.start := by
    intro x hx
    rcases List.mem_cons.mp (h₁.perm.mem_iff.mp (hok₁.perm.mem_iff.mp hx)) with rfl | hx
    · exact hne b (h.perm.mem_iff.mp hbmem)
    · exact hne x (hlists.perm.mem_iff.mpr (List.mem_cons_of_mem _ hx))
  rcases mergedAfter_spec hne₁ ha with ⟨hamem, hascend, halt, m', hstop', hstart'⟩
  -- the item after is another one
  have hab : a ∈ rest := by
    rcases List.mem_cons.mp (h₁.perm.mem_iff.mp (hok₁.perm.mem_iff.mp hamem)) with rfl | hmem
    · exact absurd (hblt.trans halt) (StartLT.irrefl _)
    · exact hmem
  rcases List.append_of_mem hab with ⟨l, l', rfl⟩
  have hfront := h₁.permute ((List.perm_middle.cons _).trans (List.Perm.swap _ _ _))
  have h₂ := hfront.update (hok₁.update_after h₁.inner_nodup hascend (hne₁ a hamem)) rfl
  -- the item before takes the end of the item after, which is taken out
  have h₃ := (h₂.permute (List.Perm.swap _ _ _)).update
    (h₂.ok.update_start (fun x => { x with stop := (extendAfter item a).stop }) (fun _ => rfl) b.ref) rfl
  have h₄ := (h₃.permute (List.Perm.swap _ _ _)).remove
  have h₅ := h₄.update (h₄.ok.update_start
    (fun x => { x with priority := x.priority.max (extendAfter item a).priority }) (fun _ => rfl) b.ref) rfl
  refine inserted_replace [a] (hlists.permute (List.perm_middle.cons b)) h₅ rfl rfl fun t htiling => ?_
  have hswap := htiling.perm (List.Perm.swap item.range b.range _)
  unfold WorkItem.range at hswap
  rw [hstop, hstart] at hswap
  have hjoined := hswap.join
  rw [List.map_singleton, List.singleton_append, hstop', hstart'] at hjoined
  exact hjoined.join

theorem inserted_mergeInsert (hfresh : item.ref ∉ wh.innerHeap.map WorkItem.ref) :
    Inserted wh item (wh.mergeInsert item) := by
  unfold mergeInsert
  rcases hb : wh.mergedBefore item with _ | b
  · rcases ha : wh.mergedAfter item with _ | a
    · exact inserted_insert h hne hnodup hfresh
    · exact inserted_after h hnodup hne ha
  · dsimp only
    rcases ha : (wh.update b.ref (extendBefore item)).mergedAfter item with _ | a
    · exact inserted_before h hnodup hne hb
    · exact inserted_both h hnodup hne hb ha

end Merge

end WorkHeap

end Titan.Sync
