import Titan.Database.MemDB
import Titan.Lib.Tiling
import Titan.PChain.Types

/-!
# Titan.Sync.WorkHeap — queues of key ranges to work on

A `workHeap` (`x/sync/workheap.go`) holds work items twice: in a heap by their priorities
and in a B-tree by their starts. Both hold pointers, so that an item changed through one is
changed in the other; `ref` is the identity of an item.

* The heap is the list of its items. Which of the items with the highest priority is popped
  is left open.
* The B-tree is the list of its items in order, searched by the order of starts only.
* `Close` is not modelled, nor what only the backoff of retries reads.
-/

namespace Titan.Sync

open Lib
open Database (Bytes)
open PChain (ID)

inductive Priority
  | low
  | med
  | high
  | retry
deriving DecidableEq, Repr

def Priority.toNat : Priority → ℕ
  | .low => 1
  | .med => 2
  | .high => 3
  | .retry => 4

def Priority.max (p q : Priority) : Priority := if p.toNat < q.toNat then q else p

structure WorkItem where
  ref : ℕ
  start : Option Bytes
  stop : Option Bytes
  priority : Priority
  localRootID : ID
deriving DecidableEq, Repr

def WorkItem.range (w : WorkItem) : KeyRange Bytes := ⟨w.start, w.stop⟩

/-! ## The B-tree -/

/-- The order of the B-tree. -/
def less (a b : WorkItem) : Bool :=
  match a.start, b.start with
  | none, none => false
  | none, some _ => true
  | some _, none => false
  | some x, some y => x < y

def replaceOrInsert (item : WorkItem) : List WorkItem → List WorkItem
  | [] => [item]
  | x :: xs =>
    if less item x then item :: x :: xs
    else if less x item then x :: replaceOrInsert item xs
    else item :: xs

def delete (item : WorkItem) : List WorkItem → List WorkItem
  | [] => []
  | x :: xs =>
    if less item x then x :: xs
    else if less x item then x :: delete item xs
    else xs

/-- The first item of `DescendLessOrEqual`. -/
def descend (item : WorkItem) (xs : List WorkItem) : Option WorkItem :=
  (xs.filter fun x => !less item x).getLast?

/-- The first item of `AscendGreaterOrEqual`. -/
def ascend (item : WorkItem) (xs : List WorkItem) : Option WorkItem := xs.find? fun x => !less x item

/-! ## The heap -/

structure WorkHeap where
  innerHeap : List WorkItem
  sortedItems : List WorkItem
deriving DecidableEq, Repr

namespace WorkHeap

def empty : WorkHeap := ⟨[], []⟩

/-- `Insert`. An item is pushed when it is new or was popped. -/
def insert (wh : WorkHeap) (item : WorkItem) : WorkHeap :=
  ⟨wh.innerHeap ++ [item], replaceOrInsert item wh.sortedItems⟩

/-- `GetWork`, where `i` is the place of an item with the highest priority. -/
def getWork (wh : WorkHeap) (i : ℕ) : Option (WorkItem × WorkHeap) :=
  match wh.innerHeap[i]? with
  | none => none
  | some item =>
    if wh.innerHeap.all fun x => x.priority.toNat ≤ item.priority.toNat then
      some (item, ⟨wh.innerHeap.eraseIdx i, delete item wh.sortedItems⟩)
    else none

/-- Change an item through its pointer. -/
def update (wh : WorkHeap) (ref : ℕ) (f : WorkItem → WorkItem) : WorkHeap :=
  ⟨wh.innerHeap.map fun x => if x.ref = ref then f x else x,
    wh.sortedItems.map fun x => if x.ref = ref then f x else x⟩

/-- `remove`. -/
def remove (wh : WorkHeap) (item : WorkItem) : WorkHeap :=
  ⟨wh.innerHeap.filter fun x => x.ref ≠ item.ref, delete item wh.sortedItems⟩

/-- The item before a new one that it is merged with, if any. -/
def mergedBefore (wh : WorkHeap) (item : WorkItem) : Option WorkItem :=
  (descend item wh.sortedItems).filter fun x => item.localRootID = x.localRootID ∧ item.start = x.stop

/-- The item after a new one that it is merged with, if any. -/
def mergedAfter (wh : WorkHeap) (item : WorkItem) : Option WorkItem :=
  (ascend item wh.sortedItems).filter fun x => item.localRootID = x.localRootID ∧ item.stop = x.start

/-- `[before.start, before.end]` and the new range are merged. -/
def extendBefore (item x : WorkItem) : WorkItem :=
  { x with stop := item.stop, priority := item.priority.max x.priority }

/-- The new range and `[after.start, after.end]` are merged. -/
def extendAfter (item x : WorkItem) : WorkItem :=
  { x with start := item.start, priority := item.priority.max x.priority }

def mergeInsert (wh : WorkHeap) (item : WorkItem) : WorkHeap :=
  match wh.mergedBefore item with
  | none =>
    match wh.mergedAfter item with
    | none => wh.insert item
    | some a => wh.update a.ref (extendAfter item)
  | some b =>
    let wh := wh.update b.ref (extendBefore item)
    match wh.mergedAfter item with
    | none => wh
    | some a =>
      let wh := wh.update a.ref (extendAfter item)
      let after := extendAfter item a
      -- the two ranges are combined, and the second one is covered by the first
      let wh := wh.update b.ref fun x => { x with stop := after.stop }
      let wh := wh.remove after
      wh.update b.ref fun x => { x with priority := x.priority.max after.priority }

end WorkHeap

/-! ## Items in order -/

variable {a b : WorkItem}

theorem less_iff : less a b = true ↔ StartLT a.start b.start := by
  unfold less StartLT
  rcases a.start with _ | x
  · rcases b.start with _ | y
    · simp
    · simp
  · rcases b.start with _ | y
    · simp
    · simp

theorem less_eq_false : less a b = false ↔ ¬ StartLT a.start b.start := by
  rw [← less_iff, Bool.not_eq_true]

theorem less_of_not_less (hne : b.start ≠ a.start) (h : ¬ less a b = true) : less b a = true := by
  rw [less_iff] at h ⊢
  exact .of_not hne h

/-- The items are in the order of their starts. -/
def InOrder (xs : List WorkItem) : Prop := xs.Pairwise fun x y => StartLT x.start y.start

section Order

variable {xs : List WorkItem} {item : WorkItem}

theorem perm_replaceOrInsert (h : InOrder xs) (hne : ∀ x ∈ xs, x.start ≠ item.start) :
    (replaceOrInsert item xs).Perm (item :: xs) := by
  induction xs with
  | nil => exact List.Perm.refl _
  | cons x xs ih =>
    unfold replaceOrInsert
    split
    · exact List.Perm.refl _
    next hnot =>
      split
      · exact ((ih h.of_cons fun y hy => hne y (List.mem_cons_of_mem _ hy)).cons x).trans (List.Perm.swap _ _ _)
      next hnot' => exact absurd (less_of_not_less (hne x List.mem_cons_self) hnot) hnot'

theorem inOrder_replaceOrInsert (h : InOrder xs) (hne : ∀ x ∈ xs, x.start ≠ item.start) :
    InOrder (replaceOrInsert item xs) := by
  induction xs with
  | nil => exact List.pairwise_singleton _ _
  | cons x xs ih =>
    rcases List.pairwise_cons.mp h with ⟨hx, hxs⟩
    have hne' : ∀ y ∈ xs, y.start ≠ item.start := fun y hy => hne y (List.mem_cons_of_mem _ hy)
    unfold replaceOrInsert
    split
    next hless =>
      rw [less_iff] at hless
      refine List.pairwise_cons.mpr ⟨fun y hy => ?_, h⟩
      rcases List.mem_cons.mp hy with rfl | hy
      · exact hless
      · exact hless.trans (hx y hy)
    next hnot =>
      split
      next hless =>
        rw [less_iff] at hless
        refine List.pairwise_cons.mpr ⟨fun y hy => ?_, ih hxs hne'⟩
        rcases List.mem_cons.mp ((perm_replaceOrInsert hxs hne').mem_iff.mp hy) with rfl | hy
        · exact hless
        · exact hx y hy
      next hnot' => exact absurd (less_of_not_less (hne x List.mem_cons_self) hnot) hnot'

/-- The item with the start is taken out. -/
theorem delete_middle {l l' : List WorkItem} {x : WorkItem} (h : InOrder (l ++ x :: l'))
    (heq : item.start = x.start) : delete item (l ++ x :: l') = l ++ l' := by
  induction l with
  | nil =>
    rw [List.nil_append, delete, if_neg, if_neg, List.nil_append]
    · rw [less_iff, heq]
      exact StartLT.irrefl _
    · rw [less_iff, heq]
      exact StartLT.irrefl _
  | cons y l ih =>
    rcases List.pairwise_cons.mp h with ⟨hy, hrest⟩
    have hlt : StartLT y.start item.start := heq ▸ hy x (List.mem_append_right l List.mem_cons_self)
    rw [List.cons_append, delete, if_neg, if_pos, ih hrest, List.cons_append]
    · exact less_iff.mpr hlt
    · rw [less_iff]
      exact fun hgt => StartLT.irrefl _ (hlt.trans hgt)

end Order

/-! ## Heaps in order -/

namespace WorkHeap

/-- The heap and the B-tree hold the same items, with different starts. -/
structure Ok (wh : WorkHeap) : Prop where
  perm : wh.sortedItems.Perm wh.innerHeap
  inOrder : InOrder wh.sortedItems

variable {wh : WorkHeap} {item : WorkItem}

theorem Ok.empty : empty.Ok := ⟨List.Perm.refl _, List.Pairwise.nil⟩

theorem Ok.insert (h : wh.Ok) (hne : ∀ x ∈ wh.innerHeap, x.start ≠ item.start) : (wh.insert item).Ok := by
  have hne' : ∀ x ∈ wh.sortedItems, x.start ≠ item.start := fun x hx => hne x (h.perm.mem_iff.mp hx)
  refine ⟨?_, inOrder_replaceOrInsert h.inOrder hne'⟩
  refine (perm_replaceOrInsert h.inOrder hne').trans ?_
  exact (h.perm.cons item).trans (List.perm_append_singleton item wh.innerHeap).symm

/-- Taking out an item of both. -/
theorem Ok.delete (h : wh.Ok) {inner : List WorkItem} (hinner : wh.innerHeap.Perm (item :: inner)) :
    Ok ⟨inner, Sync.delete item wh.sortedItems⟩ := by
  have hmem : item ∈ wh.sortedItems := h.perm.mem_iff.mpr (hinner.mem_iff.mpr List.mem_cons_self)
  rcases List.append_of_mem hmem with ⟨l, l', hsorted⟩
  have hinOrder := h.inOrder
  have hperm := h.perm
  rw [hsorted] at hinOrder hperm
  rw [hsorted, delete_middle hinOrder rfl]
  constructor
  · exact (List.perm_middle.symm.trans (hperm.trans hinner)).cons_inv
  · exact hinOrder.sublist (List.Sublist.append (List.Sublist.refl l) (List.sublist_cons_self item l'))

theorem getWork_spec {i : ℕ} {wh' : WorkHeap} (h : wh.Ok) (hwork : wh.getWork i = some (item, wh')) :
    wh'.Ok ∧ wh.innerHeap.Perm (item :: wh'.innerHeap) := by
  unfold getWork at hwork
  split at hwork
  next => cases hwork
  next x hx =>
    split at hwork
    next =>
      cases hwork
      have hperm : wh.innerHeap.Perm (item :: wh.innerHeap.eraseIdx i) := by
        rcases List.getElem?_eq_some_iff.mp hx with ⟨hi, rfl⟩
        exact (List.getElem_cons_eraseIdx_perm hi).symm
      exact ⟨h.delete hperm, hperm⟩
    next => cases hwork

/-! ## Changing an item -/

section Update

variable {xs rest : List WorkItem} {x : WorkItem} {f : WorkItem → WorkItem}

/-- Only the item with the pointer changes. -/
theorem perm_update (hnodup : (xs.map WorkItem.ref).Nodup) (hperm : xs.Perm (x :: rest)) :
    (xs.map fun y => if y.ref = x.ref then f y else y).Perm (f x :: rest) := by
  have hrest : rest.map (fun y => if y.ref = x.ref then f y else y) = rest := by
    have hnodup' := (hperm.map WorkItem.ref).nodup_iff.mp hnodup
    rw [List.map_cons, List.nodup_cons] at hnodup'
    refine (List.map_congr_left fun y hy => if_neg fun heq => ?_).trans (List.map_id rest)
    exact hnodup'.1 (heq ▸ List.mem_map_of_mem hy)
  have hmap := hperm.map fun y => if y.ref = x.ref then f y else y
  rw [List.map_cons, if_pos rfl, hrest] at hmap
  exact hmap

/-- Changes that keep the starts keep the order. -/
theorem Ok.update_start (h : wh.Ok) (f : WorkItem → WorkItem) (hf : ∀ y, (f y).start = y.start) (r : ℕ) : (wh.update r f).Ok := by
  refine ⟨h.perm.map _, List.pairwise_map.mpr (h.inOrder.imp fun {y z} hlt => ?_)⟩
  have hstart : ∀ y : WorkItem, (if y.ref = r then f y else y).start = y.start := by
    intro y
    split
    · exact hf y
    · rfl
  rw [hstart, hstart]
  exact hlt

/-- The item after a new one takes its start. -/
theorem Ok.update_after (h : wh.Ok) (hinner : (wh.innerHeap.map WorkItem.ref).Nodup)
    (ha : ascend item wh.sortedItems = some a) (hne : a.start ≠ item.start) :
    (wh.update a.ref (extendAfter item)).Ok := by
  refine ⟨h.perm.map _, ?_⟩
  show InOrder (wh.sortedItems.map fun y => if y.ref = a.ref then extendAfter item y else y)
  have hnodup := (h.perm.map WorkItem.ref).nodup_iff.mpr hinner
  rcases List.find?_eq_some_iff_append.mp ha with ⟨hnot, l, l', hsorted, hl⟩
  have hinOrder := h.inOrder
  rw [hsorted] at hinOrder hnodup ⊢
  rw [Bool.not_eq_true', less_eq_false] at hnot
  have hbefore : ∀ y ∈ l, StartLT y.start item.start := by
    intro y hy
    have := hl y hy
    rw [Bool.not_not] at this
    exact less_iff.mp this
  have hafter : StartLT item.start a.start := .of_not hne.symm hnot
  -- no other item has the pointer
  rw [List.map_append, List.map_cons, List.nodup_append, List.nodup_cons] at hnodup
  have hother : ∀ y ∈ l ++ l', y.ref ≠ a.ref := by
    intro y hy heq
    rcases List.mem_append.mp hy with hy | hy
    · exact hnodup.2.2 _ (List.mem_map_of_mem hy) _ List.mem_cons_self heq
    · exact hnodup.2.1.1 (heq ▸ List.mem_map_of_mem hy)
  have hsame : ∀ l'' : List WorkItem, (∀ y ∈ l'', y ∈ l ++ l') →
      l''.map (fun y => if y.ref = a.ref then extendAfter item y else y) = l'' := fun l'' hsub =>
    (List.map_congr_left fun y hy => if_neg (hother y (hsub y hy))).trans (List.map_id l'')
  rw [List.map_append, List.map_cons, if_pos rfl, hsame l fun y hy => List.mem_append_left _ hy,
    hsame l' fun y hy => List.mem_append_right _ hy]
  rcases List.pairwise_append.mp hinOrder with ⟨hl', hal, hcross⟩
  rcases List.pairwise_cons.mp hal with ⟨hal, hl''⟩
  refine List.pairwise_append.mpr ⟨hl', List.pairwise_cons.mpr ⟨fun y hy => hafter.trans (hal y hy), hl''⟩, ?_⟩
  intro y hy z hz
  rcases List.mem_cons.mp hz with rfl | hz
  · exact hbefore y hy
  · exact hcross y hy z (List.mem_cons_of_mem _ hz)

/-- The heap is in order and holds the items, which have different pointers. -/
structure Lists (wh : WorkHeap) (xs : List WorkItem) : Prop where
  ok : wh.Ok
  perm : wh.innerHeap.Perm xs
  nodup : (xs.map WorkItem.ref).Nodup

theorem Lists.permute (h : wh.Lists xs) (hperm : xs.Perm rest) : wh.Lists rest :=
  ⟨h.ok, h.perm.trans hperm, (hperm.map WorkItem.ref).nodup_iff.mp h.nodup⟩

theorem Lists.inner_nodup (h : wh.Lists xs) : (wh.innerHeap.map WorkItem.ref).Nodup :=
  (h.perm.map WorkItem.ref).nodup_iff.mpr h.nodup

theorem Lists.update (h : wh.Lists (x :: rest)) (hok : (wh.update x.ref f).Ok) (href : (f x).ref = x.ref) :
    (wh.update x.ref f).Lists (f x :: rest) := by
  refine ⟨hok, perm_update h.inner_nodup h.perm, ?_⟩
  rw [List.map_cons, href]
  exact h.nodup

theorem Lists.remove (h : wh.Lists (x :: rest)) : (wh.remove x).Lists rest := by
  rcases List.nodup_cons.mp h.nodup with ⟨hx, hnodup⟩
  have hkeep : rest.filter (fun y => y.ref ≠ x.ref) = rest :=
    List.filter_eq_self.mpr fun y hy => decide_eq_true fun heq => hx (heq ▸ List.mem_map_of_mem hy)
  have hfilter := h.perm.filter fun y => y.ref ≠ x.ref
  rw [List.filter_cons, if_neg (by simp), hkeep] at hfilter
  exact ⟨h.ok.delete (h.perm.trans (hfilter.symm.cons x)), hfilter, hnodup⟩

end Update

end WorkHeap

end Titan.Sync
