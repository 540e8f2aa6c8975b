import Titan.Sync.Manager
import Titan.Sync.Merging

/-!
# Titan.Sync.Ranges — the ranges of state sync

The ranges that are queued, worked on and done are a `Tiling` of all keys, as long as no
goroutine takes a shortcut that changes what it holds: an item that stands at the target
root already has its end queued again (`completeWorkItem` is told its end as the next
key), and an item met by the empty target root loses its start.
-/

namespace Titan.Sync

open Lib
open Database (Bytes)
open PChain (ID)

namespace Manager

/-- The ranges of the unprocessed, processed and in-flight items. -/
def ranges (m : Manager) : List (KeyRange Bytes) :=
  m.unprocessedWork.innerHeap.map WorkItem.range ++
    (m.processedWork.innerHeap.map WorkItem.range ++ m.tasks.filterMap Task.range)

/-- Two ranges have different starts and share at most one key, which is a bound of both. -/
def Touch (r r' : KeyRange Bytes) : Prop :=
  r.start ≠ r'.start ∧ ∀ k k', r.Contains k → r'.Contains k → r.Contains k' → r'.Contains k' →
    k = k' ∧ ((r.stop = some k ∧ r'.start = some k) ∨ (r'.stop = some k ∧ r.start = some k))

/-- The ranges cover all keys and only touch, and what is done stands at the target root. -/
structure Sound (m : Manager) : Prop where
  covers : ∀ k, ∃ r ∈ m.ranges, r.Contains k
  touch : m.ranges.Pairwise Touch
  roots : ∀ item ∈ m.processedWork.innerHeap, item.localRootID = m.targetRoot

/-- The next key of a proof is strictly inside the range. -/
def Valid (m : Manager) : Event → Prop
  | .respond t (some (some key)) => ∀ work rootID, m.tasks[t]? = some (.requested work rootID) →
      work.range.Inside key
  | _ => True

/-- No shortcut is taken by an item with an end that stands at the target root, and none for
the empty target root by an item with a start. -/
def Careful (m : Manager) : Event → Prop
  | .go t => ∀ work, m.tasks[t]? = some (.started work) →
      (work.localRootID ≠ emptyID → work.localRootID = m.targetRoot → work.stop = none) ∧
      (m.targetRoot = emptyID → work.start = none)
  | _ => True

/-- States that steps with a property lead to. -/
inductive Reaches (P : Manager → Event → Prop) (m₀ : Manager) : Manager → Prop
  | start : Reaches P m₀ m₀
  | step {m m' : Manager} (event : Event) (h : Reaches P m₀ m) (hevent : P m event)
      (hstep : m.step event = some m') : Reaches P m₀ m'

/-- What is added to the queue of work is a range, in one piece or in two. -/
def Queues (m m' : Manager) (r : KeyRange Bytes) : Prop :=
  ∃ added, m'.unprocessedWork.innerHeap = m.unprocessedWork.innerHeap ++ added ∧
    (added.map WorkItem.range = [r] ∨
      ∃ mid, r.Inside mid ∧ added.map WorkItem.range = [⟨r.start, some mid⟩, ⟨some mid, r.stop⟩])

/-- What completing an item puts back as work: what the proof left open, and what is done
only if the target has changed meanwhile. -/
structure PutsBack (m : Manager) : Prop where
  /-- An item that stands at the target root has nothing left. -/
  atTarget : ∀ t work m', m.tasks[t]? = some (.started work) → work.localRootID ≠ emptyID →
    work.localRootID = m.targetRoot → m.Careful (.go t) → m.step (.go t) = some m' →
    m'.tasks[t]? = some (.settled work none m.targetRoot)
  rest : ∀ t work largestHandledKey rootID m', m.tasks[t]? = some (.settled work largestHandledKey rootID) →
    m.step (.go t) = some m' →
    (largestHandledKey = none → m'.unprocessedWork = m.unprocessedWork) ∧
    ∀ key, largestHandledKey = some key → Queues m m' ⟨some key, work.stop⟩
  done : ∀ t work largestHandledKey rootID m', m.tasks[t]? = some (.completing work largestHandledKey rootID) →
    m.step (.go t) = some m' →
    (m.targetRoot = rootID → m'.unprocessedWork = m.unprocessedWork) ∧
    (m.targetRoot ≠ rootID → Queues m m' ⟨work.start, largestHandledKey⟩)

/-! ## Tilings -/

variable {r : KeyRange Bytes}

theorem touch_of_before {r' : KeyRange Bytes} (hlt : StartLT r.start r'.start) (h : r.Before r') :
    Touch r r' := by
  rcases h with ⟨y, x, hy, hx, hle⟩
  -- a key of both ranges is the common bound
  have hbound : ∀ k, r.Contains k → r'.Contains k → k = y ∧ k = x := by
    intro k hk hk'
    have hky := hk.2 y hy
    have hxk := hk'.1 x hx
    exact ⟨le_antisymm hky (hle.trans hxk), le_antisymm (hky.trans hle) hxk⟩
  refine ⟨hlt.ne, fun k k' hk hk' hl hl' => ?_⟩
  have hkey := hbound k hk hk'
  refine ⟨hkey.1.trans (hbound k' hl hl').1.symm, .inl ⟨?_, ?_⟩⟩
  · rw [hy, hkey.1]
  · rw [hx, hkey.2]

theorem Touch.symm {r' : KeyRange Bytes} (h : Touch r r') : Touch r' r :=
  ⟨h.1.symm, fun k k' hk hk' hl hl' => ⟨(h.2 k k' hk' hk hl' hl).1, (h.2 k k' hk' hk hl' hl).2.symm⟩⟩

theorem touch_of_tiling {l : List (KeyRange Bytes)} (h : Tiling l) : l.Pairwise Touch := by
  refine h.apart.imp fun {r r'} hr => ?_
  rcases hr with ⟨hlt, hbefore⟩ | ⟨hlt, hbefore⟩
  · exact touch_of_before hlt hbefore
  · exact (touch_of_before hlt hbefore).symm

variable {others : List (KeyRange Bytes)}

/-- In a tiling a range shares its start with no other one. -/
theorem start_ne {items : List WorkItem} (h : Tiling (r :: (items.map WorkItem.range ++ others))) :
    ∀ x ∈ items, x.start ≠ r.start := by
  intro x hx
  have htouch := (List.pairwise_cons.mp (touch_of_tiling h)).1 x.range
    (List.mem_append_left _ (List.mem_map_of_mem hx))
  exact htouch.1.symm

/-! ## Queues -/

/-- A range that completes a tiling can be put into a heap. -/
theorem tiling_insert {wh : WorkHeap} (item : WorkItem) (others : List (KeyRange Bytes)) (hok : wh.Ok)
    (h : Tiling (item.range :: (wh.innerHeap.map WorkItem.range ++ others))) :
    (wh.insert item).Ok ∧ Tiling ((wh.insert item).innerHeap.map WorkItem.range ++ others) := by
  have hperm : (wh.insert item).innerHeap.Perm (item :: wh.innerHeap) :=
    List.perm_append_singleton item wh.innerHeap
  exact ⟨hok.insert (start_ne h), h.perm ((hperm.map WorkItem.range).append_right others)⟩

/-- What `enqueueWork` does. -/
structure Enqueued (m : Manager) (work : WorkItem) (m' : Manager) (others : List (KeyRange Bytes)) : Prop where
  ok : m'.unprocessedWork.Ok
  tiling : Tiling (m'.unprocessedWork.innerHeap.map WorkItem.range ++ others)
  queues : Queues m m' work.range
  same : m' = { m with unprocessedWork := m'.unprocessedWork, nextRef := m'.nextRef }
  nextRef : m.nextRef < m'.nextRef

variable {work : WorkItem}

variable {m : Manager}

theorem enqueueWork_spec (hok : m.unprocessedWork.Ok)
    (h : Tiling (work.range :: (m.unprocessedWork.innerHeap.map WorkItem.range ++ others))) :
    Enqueued m work (m.enqueueWork work) others := by
  have hwhole : Enqueued m work
      { m with unprocessedWork := m.unprocessedWork.insert work, nextRef := m.nextRef + 1 } others := by
    rcases tiling_insert work others hok h with ⟨hok', htiling⟩
    exact ⟨hok', htiling, ⟨[work], rfl, .inl rfl⟩, rfl, Nat.lt_succ_self _⟩
  unfold enqueueWork
  split
  · exact hwhole
  · dsimp only
    split
    · exact hwhole
    next hsplit =>
      rw [not_or] at hsplit
      rcases midPoint_spec (h.proper List.mem_cons_self) with hstart | hstop | ⟨mid, hmid, hinside⟩
      · exact absurd hstart.symm hsplit.1
      · exact absurd hstop hsplit.2
      · replace hmid : midPoint work.start work.stop = some mid := hmid
        rw [hmid]
        -- the second half is queued after the first
        have hhalves := h.split hinside
        have hfirst := tiling_insert ⟨m.nextRef + 1, work.start, some mid, .med, work.localRootID⟩
          (⟨some mid, work.stop⟩ :: others) hok
          (hhalves.perm (List.Perm.cons _ List.perm_middle))
        have hsecond := tiling_insert ⟨m.nextRef + 2, some mid, work.stop, .low, work.localRootID⟩
          others hfirst.1 (hfirst.2.perm List.perm_middle.symm)
        refine ⟨hsecond.1, hsecond.2, ⟨[_, _], List.append_assoc _ _ _, .inr ⟨mid, hinside, rfl⟩⟩, rfl, ?_⟩
        exact Nat.lt_add_of_pos_right (by decide)

/-! ## The invariant -/

structure Inv (m : Manager) : Prop where
  tiling : Tiling m.ranges
  unprocessed : m.unprocessedWork.Ok
  processed : m.processedWork.Ok
  nodup : (m.processedWork.innerHeap.map WorkItem.ref).Nodup
  fresh : ∀ r ∈ m.processedWork.innerHeap.map WorkItem.ref, r < m.nextRef
  roots : ∀ item ∈ m.processedWork.innerHeap, item.localRootID = m.targetRoot
  settled : ∀ work key rootID, Task.settled work (some key) rootID ∈ m.tasks → work.range.Inside key

theorem Inv.sound (h : m.Inv) : m.Sound :=
  ⟨h.tiling.covers, touch_of_tiling h.tiling, h.roots⟩

theorem inv_start (targetRoot : ID) (limit : ℕ) : (start targetRoot limit).Inv where
  tiling := Tiling.whole
  unprocessed := WorkHeap.Ok.empty.insert (List.forall_mem_nil _)
  processed := WorkHeap.Ok.empty
  nodup := List.nodup_nil
  fresh := List.forall_mem_nil _
  roots := List.forall_mem_nil _
  settled _ _ _ := nofun

section Tasks

variable {tasks : List Task} {t : ℕ} {task : Task}

/-- A task among the others. -/
structure Among (tasks : List Task) (t : ℕ) (task : Task) (l l' : List Task) : Prop where
  eq : tasks = l ++ task :: l'
  set : ∀ task', tasks.set t task' = l ++ task' :: l'
  erase : tasks.eraseIdx t = l ++ l'

theorem Among.of_getElem? (h : tasks[t]? = some task) : ∃ l l', Among tasks t task l l' := by
  rcases List.getElem?_eq_some_iff.mp h with ⟨ht, rfl⟩
  refine ⟨tasks.take t, tasks.drop (t + 1), ?_, fun task' => ?_, List.eraseIdx_eq_take_drop_succ _ _⟩
  · rw [List.getElem_cons_drop, List.take_append_drop]
  · exact List.set_eq_take_append_cons_drop.trans (if_pos ht)

theorem ranges_append_cons (l l' : List Task) (task : Task) :
    ((l ++ task :: l').filterMap Task.range).Perm (task.range.toList ++ (l ++ l').filterMap Task.range) := by
  have hmiddle : (l ++ task :: l').Perm (task :: (l ++ l')) := List.perm_middle
  refine (hmiddle.filterMap Task.range).trans ?_
  rw [List.filterMap_cons]
  rcases task.range with _ | r
  · exact List.Perm.refl _
  · exact List.Perm.refl _

/-- The ranges with the one of a task in front. -/
theorem ranges_perm {l l' : List Task} (h : m.tasks = l ++ task :: l') :
    m.ranges.Perm (task.range.toList ++ (m.unprocessedWork.innerHeap.map WorkItem.range ++
      (m.processedWork.innerHeap.map WorkItem.range ++ (l ++ l').filterMap Task.range))) := by
  unfold ranges
  rw [h]
  have htasks := ranges_append_cons l l' task
  refine ((htasks.append_left _).append_left _).trans ?_
  have hfront : ((m.unprocessedWork.innerHeap.map WorkItem.range ++ m.processedWork.innerHeap.map WorkItem.range) ++
      task.range.toList).Perm _ := List.perm_append_comm
  simpa only [List.append_assoc] using hfront.append_right ((l ++ l').filterMap Task.range)

end Tasks

section Steps

variable {m m' : Manager} {t : ℕ} {task task' : Task} {l l' : List Task}

variable {rootID : ID}

variable (h : m.Inv)
include h

section

variable (hamong : Among m.tasks t task l l')
include hamong

theorem Inv.settled_of_mem {key : Bytes}
    (hmem : Task.settled work (some key) rootID ∈ l ++ l') : work.range.Inside key := by
  refine h.settled work key rootID ?_
  rw [hamong.eq, List.perm_middle.mem_iff]
  exact List.mem_cons_of_mem _ hmem

theorem Inv.settled_set
    (hsettled : ∀ work key rootID, task' = .settled work (some key) rootID → work.range.Inside key) :
    ∀ work key rootID, Task.settled work (some key) rootID ∈ m.tasks.set t task' → work.range.Inside key := by
  intro work key rootID hmem
  rw [hamong.set, List.perm_middle.mem_iff] at hmem
  rcases List.mem_cons.mp hmem with heq | hmem
  · exact hsettled work key rootID heq.symm
  · exact h.settled_of_mem hamong hmem

/-- A task turns into another one on the same range. -/
theorem Inv.retask (hrange : task'.range = task.range)
    (hsettled : ∀ work key rootID, task' = .settled work (some key) rootID → work.range.Inside key) :
    Inv { m with tasks := m.tasks.set t task' } := by
  refine ⟨?_, h.unprocessed, h.processed, h.nodup, h.fresh, h.roots, ?_⟩
  · have hbefore := h.tiling.perm (ranges_perm hamong.eq).symm
    rw [← hrange] at hbefore
    exact hbefore.perm (ranges_perm (m := { m with tasks := m.tasks.set t task' }) (hamong.set task'))
  · exact h.settled_set hamong hsettled

/-- The ranges of a task's manager, in the order in which the heaps are changed. -/
theorem Inv.front (hr : task.range = some r) :
    Tiling (r :: (m.unprocessedWork.innerHeap.map WorkItem.range ++
      (m.processedWork.innerHeap.map WorkItem.range ++ (l ++ l').filterMap Task.range))) := by
  have hbefore := h.tiling.perm (ranges_perm hamong.eq).symm
  rw [hr] at hbefore
  exact hbefore

/-- Work is queued for the range of a task, which keeps a part of it or nothing. -/
theorem Inv.enqueue (task' : Task) (work : WorkItem)
    (htiling : Tiling (work.range :: (m.unprocessedWork.innerHeap.map WorkItem.range ++
      (task'.range.toList ++ (m.processedWork.innerHeap.map WorkItem.range ++ (l ++ l').filterMap Task.range)))))
    (hsettled : ∀ work key rootID, task' ≠ .settled work (some key) rootID) :
    Inv { m.enqueueWork work with tasks := m.tasks.set t task' } ∧ Queues m (m.enqueueWork work) work.range := by
  have hspec := enqueueWork_spec h.unprocessed htiling
  refine ⟨?_, hspec.queues⟩
  rw [hspec.same]
  refine ⟨?_, hspec.ok, h.processed, h.nodup, fun r hr => (h.fresh r hr).trans hspec.nextRef, h.roots, ?_⟩
  · refine hspec.tiling.perm (.trans (ranges_perm (hamong.set task')) ?_)
    exact List.perm_append_comm_assoc _ _ _
  · exact h.settled_set hamong fun work key rootID heq => absurd heq (hsettled work key rootID)

end

omit h in
theorem tasks_enqueueWork (m : Manager) (work : WorkItem) : (m.enqueueWork work).tasks = m.tasks := by
  unfold enqueueWork
  split
  · rfl
  · dsimp only
    split
    · rfl
    · rfl

omit h in
/-- A careful request keeps the item's range and leaves nothing to queue. -/
theorem request_spec
    (hstop : work.localRootID ≠ emptyID → work.localRootID = m.targetRoot → work.stop = none)
    (hstart : m.targetRoot = emptyID → work.start = none) :
    (request m.targetRoot work).range = some work.range ∧
      ∀ w key rootID, request m.targetRoot work ≠ .settled w (some key) rootID := by
  have hsame : m.targetRoot = emptyID → ({ work with start := none } : WorkItem).range = work.range := by
    intro hempty
    unfold WorkItem.range
    rw [hstart hempty]
  unfold request
  split
  · split
    next hempty => exact ⟨congrArg some (hsame hempty), by simp⟩
    next => exact ⟨rfl, by simp⟩
  next hlocal =>
    split
    next htarget =>
      refine ⟨rfl, fun w key rootID heq => ?_⟩
      rw [hstop hlocal htarget] at heq
      cases heq
    next =>
      split
      next hempty => exact ⟨congrArg some (hsame hempty), by simp⟩
      next => exact ⟨rfl, by simp⟩

/-- What is left of an item is queued. -/
theorem Inv.queueRest {largest : Option Bytes}
    (hamong : Among m.tasks t (.settled work largest rootID) l l') :
    Inv { (m.queueRest work largest).1 with
      tasks := (m.queueRest work largest).1.tasks.set t (.completing work (m.queueRest work largest).2 rootID) } ∧
    (∀ key, largest = some key → Queues m (m.queueRest work largest).1 ⟨some key, work.stop⟩) ∧
    (largest = none → (m.queueRest work largest).1 = m) := by
  have hmem : Task.settled work largest rootID ∈ m.tasks :=
    hamong.eq ▸ List.mem_append_right _ List.mem_cons_self
  rcases largest with _ | key
  · exact ⟨h.retask hamong rfl (by simp), by simp, fun _ => rfl⟩
  · have hfront := h.front hamong rfl
    -- the goroutine keeps what is done
    have hsplit := (hfront.split (h.settled work key rootID hmem)).perm
      (List.Perm.swap (⟨work.start, some key⟩ : KeyRange Bytes) ⟨some key, work.stop⟩ _)
    have hspec := h.enqueue hamong (.completing work (some key) rootID)
      ⟨m.nextRef, some key, work.stop, work.priority, work.localRootID⟩
      (hsplit.perm (List.Perm.cons _ List.perm_middle)) (by simp)
    unfold Manager.queueRest
    rw [tasks_enqueueWork]
    exact ⟨hspec.1, fun key' heq => Option.some.inj heq ▸ hspec.2, by simp⟩

/-- What is done is recorded, or queued again for another target. -/
theorem Inv.recordDone {largest : Option Bytes}
    (hamong : Among m.tasks t (.completing work largest rootID) l l') :
    Inv { m.recordDone work largest rootID with
      tasks := (m.recordDone work largest rootID).tasks.set t .finished } ∧
    (m.targetRoot = rootID → (m.recordDone work largest rootID).unprocessedWork = m.unprocessedWork) ∧
    (m.targetRoot ≠ rootID → Queues m (m.recordDone work largest rootID) ⟨work.start, largest⟩) := by
  have hfront := h.front hamong rfl
  unfold Manager.recordDone
  by_cases hstale : m.targetRoot ≠ rootID
  · rw [if_pos hstale, tasks_enqueueWork]
    have hspec := h.enqueue hamong .finished ⟨m.nextRef, work.start, largest, .high, rootID⟩ hfront (by simp)
    exact ⟨hspec.1, fun heq => absurd heq hstale, fun _ => hspec.2⟩
  · rw [if_neg hstale]
    rw [not_not] at hstale
    set item : WorkItem := ⟨m.nextRef, work.start, largest, work.priority, rootID⟩
    have hprocessed : Tiling (item.range :: (m.processedWork.innerHeap.map WorkItem.range ++
        (m.unprocessedWork.innerHeap.map WorkItem.range ++ (l ++ l').filterMap Task.range))) :=
      hfront.perm ((List.perm_append_comm_assoc _ _ _).cons _)
    have hinserted : WorkHeap.Inserted m.processedWork item (m.processedWork.mergeInsert item) :=
      WorkHeap.inserted_mergeInsert h.processed h.nodup (start_ne hprocessed)
        fun hmem => lt_irrefl _ (h.fresh _ hmem)
    refine ⟨⟨?_, h.unprocessed, hinserted.ok, hinserted.nodup, ?_, ?_, ?_⟩, fun _ => rfl, fun hne => absurd hstale hne⟩
    · refine (hinserted.tiling _ hprocessed).perm (.trans (ranges_perm (hamong.set .finished)) ?_)
      exact List.perm_append_comm_assoc (m.unprocessedWork.innerHeap.map WorkItem.range) _ _
    · intro r hr
      rcases List.mem_map.mp hr with ⟨x, hx, rfl⟩
      rcases hinserted.refs x hx with heq | hold
      · rw [heq]
        exact Nat.lt_succ_self _
      · exact (h.fresh _ hold).trans (Nat.lt_succ_self _)
    · intro x hx
      rcases hinserted.roots x hx with heq | ⟨y, hy, heq⟩
      · exact heq.trans hstale.symm
      · exact heq.trans (h.roots y hy)
    · exact h.settled_set hamong (by simp)

/-- A goroutine that is done has no range. -/
theorem Inv.finish (hamong : Among m.tasks t .finished l l') :
    Inv { m with tasks := m.tasks.eraseIdx t, processingWorkItems := m.processingWorkItems - 1 } := by
  refine ⟨?_, h.unprocessed, h.processed, h.nodup, h.fresh, h.roots, ?_⟩
  · have hbefore := h.tiling.perm (ranges_perm hamong.eq).symm
    rw [hamong.erase]
    exact hbefore
  · intro work key rootID hmem
    have hmem' : Task.settled work (some key) rootID ∈ l ++ l' := hamong.erase ▸ hmem
    exact h.settled_of_mem hamong hmem'

theorem Inv.goTask (hcareful : m.Careful (.go t)) (htask : m.tasks[t]? = some task)
    (hstep : m.goTask t task = some m') : m'.Inv := by
  rcases Among.of_getElem? htask with ⟨l, l', hamong⟩
  cases task with
  | started work =>
    cases hstep
    rcases hcareful work htask with ⟨hstop, hstart⟩
    rcases request_spec hstop hstart with ⟨hrange, hnothing⟩
    exact h.retask hamong hrange fun w key rootID heq => absurd heq (hnothing w key rootID)
  | requested work rootID => cases hstep
  | settled work largest rootID =>
    cases hstep
    exact (h.queueRest hamong).1
  | completing work largest rootID =>
    cases hstep
    exact (h.recordDone hamong).1
  | finished =>
    cases hstep
    exact h.finish hamong

theorem Inv.dispatch {i : ℕ} (hstep : m.step (.dispatch i) = some m') : m'.Inv := by
  unfold step at hstep
  dsimp only at hstep
  split at hstep
  next => cases hstep
  next =>
    split at hstep
    next => cases hstep
    next work unprocessedWork hwork =>
      cases hstep
      rcases WorkHeap.getWork_spec h.unprocessed hwork with ⟨hok, hperm⟩
      refine ⟨?_, hok, h.processed, h.nodup, h.fresh, h.roots, ?_⟩
      · refine h.tiling.perm (.trans (ranges_perm rfl) ?_)
        rw [List.append_nil]
        exact ((hperm.map WorkItem.range).append_right _).symm
      · intro w key rootID hmem
        rcases List.mem_append.mp hmem with hmem | hmem
        · exact h.settled w key rootID hmem
        · cases List.mem_singleton.mp hmem

theorem Inv.respond {nextKey : Option (Option Bytes)} (hvalid : m.Valid (.respond t nextKey))
    (hstep : m.step (.respond t nextKey) = some m') : m'.Inv := by
  unfold step at hstep
  dsimp only at hstep
  split at hstep
  next work rootID largest htask =>
    cases hstep
    rcases Among.of_getElem? htask with ⟨l, l', hamong⟩
    refine h.retask hamong rfl fun w key r heq => ?_
    cases heq
    exact hvalid work rootID htask
  next work rootID htask =>
    -- the item is queued again
    cases hstep
    rcases Among.of_getElem? htask with ⟨l, l', hamong⟩
    have hfront := h.front hamong rfl
    rcases tiling_insert { work with priority := .retry } _ h.unprocessed hfront with ⟨hok, htiling⟩
    refine ⟨?_, hok, h.processed, h.nodup, h.fresh, h.roots, ?_⟩
    · exact htiling.perm (.trans (ranges_perm (hamong.set .finished)) (.refl _))
    · exact h.settled_set hamong (by simp)
  next => cases hstep

omit h in
/-- All items move from one heap into another one. -/
theorem tiling_insertAll (items : List WorkItem) {wh : WorkHeap} (hok : wh.Ok)
    (h : Tiling (wh.innerHeap.map WorkItem.range ++ (items.map WorkItem.range ++ others))) :
    (items.foldl (fun wh item => wh.insert { item with priority := .high }) wh).Ok ∧
    Tiling ((items.foldl (fun wh item => wh.insert { item with priority := .high }) wh).innerHeap.map
      WorkItem.range ++ others) := by
  induction items generalizing wh with
  | nil => exact ⟨hok, h⟩
  | cons item items ih =>
    rcases tiling_insert { item with priority := .high } (items.map WorkItem.range ++ others) hok
      (h.perm List.perm_middle.symm) with ⟨hok', htiling⟩
    exact ih hok' htiling

theorem Inv.updateSyncTarget (syncTargetRoot : ID) : (m.updateSyncTarget syncTargetRoot).Inv := by
  unfold Manager.updateSyncTarget
  split
  · exact h
  · rcases tiling_insertAll m.processedWork.innerHeap h.unprocessed h.tiling with ⟨hok, htiling⟩
    exact ⟨htiling, hok, WorkHeap.Ok.empty, List.nodup_nil, List.forall_mem_nil _, List.forall_mem_nil _, h.settled⟩

theorem Inv.step {event : Event} (hvalid : m.Valid event) (hcareful : m.Careful event)
    (hstep : m.step event = some m') : m'.Inv := by
  cases event with
  | dispatch i => exact h.dispatch hstep
  | go t =>
    rcases Option.bind_eq_some_iff.mp hstep with ⟨task, htask, hgo⟩
    exact h.goTask hcareful htask hgo
  | respond t nextKey => exact h.respond hvalid hstep
  | updateSyncTarget syncTargetRoot =>
    cases hstep
    exact h.updateSyncTarget syncTargetRoot

theorem Inv.putsBack : m.PutsBack := by
  have hgo : ∀ {t task m'}, m.tasks[t]? = some task → m.step (.go t) = some m' → m.goTask t task = some m' := by
    intro t task m' htask hstep
    rwa [Manager.step, htask] at hstep
  refine ⟨?_, ?_, ?_⟩
  · intro t work m' htask hlocal htarget hcareful hstep
    cases hgo htask hstep
    have hlt : t < m.tasks.length := (List.getElem?_eq_some_iff.mp htask).1
    rw [List.getElem?_set_self hlt, request, if_neg hlocal, if_pos htarget, (hcareful work htask).1 hlocal htarget]
  · intro t work largest rootID m' htask hstep
    rcases Among.of_getElem? htask with ⟨l, l', hamong⟩
    rcases h.queueRest hamong with ⟨-, hqueues, hnothing⟩
    cases hgo htask hstep
    constructor
    · intro heq
      show (m.queueRest work largest).1.unprocessedWork = _
      rw [hnothing heq]
    · intro key heq
      exact hqueues key heq
  · intro t work largest rootID m' htask hstep
    rcases Among.of_getElem? htask with ⟨l, l', hamong⟩
    rcases h.recordDone hamong with ⟨-, hfresh, hstale⟩
    cases hgo htask hstep
    exact ⟨hfresh, hstale⟩

end Steps

/-! ## Runs -/

/-- In every run without the two shortcuts the ranges cover all keys and only touch, what is
done stands at the target root, and completing an item puts back what is left of it. -/
theorem ranges_kept (targetRoot : ID) (limit : ℕ) (m : Manager)
    (h : Reaches (fun m event => m.Valid event ∧ m.Careful event) (start targetRoot limit) m) :
    m.Sound ∧ m.PutsBack := by
  have hinv : m.Inv := by
    induction h with
    | start => exact inv_start targetRoot limit
    | step event _ hevent hstep ih => exact ih.step hevent.1 hevent.2 hstep
  exact ⟨hinv.sound, hinv.putsBack⟩

/-- Events that are fine in any state. -/
theorem Reaches.run {P : Manager → Event → Prop} {m₀ m' : Manager} (h : Reaches P m₀ m)
    (events : List Event) (hevents : ∀ event ∈ events, ∀ m, P m event)
    (hrun : m.run events = some m') : Reaches P m₀ m' := by
  induction events generalizing m with
  | nil =>
    cases hrun
    exact h
  | cons event events ih =>
    rcases Option.bind_eq_some_iff.mp hrun with ⟨m₁, hstep, hrest⟩
    exact ih (.step event h (hevents event List.mem_cons_self m) hstep)
      (fun e he => hevents e (List.mem_cons_of_mem _ he)) hrest

/-- The first proof is requested, and the target changes. -/
theorem ranges_kept_newTarget :
    ∃ m, (start 1 1).run [.dispatch 0, .go 0, .updateSyncTarget 2] = some m ∧ m.Sound ∧ m.PutsBack := by
  refine ⟨_, rfl, ranges_kept 1 1 _ ?_⟩
  have hfirst : Reaches (fun m event => m.Valid event ∧ m.Careful event) (start 1 1) _ :=
    .step (.dispatch 0) .start ⟨trivial, trivial⟩ rfl
  refine .step (.updateSyncTarget 2) (.step (.go 0) hfirst ⟨trivial, fun work hwork => ?_⟩ rfl) ⟨trivial, trivial⟩ rfl
  cases hwork
  exact ⟨fun hne => absurd rfl hne, fun hempty => absurd hempty (by decide)⟩

/-! ## The shortcuts -/

/-- A first proof up to the key `[5]` is recorded. -/
def firstProof : List Event := [.dispatch 0, .go 0, .respond 0 (some (some [5])), .go 0, .go 0, .go 0]

/-- The target goes to another root and back, and the item that is done is taken up again. -/
def backAndForth : List Event := [.updateSyncTarget 2, .updateSyncTarget 1, .dispatch 2, .go 0, .go 0]

/-- The target becomes the empty root, and two items are taken up. -/
def toEmpty : List Event :=
  [.updateSyncTarget 0, .dispatch 2, .go 0, .go 0, .go 0, .go 0, .dispatch 0, .go 0, .go 0, .go 0]

/-- The response to the first request is valid, and so is everything without a next key. -/
theorem reaches_of_firstProof (events : List Event)
    (hevents : ∀ event ∈ events, ∀ m : Manager, m.Valid event)
    (hrun : (start 1 1).run (firstProof ++ events) = some m) : Reaches Valid (start 1 1) m := by
  have hrequested : Reaches Valid (start 1 1) _ := .run .start [.dispatch 0, .go 0] (by simp [Valid]) rfl
  have hresponded := Reaches.step (.respond 0 (some (some [5]))) hrequested (fun work rootID hwork => by
    cases hwork
    exact ⟨by simp [WorkItem.range], by simp [WorkItem.range]⟩) rfl
  have hsplit : firstProof ++ events =
      [.dispatch 0, .go 0, .respond 0 (some (some [5]))] ++ ([.go 0, .go 0, .go 0] ++ events) := rfl
  rw [hsplit, Manager.run, List.foldlM_append] at hrun
  rcases Option.bind_eq_some_iff.mp hrun with ⟨m₃, hm₃, hrun⟩
  cases hm₃
  exact hresponded.run _ (by simpa [Valid] using hevents) hrun

/-- An item that stands at the target root has its end queued again, next to the range that
starts there; and with the empty target root two items come to start at no bound. -/
theorem shortcuts_break_ranges :
    (∃ m, Reaches Valid (start 1 1) m ∧
      m.ranges = [⟨some [5], some [130]⟩, ⟨some [130], none⟩, ⟨some [5], some [5]⟩, ⟨none, some [5]⟩] ∧ ¬ m.Sound) ∧
    ∃ m, Reaches Valid (start 1 1) m ∧
      m.ranges = [⟨some [130], none⟩, ⟨none, some [5]⟩, ⟨none, some [130]⟩] ∧ ¬ m.Sound := by
  constructor
  · refine ⟨_, reaches_of_firstProof backAndForth (by simp [backAndForth, Valid]) rfl, rfl, fun hsound => ?_⟩
    exact ((List.pairwise_cons.mp hsound.touch).1 ⟨some [5], some [5]⟩ (by decide)).1 rfl
  · refine ⟨_, reaches_of_firstProof toEmpty (by simp [toEmpty, Valid]) rfl, rfl, fun hsound => ?_⟩
    exact ((List.pairwise_cons.mp (List.pairwise_cons.mp hsound.touch).2).1 ⟨none, some [130]⟩ (by decide)).1 rfl

end Manager

end Titan.Sync
