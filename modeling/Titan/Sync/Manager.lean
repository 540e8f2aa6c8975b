import Titan.Sync.MidPoint
import Titan.Sync.WorkHeap

/-!
# Titan.Sync.Manager — the manager of state sync

The manager (`x/sync/manager.go`) hands out key ranges to goroutines that request proofs
of them, and queues again what a proof leaves open. The target root can change at any time.

* A goroutine holds the work lock only for short steps, and others run in between. A
  `Task` is what a goroutine is about to do next.
* Responses are events: a failed or invalid one, or the next key that `CommitRangeProof` or
  `CommitChangeProof` returned for a valid one.

Not modelled: fatal errors and `Close`, the backoff of retries, and the proofs themselves.
-/

namespace Titan.Sync

open Lib
open Database (Bytes)
open PChain (ID)

/-- `ids.Empty`. -/
def emptyID : ID := 0

/-- What a goroutine does next. -/
inductive Task
  /-- `doWork`: read the target root. -/
  | started (work : WorkItem)
  /-- Wait for the response to a request for a root. -/
  | requested (work : WorkItem) (rootID : ID)
  /-- `completeWorkItem`: queue what is left. -/
  | settled (work : WorkItem) (largestHandledKey : Option Bytes) (rootID : ID)
  /-- `completeWorkItem`: record what is done. -/
  | completing (work : WorkItem) (largestHandledKey : Option Bytes) (rootID : ID)
  /-- `finishWorkItem`. -/
  | finished
deriving DecidableEq, Repr

/-- The range a goroutine works on. -/
def Task.range : Task → Option (KeyRange Bytes)
  | .started work => some work.range
  | .requested work _ => some work.range
  | .settled work _ _ => some work.range
  | .completing work largestHandledKey _ => some ⟨work.start, largestHandledKey⟩
  | .finished => none

structure Manager where
  targetRoot : ID
  simultaneousWorkLimit : ℕ
  processingWorkItems : ℕ
  unprocessedWork : WorkHeap
  processedWork : WorkHeap
  tasks : List Task
  /-- The pointer of the next new item. -/
  nextRef : ℕ
deriving DecidableEq, Repr

namespace Manager

/-- `Start`. -/
def start (targetRoot : ID) (simultaneousWorkLimit : ℕ) : Manager where
  targetRoot := targetRoot
  simultaneousWorkLimit := simultaneousWorkLimit
  processingWorkItems := 0
  unprocessedWork := WorkHeap.empty.insert ⟨0, none, none, .low, emptyID⟩
  processedWork := WorkHeap.empty
  tasks := []
  nextRef := 1

/-- `enqueueWork`; the pointer of `work` is the next new one. -/
def enqueueWork (m : Manager) (work : WorkItem) : Manager :=
  if 2 * m.simultaneousWorkLimit < m.processingWorkItems + m.unprocessedWork.innerHeap.length then
    { m with unprocessedWork := m.unprocessedWork.insert work, nextRef := m.nextRef + 1 }
  else
    let mid := midPoint work.start work.stop
    if work.start = mid ∨ mid = work.stop then
      -- the range is too small to split
      { m with unprocessedWork := m.unprocessedWork.insert work, nextRef := m.nextRef + 1 }
    else
      let first : WorkItem := ⟨m.nextRef + 1, work.start, mid, .med, work.localRootID⟩
      let second : WorkItem := ⟨m.nextRef + 2, mid, work.stop, .low, work.localRootID⟩
      { m with unprocessedWork := (m.unprocessedWork.insert first).insert second, nextRef := m.nextRef + 3 }

/-- `requestRangeProof` and `requestChangeProof` up to the response. -/
def request (targetRootID : ID) (work : WorkItem) : Task :=
  if work.localRootID = emptyID then
    if targetRootID = emptyID then .settled { work with start := none } none targetRootID
    else .requested work targetRootID
  else if work.localRootID = targetRootID then .settled work work.stop targetRootID
  else if targetRootID = emptyID then .settled { work with start := none } none targetRootID
  else .requested work targetRootID

/-- `completeWorkItem` up to the target lock. -/
def queueRest (m : Manager) (work : WorkItem) (largestHandledKey : Option Bytes) : Manager × Option Bytes :=
  match largestHandledKey with
  | none => (m, work.stop)
  | some key => (m.enqueueWork ⟨m.nextRef, some key, work.stop, work.priority, work.localRootID⟩, some key)

/-- `completeWorkItem` under the target lock. -/
def recordDone (m : Manager) (work : WorkItem) (largestHandledKey : Option Bytes) (rootID : ID) : Manager :=
  if m.targetRoot ≠ rootID then
    m.enqueueWork ⟨m.nextRef, work.start, largestHandledKey, .high, rootID⟩
  else
    { m with
      processedWork := m.processedWork.mergeInsert ⟨m.nextRef, work.start, largestHandledKey, work.priority, rootID⟩
      nextRef := m.nextRef + 1 }

/-- `UpdateSyncTarget`. The items come out of the heap in the order of their priorities,
which the other heap does not keep. -/
def updateSyncTarget (m : Manager) (syncTargetRoot : ID) : Manager :=
  if m.targetRoot = syncTargetRoot then m
  else
    { m with
      targetRoot := syncTargetRoot
      unprocessedWork := m.processedWork.innerHeap.foldl (fun wh item =>
        wh.insert { item with priority := .high }) m.unprocessedWork
      processedWork := WorkHeap.empty }

end Manager

inductive Event
  /-- `sync` pops the item at a place of the heap and starts a goroutine. -/
  | dispatch (i : ℕ)
  /-- The goroutine `t` takes a step of its own. -/
  | go (t : ℕ)
  /-- The response to goroutine `t`: the next key of a valid proof, or no valid proof. -/
  | respond (t : ℕ) (nextKey : Option (Option Bytes))
  | updateSyncTarget (syncTargetRoot : ID)
deriving DecidableEq, Repr

namespace Manager

/-- A step of a goroutine that does not wait for a response. -/
def goTask (m : Manager) (t : ℕ) : Task → Option Manager
  | .started work => some { m with tasks := m.tasks.set t (request m.targetRoot work) }
  | .requested _ _ => none
  | .settled work largestHandledKey rootID =>
    let (m, largestHandledKey) := m.queueRest work largestHandledKey
    some { m with tasks := m.tasks.set t (.completing work largestHandledKey rootID) }
  | .completing work largestHandledKey rootID =>
    let m := m.recordDone work largestHandledKey rootID
    some { m with tasks := m.tasks.set t .finished }
  | .finished =>
    some { m with tasks := m.tasks.eraseIdx t, processingWorkItems := m.processingWorkItems - 1 }

def step (m : Manager) : Event → Option Manager
  | .dispatch i =>
    if m.simultaneousWorkLimit ≤ m.processingWorkItems then none
    else
      match m.unprocessedWork.getWork i with
      | none => none
      | some (work, unprocessedWork) => some { m with
          processingWorkItems := m.processingWorkItems + 1
          unprocessedWork := unprocessedWork
          tasks := m.tasks ++ [.started work] }
  | .go t => (m.tasks[t]?).bind (m.goTask t)
  | .respond t nextKey =>
    match m.tasks[t]?, nextKey with
    | some (.requested work rootID), some largestHandledKey =>
      some { m with tasks := m.tasks.set t (.settled work largestHandledKey rootID) }
    | some (.requested work _), none => some { m with
        -- `retryWork`
        unprocessedWork := m.unprocessedWork.insert { work with priority := .retry }
        tasks := m.tasks.set t .finished }
    | _, _ => none
  | .updateSyncTarget syncTargetRoot => some (m.updateSyncTarget syncTargetRoot)

def run (m : Manager) (events : List Event) : Option Manager := events.foldlM step m

end Manager

end Titan.Sync
