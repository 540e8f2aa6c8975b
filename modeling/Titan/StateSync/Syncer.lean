import Titan.Bootstrap.Majority

/-!
# Titan.StateSync.Syncer — which summary to sync to

The state syncer asks a sample of the beacons for their latest state summaries and then all
of them for the ones that they consider accepted. It accepts a summary that enough weight
named, and starts over if too many did not answer (`snowman/syncer/state_syncer.go`).

* The weight of a summary is a big integer, to which the weights of the beacons are added
  after they were read as signed ones, as in the source.
* What the syncer learns, sends, counts and accepts is appended to `log`, with the start of
  each round.
* `Set.Pop` takes any element, and loops over maps and sets run in any order.
* Whether enough of the sample answered is decided with floating-point numbers. Any decision
  is possible here.

The beacons are those of a fixed set. Not modelled: the connections of the startup tracker
(whether it lets the syncer start is an argument), the engine state that is set for other
components, and the calls that fail before they reach the syncer.
-/

namespace Titan.StateSync

open Lib
open PChain (ID NodeID GoMap)
open Bootstrap (GoSet Pick Opinion)

/-- `block.StateSummary`. -/
structure Summary where
  id : ID
  height : ℕ
deriving DecidableEq

structure WeightedSummary where
  summary : Summary
  weight : ℤ
deriving DecidableEq

structure Config where
  stateSyncBeacons : GoMap NodeID (BitVec 64)
  alpha : ℤ
  /-- The comparison of the weight that answered with the part of it that is needed. -/
  enoughFrontiers : (frontiersTotalWeight failedBeaconWeight : ℕ) → Bool

/-- `block.StateSyncMode`. -/
inductive SyncMode
  | skipped
  | static
  | dynamic
  | unhandled
deriving DecidableEq

/-- What `GetOngoingSyncStateSummary` returns. -/
inductive Ongoing
  | notFound
  | found (summary : Summary)
  | failed
deriving DecidableEq

inductive Effect
  /-- A round starts. -/
  | startup
  /-- The VM is syncing to a summary already. -/
  | ongoing (summary : Summary)
  /-- A beacon sent a summary of its frontier. -/
  | learned (summary : Summary)
  | getStateSummaryFrontier (vdrs : Finset NodeID) (requestID : UInt32)
  | getAcceptedStateSummary (vdrs : Finset NodeID) (requestID : UInt32) (heights : List ℕ)
  /-- The vote of a beacon is counted. -/
  | counted (nodeID : NodeID) (summaryIDs : GoSet ID)
  /-- `Accept` of a summary. -/
  | accept (summary : Summary)
  /-- `onDoneStateSyncing`. -/
  | done (requestID : UInt32)
  /-- An error is returned. -/
  | failed
  /-- A method of a nil summary is called. -/
  | nilDereference

/-- What the environment of a step decides. -/
structure Env where
  pick : Pick
  /-- The beacons that are sampled for a new round. -/
  sample : Option (List NodeID)
  ongoing : Ongoing
  /-- The order in which the summaries are visited. -/
  walk : Walk (Sigma fun _ : ID => WeightedSummary)
  /-- What `Accept` of a summary returns. -/
  accept : Option SyncMode

structure Syncer where
  started : Bool
  requestID : UInt32
  locallyAvailableSummary : Option Summary
  /-- The total weight of `frontierSeeders`, which have a weight of one for each time that they
  were sampled. -/
  frontiersTotalWeight : ℕ
  targetSeeders : Finset NodeID
  pendingSeeders : Finset NodeID
  failedSeeders : Finset NodeID
  targetVoters : Finset NodeID
  pendingVoters : Finset NodeID
  failedVoters : Finset NodeID
  weightedSummaries : GoMap ID WeightedSummary
  /-- Without duplicates; `summariesHeights` is the set of these. -/
  uniqueSummariesHeights : List ℕ
  log : List Effect

def new : Syncer :=
  ⟨false, 0, none, 0, ∅, ∅, ∅, ∅, ∅, ∅, ∅, [], []⟩

def maxOutstandingBroadcastRequests : ℕ := 50

/-- The loops of both `send` functions: nodes move from those to be asked to those that were. -/
def reachOut (p : Pick) : ℕ → (target pending vdrs : Finset NodeID) → Finset NodeID × Finset NodeID × Finset NodeID
  | 0, target, pending, vdrs => (target, pending, vdrs)
  | n + 1, target, pending, vdrs =>
    if pending.card < maxOutstandingBroadcastRequests then
      match p.pick target with
      | some vdr => reachOut p n (target.erase vdr) (insert vdr pending) (insert vdr vdrs)
      | none => (target, pending, vdrs)
    else (target, pending, vdrs)

namespace Syncer

variable (cfg : Config) (env : Env) (ss : Syncer)

def emit (effect : Effect) : Syncer := { ss with log := ss.log ++ [effect] }

def sendGetStateSummaryFrontiers : Syncer :=
  let (target, pending, vdrs) := reachOut env.pick ss.targetSeeders.card ss.targetSeeders ss.pendingSeeders ∅
  let ss := { ss with targetSeeders := target, pendingSeeders := pending }
  if 0 < vdrs.card then ss.emit (.getStateSummaryFrontier vdrs ss.requestID) else ss

def sendGetAcceptedStateSummaries : Syncer :=
  let (target, pending, vdrs) := reachOut env.pick ss.targetVoters.card ss.targetVoters ss.pendingVoters ∅
  let ss := { ss with targetVoters := target, pendingVoters := pending }
  if 0 < vdrs.card then ss.emit (.getAcceptedStateSummary vdrs ss.requestID ss.uniqueSummariesHeights) else ss

/-- A summary to vote for. -/
def addSummary (summary : Summary) : Syncer :=
  { ss with
    weightedSummaries := ss.weightedSummaries.insert summary.id ⟨summary, 0⟩
    uniqueSummariesHeights :=
      if summary.height ∈ ss.uniqueSummariesHeights then ss.uniqueSummariesHeights
      else ss.uniqueSummariesHeights ++ [summary.height] }

/-- The trackers are cleared. -/
def clear : Syncer :=
  { ss with
    targetSeeders := ∅
    pendingSeeders := ∅
    failedSeeders := ∅
    targetVoters := ∅
    pendingVoters := ∅
    failedVoters := ∅
    weightedSummaries := ∅
    uniqueSummariesHeights := []
    log := ss.log ++ [.startup] }

/-- The end of `startup`, where the exchange of messages begins. -/
def initiate : Syncer :=
  if ss.targetSeeders.card = 0 then ss.emit (.done ss.requestID)
  else sendGetStateSummaryFrontiers env { ss with requestID := ss.requestID + 1 }

def startup : Syncer :=
  let ss := ss.clear
  match env.sample with
  | none => ss.emit .failed
  | some beaconIDs =>
    let ss := { ss with
      frontiersTotalWeight := beaconIDs.length
      targetSeeders := beaconIDs.toFinset
      targetVoters := cfg.stateSyncBeacons.keys.toFinset }
    match env.ongoing with
    | .failed => ss.emit .failed
    | .notFound => ss.initiate env
    | .found localSummary =>
      let ss := { ss with locallyAvailableSummary := some localSummary }
      ((ss.addSummary localSummary).emit (.ongoing localSummary)).initiate env

def tryStartSyncing (shouldStart : Bool) : Syncer :=
  if ss.started ∨ shouldStart = false then ss else startup cfg env { ss with started := true }

def start (startReqID : UInt32) (shouldStart : Bool) : Syncer :=
  tryStartSyncing cfg env { ss with requestID := startReqID } shouldStart

def subsetWeight (nodes : Finset NodeID) : ℕ := Bootstrap.Poll.trueWeight cfg.stateSyncBeacons nodes

def receivedStateSummaryFrontier : Syncer :=
  let ss := ss.sendGetStateSummaryFrontiers env
  if ss.pendingSeeders.card ≠ 0 then ss
  else if cfg.enoughFrontiers ss.frontiersTotalWeight (subsetWeight cfg ss.failedSeeders) then
    sendGetAcceptedStateSummaries env { ss with requestID := ss.requestID + 1 }
  else ss.startup cfg env

/-- `summary` is the result of parsing the bytes of the message. -/
def stateSummaryFrontier (nodeID : NodeID) (requestID : UInt32) (summary : Option Summary) : Syncer :=
  if requestID ≠ ss.requestID then ss
  else if nodeID ∉ ss.pendingSeeders then ss
  else
    let ss := { ss with pendingSeeders := ss.pendingSeeders.erase nodeID }
    let ss := match summary with
      | some summary => (ss.addSummary summary).emit (.learned summary)
      | none => ss
    ss.receivedStateSummaryFrontier cfg env

def getStateSummaryFrontierFailed (nodeID : NodeID) (requestID : UInt32) : Syncer :=
  if requestID ≠ ss.requestID then ss
  else
    let ss := { ss with
      failedSeeders := insert nodeID ss.failedSeeders
      pendingSeeders := ss.pendingSeeders.erase nodeID }
    ss.receivedStateSummaryFrontier cfg env

/-- One round of the loop over the summaries that a beacon named. -/
def addWeight (nodeWeight : BitVec 64) (weightedSummaries : GoMap ID WeightedSummary) (summaryID : ID) :
    GoMap ID WeightedSummary :=
  match weightedSummaries.lookup summaryID with
  | none => weightedSummaries
  | some ws => weightedSummaries.insert summaryID { ws with weight := ws.weight + nodeWeight.toInt }

/-- Summaries without a sufficient weight are dropped. -/
def dropUnsupported (alpha : ℤ) (weightedSummaries : GoMap ID WeightedSummary) : GoMap ID WeightedSummary :=
  weightedSummaries.entries.foldl (fun m e => if e.2.weight < alpha then m.erase e.1 else m) weightedSummaries

/-- The loop of `selectSyncableStateSummary`. -/
def selectLoop (locallyAvailableSummary : Option Summary) :
    List (Sigma fun _ : ID => WeightedSummary) → (maxSummaryHeight : ℕ) → Option Summary → Option Summary
  | [], _, preferredStateSummary => preferredStateSummary
  | ⟨id, ws⟩ :: rest, maxSummaryHeight, preferredStateSummary =>
    match locallyAvailableSummary.filter (·.id = id) with
    | some localSummary => some localSummary
    | none =>
      if maxSummaryHeight ≤ ws.summary.height then
        selectLoop locallyAvailableSummary rest ws.summary.height (some ws.summary)
      else selectLoop locallyAvailableSummary rest maxSummaryHeight preferredStateSummary

def selectSyncableStateSummary : Option Summary :=
  selectLoop ss.locallyAvailableSummary (env.walk.order ss.weightedSummaries.entries) 0 none

/-- What is done once all votes are counted. -/
def decideVote : Syncer :=
  let ss := { ss with weightedSummaries := dropUnsupported cfg.alpha ss.weightedSummaries }
  if ss.weightedSummaries.entries.length = 0 then
    let beaconsTotalWeight := subsetWeight cfg cfg.stateSyncBeacons.keys.toFinset
    let votingStakes : ℤ := beaconsTotalWeight - subsetWeight cfg ss.failedVoters
    if votingStakes < cfg.alpha then ss.startup cfg env else ss.emit (.done ss.requestID)
  else
    match ss.selectSyncableStateSummary env with
    | none => ss.emit .nilDereference
    | some preferredStateSummary =>
      let ss := ss.emit (.accept preferredStateSummary)
      match env.accept with
      | none => ss.emit .failed
      | some .static => ss
      | some _ => ss.emit (.done ss.requestID)

/-- The vote of a pending voter is counted. -/
def countVote (nodeID : NodeID) (summaryIDs : GoSet ID) : Syncer :=
  let nodeWeight := Bootstrap.Majority.weight cfg.stateSyncBeacons nodeID
  { ss with
    pendingVoters := ss.pendingVoters.erase nodeID
    weightedSummaries := summaryIDs.elems.foldl (addWeight nodeWeight) ss.weightedSummaries
    log := ss.log ++ [.counted nodeID summaryIDs] }

def acceptedStateSummary (nodeID : NodeID) (requestID : UInt32) (summaryIDs : GoSet ID) : Syncer :=
  if requestID ≠ ss.requestID then ss
  else if nodeID ∉ ss.pendingVoters then ss
  else
    let ss := (ss.countVote cfg nodeID summaryIDs).sendGetAcceptedStateSummaries env
    if ss.pendingVoters.card ≠ 0 then ss else ss.decideVote cfg env

def getAcceptedStateSummaryFailed (nodeID : NodeID) (requestID : UInt32) : Syncer :=
  if requestID ≠ ss.requestID then ss
  else
    let ss := { ss with failedVoters := insert nodeID ss.failedVoters }
    ss.acceptedStateSummary cfg env nodeID requestID ⟨[], .nil⟩

end Syncer

/-! ## Runs -/

inductive Event
  | start (startReqID : UInt32) (shouldStart : Bool)
  /-- A node connects. -/
  | connected (shouldStart : Bool)
  | stateSummaryFrontier (nodeID : NodeID) (requestID : UInt32) (summary : Option Summary)
  | getStateSummaryFrontierFailed (nodeID : NodeID) (requestID : UInt32)
  | acceptedStateSummary (nodeID : NodeID) (requestID : UInt32) (summaryIDs : GoSet ID)
  | getAcceptedStateSummaryFailed (nodeID : NodeID) (requestID : UInt32)
  /-- The VM is done. -/
  | notify

def Syncer.step (cfg : Config) (ss : Syncer) (env : Env) : Event → Syncer
  | .start startReqID shouldStart => ss.start cfg env startReqID shouldStart
  | .connected shouldStart => ss.tryStartSyncing cfg env shouldStart
  | .stateSummaryFrontier nodeID requestID summary => ss.stateSummaryFrontier cfg env nodeID requestID summary
  | .getStateSummaryFrontierFailed nodeID requestID => ss.getStateSummaryFrontierFailed cfg env nodeID requestID
  | .acceptedStateSummary nodeID requestID summaryIDs => ss.acceptedStateSummary cfg env nodeID requestID summaryIDs
  | .getAcceptedStateSummaryFailed nodeID requestID => ss.getAcceptedStateSummaryFailed cfg env nodeID requestID
  | .notify => ss.emit (.done ss.requestID)

def run (cfg : Config) (events : List (Env × Event)) : Syncer :=
  events.foldl (fun ss e => ss.step cfg e.1 e.2) new

end Titan.StateSync
