import Titan.Lib.Store
import Titan.PChain.Types

/-!
# Titan.Bootstrap.Majority — the majority poll of bootstrapping

All nodes are asked which blocks they consider accepted, a limited number of them at a
time, and the blocks of more than half of the weight are the result
(`bootstrapper/majority.go`, `bootstrapper/requests.go`).

* Weights are 64-bit words. The weight a block has received is a big integer, and the
  total weight is a sum of words that were read as signed ones, as in the source.
* `Set.Pop` takes any element, and loops over maps and sets run in any order.

Not modelled: logs.
-/

namespace Titan.Bootstrap

open Lib
open PChain (ID NodeID GoMap)

/-- A set, in the order in which a loop visits it. -/
structure GoSet (α : Type) where
  elems : List α
  nodup : elems.Nodup

/-- The choices of `Set.Pop`. -/
structure Pick where
  pick : Finset NodeID → Option NodeID
  mem : ∀ s n, pick s = some n → n ∈ s
  empty : ∀ s, pick s = none → s = ∅

/-! ## Requests -/

structure Requests where
  maxOutstanding : ℕ
  pendingSend : Finset NodeID
  outstanding : Finset NodeID

namespace Requests

/-- The loop of `GetPeers`: `n` nodes move from `pendingSend` to `nodeIDs`. -/
def popNodes (p : Pick) : ℕ → Finset NodeID → Finset NodeID → Finset NodeID × Finset NodeID
  | 0, pendingSend, nodeIDs => (pendingSend, nodeIDs)
  | n + 1, pendingSend, nodeIDs =>
    match p.pick pendingSend with
    | some nodeID => popNodes p n (pendingSend.erase nodeID) (insert nodeID nodeIDs)
    -- the zero value that Pop returns for the empty set
    | none => popNodes p n pendingSend (insert 0 nodeIDs)

/-- `GetPeers`: the nodes to ask and the requests after it. -/
def getPeers (r : Requests) (p : Pick) : Finset NodeID × Requests :=
  let numPending := r.outstanding.card
  if r.maxOutstanding ≤ numPending then (∅, r)
  else
    let numToSend := min (r.maxOutstanding - numPending) r.pendingSend.card
    let (pendingSend, nodeIDs) := popNodes p numToSend r.pendingSend ∅
    (nodeIDs, { r with pendingSend := pendingSend, outstanding := r.outstanding ∪ nodeIDs })

def recordResponse (r : Requests) (nodeID : NodeID) : Bool × Requests :=
  (nodeID ∈ r.outstanding, { r with outstanding := r.outstanding.erase nodeID })

def finished (r : Requests) : Bool := r.pendingSend.card = 0 ∧ r.outstanding.card = 0

end Requests

/-! ## The poll -/

structure Majority where
  requests : Requests
  nodeWeights : GoMap NodeID (BitVec 64)
  received : GoMap ID ℤ
  accepted : List ID

namespace Majority

def newMajority (nodeWeights : GoMap NodeID (BitVec 64)) (maxOutstanding : ℕ) : Majority where
  requests := ⟨maxOutstanding, nodeWeights.keys.toFinset, ∅⟩
  nodeWeights := nodeWeights
  received := ∅
  accepted := []

/-- `nodeWeights[nodeID]`. -/
def weight (nodeWeights : GoMap NodeID (BitVec 64)) (nodeID : NodeID) : BitVec 64 :=
  (nodeWeights.lookup nodeID).getD 0

/-- One round of the loop over the reported blocks. -/
def addReceived (weight : ℤ) (received : GoMap ID ℤ) (blkID : ID) : GoMap ID ℤ :=
  match received.lookup blkID with
  | some r => received.insert blkID (r + weight)
  | none => received.insert blkID weight

/-- `totalWeight`, from `int64(weight)`. -/
def totalWeight (nodeWeights : GoMap NodeID (BitVec 64)) : ℤ :=
  (nodeWeights.entries.map fun e => e.2.toInt).sum

def requiredWeight (nodeWeights : GoMap NodeID (BitVec 64)) : ℤ := totalWeight nodeWeights / 2 + 1

/-- `RecordOpinion`; `walk` is the order in which it visits `received`. -/
def recordOpinion (m : Majority) (nodeID : NodeID) (blkIDs : GoSet ID)
    (walk : Walk (Sigma fun _ : ID => ℤ)) : Majority :=
  let (expected, requests) := m.requests.recordResponse nodeID
  let m := { m with requests := requests }
  if expected then
    let weight : ℤ := (weight m.nodeWeights nodeID).toNat
    let m := { m with received := blkIDs.elems.foldl (addReceived weight) m.received }
    if m.requests.finished then
      { m with
        accepted := m.accepted ++
          ((walk.order m.received.entries).filter fun e => requiredWeight m.nodeWeights ≤ e.2).map (·.1) }
    else m
  else m

def getPeers (m : Majority) (p : Pick) : Finset NodeID × Majority :=
  let (nodeIDs, requests) := m.requests.getPeers p
  (nodeIDs, { m with requests := requests })

def result (m : Majority) : List ID × Bool := (m.accepted, m.requests.finished)

end Majority

/-! ## Runs -/

inductive PollOp
  | getPeers (p : Pick)
  | recordOpinion (nodeID : NodeID) (blkIDs : GoSet ID) (walk : Walk (Sigma fun _ : ID => ℤ))

/-- An opinion that was counted. -/
abbrev Opinion := NodeID × GoSet ID

/-- A poll with the opinions that it has counted. -/
structure Poll where
  majority : Majority
  counted : List Opinion

namespace Poll

def step (s : Poll) : PollOp → Poll
  | .getPeers p => { s with majority := (s.majority.getPeers p).2 }
  | .recordOpinion nodeID blkIDs walk =>
    ⟨s.majority.recordOpinion nodeID blkIDs walk,
      if (s.majority.requests.recordResponse nodeID).1 then s.counted ++ [(nodeID, blkIDs)] else s.counted⟩

def run (nodeWeights : GoMap NodeID (BitVec 64)) (maxOutstanding : ℕ) (ops : List PollOp) : Poll :=
  ops.foldl step ⟨Majority.newMajority nodeWeights maxOutstanding, []⟩

/-- The nodes that reported the block. -/
def reporters (counted : List Opinion) (blkID : ID) : Finset NodeID :=
  ((counted.filter fun o => blkID ∈ o.2.elems).map Prod.fst).toFinset

/-- The true weight of some nodes. -/
def trueWeight (nodeWeights : GoMap NodeID (BitVec 64)) (nodes : Finset NodeID) : ℕ :=
  ∑ n ∈ nodes, (Majority.weight nodeWeights n).toNat

/-- The result is the list of the blocks that more than half of the weight reported. -/
def ResultIsMajority (s : Poll) : Prop :=
  s.majority.accepted.Nodup ∧
    ∀ blkID, blkID ∈ s.majority.accepted ↔
      trueWeight s.majority.nodeWeights s.majority.nodeWeights.keys.toFinset <
        2 * trueWeight s.majority.nodeWeights (reporters s.counted blkID)

/-- What is expected of a poll at any time. -/
structure Correct (maxOutstanding : ℕ) (s : Poll) : Prop where
  outstanding : s.majority.requests.outstanding.card ≤ maxOutstanding
  once : (s.counted.map Prod.fst).Nodup
  result : s.majority.requests.finished → s.ResultIsMajority

end Poll

end Titan.Bootstrap
