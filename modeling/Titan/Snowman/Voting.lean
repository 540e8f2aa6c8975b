import Titan.Snowman.AncestorTree
import Titan.Snow.Consensus

/-!
# Titan.Snowman.Voting — blocks and votes in the Snowman engine

The engine hands verified blocks to consensus. A block that it could not verify, or whose
parent it gave up, is recorded under its parent, so that a vote for it can be applied to the
nearest ancestor that is processing.

* The model has the parts of the engine that decide where a vote goes. Jobs that become
  runnable inside a job are separate steps here: they run after the job's own changes.
* Consensus wraps each block in a `memoryBlock`, whose `Accept` and `Reject` prune the
  record. Consensus and the record do not read each other, so the pruning of a poll is done
  after the poll, in the order of its decisions.
* `polls` is an interface: its answer to a response is an argument.
* Metrics, queries and the metadata of jobs are left out.
-/

namespace Titan.Snowman

open Snow

variable {U B NodeID : Type}

/-- The blocks that the VM can return or parse. Their parents do not form a cycle: `rank`
orders them. -/
structure VM extends Universe where
  blocks : Set ID
  rank : ID → ℕ
  rank_parent : ∀ b ∈ blocks, rank (parent b) < rank b

/-- `b.2` says whether `Verify` accepts the block `b.1`: then its height is right. -/
def VM.Verifies (vm : VM) (b : ID × Bool) : Prop :=
  b.1 ∈ vm.blocks ∧ (b.2 = true → vm.height b.1 = vm.height (vm.parent b.1) + 1)

/-- A call of `polls.Vote`, or of `polls.Drop` without a vote. -/
structure Response (NodeID : Type) where
  requestID : ℕ
  nodeID : NodeID
  vote : Option ID

structure Engine (U B NodeID : Type) where
  consensus : Topological U B
  unverifiedIDToAncestor : AncestorTree ID
  /-- The blocks that the cache holds. -/
  unverifiedBlockCache : ID → Bool
  /-- Ghost: the calls to `polls`, in order. -/
  responses : List (Response NodeID)

variable (W : Universe) (F : Factory U B) (params : Parameters)

/-- What `memoryBlock` removes when the block is decided. -/
def prunes : Decision → ID
  | .accepted id => W.parent id
  | .rejected id => id

/-- The calls of `memoryBlock.Accept` and `memoryBlock.Reject` of one poll. -/
def prune (order : Finset ID → List ID) :
    List Decision → AncestorTree ID → Option (AncestorTree ID)
  | [], t => some t
  | d :: rest, t => (t.removeDescendants order (prunes W d)).bind (prune order rest)

namespace Engine

def start (lastAcceptedID : ID) : Engine U B NodeID where
  consensus := Topological.Initialize W lastAcceptedID
  unverifiedIDToAncestor := .NewTree
  unverifiedBlockCache := fun _ => false
  responses := []

def canIssueChildOn (e : Engine U B NodeID) (parentID : ID) : Bool :=
  parentID = e.consensus.lastAcceptedID || e.consensus.processing parentID

def isDecided (e : Engine U B NodeID) (blkID : ID) : Bool :=
  let height := W.height blkID
  if height ≤ e.consensus.lastAcceptedHeight then true
  else height - 1 = e.consensus.lastAcceptedHeight && W.parent blkID ≠ e.consensus.lastAcceptedID

/-! ## Blocks -/

def markAsUnverified (e : Engine U B NodeID) (blkID : ID) : Engine U B NodeID :=
  if e.consensus.processing blkID then e
  else
    let parentID := W.parent blkID
    if e.unverifiedIDToAncestor.has parentID || e.consensus.processing parentID then
      { e with
        unverifiedIDToAncestor := e.unverifiedIDToAncestor.add blkID parentID
        unverifiedBlockCache := Function.update e.unverifiedBlockCache blkID true }
    else e

def addUnverifiedBlockToConsensus (e : Engine U B NodeID) (blk : ID × Bool) :
    Except AddError (Bool × Engine U B NodeID) :=
  if blk.2 then
    match e.consensus.add W F params blk.1 with
    | .error err => .error err
    | .ok ts => .ok (true,
        { e with
          consensus := ts
          unverifiedIDToAncestor := e.unverifiedIDToAncestor.remove blk.1
          unverifiedBlockCache := Function.update e.unverifiedBlockCache blk.1 false })
  else .ok (false, e.markAsUnverified W blk.1)

/-- The loop over the options of an oracle block. -/
def addOptions : List (ID × Bool) → Engine U B NodeID → Except AddError (Engine U B NodeID)
  | [], e => .ok e
  | blk :: rest, e =>
    match e.addUnverifiedBlockToConsensus W F params blk with
    | .error err => .error err
    | .ok (_, e) => addOptions rest e

/-- `deliver`; a block that is no oracle block has no options. -/
def deliver (e : Engine U B NodeID) (blk : ID × Bool) (options : List (ID × Bool)) :
    Except AddError (Engine U B NodeID) :=
  if !e.canIssueChildOn (W.parent blk.1) || e.consensus.processing blk.1 then .ok e
  else
    match e.addUnverifiedBlockToConsensus W F params blk with
    | .error err => .error err
    | .ok (blkAdded, e) => if blkAdded then addOptions W F params options e else .ok e

/-- `issuer.Execute`. -/
def issue (e : Engine U B NodeID) (abandoned : Bool) (blk : ID × Bool)
    (options : List (ID × Bool)) : Except AddError (Engine U B NodeID) :=
  if abandoned then .ok (e.markAsUnverified W blk.1) else e.deliver W F params blk options

/-! ## Votes -/

/-- The loop of `getProcessingAncestor`; a loop that does not end is `none`. -/
def bubble (e : Engine U B NodeID) (bubbledVote : ID) : Option (Option ID) :=
  if e.consensus.processing bubbledVote then some (some bubbledVote)
  else if !e.unverifiedBlockCache bubbledVote then some none
  else if e.isDecided W bubbledVote then some none
  else by apply bubble; exacts [e, W.parent bubbledVote]
partial_fixpoint

def getProcessingAncestor (e : Engine U B NodeID) (initialVote : ID) : Option (Option ID) :=
  (e.unverifiedIDToAncestor.getAncestor initialVote).bind (e.bubble W)

/-- The loop of `voter.Execute` over the options. -/
def selectVote (e : Engine U B NodeID) : List ID → Option (Option ID)
  | [] => some none
  | voteOption :: rest =>
    match e.getProcessingAncestor W voteOption with
    | none => none
    | some (some vote) => some (some vote)
    | some none => e.selectVote rest

/-- The loop of `voter.Execute` over the finished polls. -/
def recordPolls (order : Finset ID → List ID) (ord : ℕ → Topological.PollOrder) :
    List (Bag ID) → Engine U B NodeID → Option (Engine U B NodeID)
  | [], e => some e
  | result :: rest, e =>
    (e.consensus.recordPoll W F params (ord rest.length) result).bind fun ts =>
    (prune W order (ts.log.drop e.consensus.log.length) e.unverifiedIDToAncestor).bind fun t =>
    recordPolls order ord rest { e with consensus := ts, unverifiedIDToAncestor := t }

/-- `voter.Execute`; `polls` is the answer of the poll set. -/
def vote (e : Engine U B NodeID) (order : Finset ID → List ID) (ord : ℕ → Topological.PollOrder)
    (polls : Response NodeID → List (Bag ID)) (requestID : ℕ) (nodeID : NodeID)
    (responseOptions : List ID) : Option (Engine U B NodeID) :=
  (e.selectVote W responseOptions).bind fun vote =>
  let response : Response NodeID := ⟨requestID, nodeID, vote⟩
  recordPolls W F params order ord (polls response)
    { e with responses := e.responses ++ [response] }

/-- The states of the runs that start from the last accepted block `root`. The cache may lose
any of its blocks at any time. -/
inductive Reachable (vm : VM) (root : ID) : Engine U B NodeID → Prop where
  | start (hroot : root ∈ vm.blocks) : Reachable vm root (Engine.start vm.toUniverse root)
  | issue {e e' : Engine U B NodeID} {abandoned : Bool} {blk : ID × Bool}
      {options : List (ID × Bool)} (hr : Reachable vm root e)
      (hblks : ∀ b ∈ blk :: options, vm.Verifies b)
      (hissue : e.issue vm.toUniverse F params abandoned blk options = .ok e') :
      Reachable vm root e'
  | vote {e e' : Engine U B NodeID} {order : Finset ID → List ID} {ord : ℕ → Topological.PollOrder}
      {polls : Response NodeID → List (Bag ID)} {requestID : ℕ} {nodeID : NodeID}
      {responseOptions : List ID} (hr : Reachable vm root e)
      (horder : ∀ s, (order s : Multiset ID) = s.val) (hord : ∀ n, (ord n).Lawful)
      (hvote : e.vote vm.toUniverse F params order ord polls requestID nodeID responseOptions =
        some e') : Reachable vm root e'
  | evict {e : Engine U B NodeID} (hr : Reachable vm root e) (keep : ID → Bool) :
      Reachable vm root
        { e with unverifiedBlockCache := fun id => e.unverifiedBlockCache id && keep id }

end Engine

end Titan.Snowman
