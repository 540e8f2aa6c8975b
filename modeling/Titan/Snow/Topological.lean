import Titan.Snow.Tree

/-!
# Titan.Snow.Topological — Snowman consensus over a tree of blocks

`Topological` keeps the last accepted block and the processing blocks above it.
Each block with children has a snowball tree over them. A poll pushes votes
towards the last accepted block, records them on the snowball trees that reached
the threshold, accepts and rejects blocks, and updates the cached preference.

* A block is its identifier; `Universe` says what `Parent()` and `Height()` return.
* The order in which Go visits a map or a set is an argument of the poll: `ord n`
  orders the n-th visit.
* Walks over the tree carry a bound. Running out of it, or a nil pointer, is
  `none`; on reachable states neither happens.
* `log` is a ghost: the calls of `Accept` and `Reject`, in order. These calls
  succeed here.
-/

namespace Titan.Snow

/-- What the blocks answer: a block's identifier determines its content. -/
structure Universe where
  parent : ID → ID
  height : ID → ℕ

inductive Decision where
  | accepted (id : ID)
  | rejected (id : ID)
deriving DecidableEq, Repr

structure SnowmanBlock (U B : Type) where
  /-- Whether the node holds a block; false for the initial last accepted one. -/
  hasBlk : Bool
  shouldFalter : Bool
  /-- Present from the first child on. -/
  sb : Option (Tree U B)
  children : List ID

structure Topological (U B : Type) where
  lastAcceptedID : ID
  lastAcceptedHeight : ℕ
  /-- The keys of the blocks map. -/
  keys : List ID
  blocks : ID → Option (SnowmanBlock U B)
  preferredIDs : List ID
  preferredHeights : ℕ → Option ID
  preference : ID
  log : List Decision

inductive AddError where
  | duplicateAdd
  | unknownParentBlock
deriving DecidableEq, Repr

def AddError.message : AddError → String
  | duplicateAdd => "duplicate block add"
  | unknownParentBlock => "unknown parent block"

/-- The votes for the children of a block. -/
structure Votes where
  parentID : ID
  votes : Bag ID

structure KahnNode where
  inDegree : ℕ
  votes : Bag ID

variable {U B : Type} (W : Universe) (F : Factory U B) (params : Parameters)

namespace Topological

def Initialize (lastAcceptedID : ID) : Topological U B where
  lastAcceptedID := lastAcceptedID
  lastAcceptedHeight := W.height lastAcceptedID
  keys := [lastAcceptedID]
  blocks := fun id => if id = lastAcceptedID then some ⟨false, false, none, []⟩ else none
  preferredIDs := []
  preferredHeights := fun _ => none
  preference := lastAcceptedID
  log := []

def setBlock (ts : Topological U B) (id : ID) (n : SnowmanBlock U B) : Topological U B :=
  { ts with
    keys := if id ∈ ts.keys then ts.keys else ts.keys ++ [id]
    blocks := Function.update ts.blocks id (some n) }

def deleteBlock (ts : Topological U B) (id : ID) : Topological U B :=
  { ts with
    keys := ts.keys.filter (· ≠ id)
    blocks := Function.update ts.blocks id none }

def processing (ts : Topological U B) (blkID : ID) : Bool :=
  blkID ≠ ts.lastAcceptedID && (ts.blocks blkID).isSome

def isPreferred (ts : Topological U B) (blkID : ID) : Bool :=
  blkID = ts.lastAcceptedID || blkID ∈ ts.preferredIDs

def preferenceAtHeight (ts : Topological U B) (height : ℕ) : Option ID :=
  if height = ts.lastAcceptedHeight then some ts.lastAcceptedID else ts.preferredHeights height

/-- `snowmanBlock.Decided` of the node stored under `id`. -/
def decided (ts : Topological U B) (id : ID) (n : SnowmanBlock U B) : Bool :=
  !n.hasBlk || W.height id ≤ ts.lastAcceptedHeight

/-- `snowmanBlock.AddChild`. -/
def addChild (n : SnowmanBlock U B) (childID : ID) : SnowmanBlock U B :=
  { n with
    sb := match n.sb with
      | none => some (Tree.new F params childID)
      | some sb => some (sb.add F params childID)
    children := if childID ∈ n.children then n.children else n.children ++ [childID] }

/-- `Add`. -/
def add (ts : Topological U B) (blkID : ID) : Except AddError (Topological U B) :=
  if ts.processing blkID then .error .duplicateAdd
  else
    match ts.blocks (W.parent blkID) with
    | none => .error .unknownParentBlock
    | some parentNode =>
      let ts := (ts.setBlock (W.parent blkID) (addChild F params parentNode blkID)).setBlock blkID
        ⟨true, false, none, []⟩
      if ts.preference = W.parent blkID then
        .ok { ts with
          preference := blkID
          preferredIDs := ts.preferredIDs ++ [blkID]
          preferredHeights := Function.update ts.preferredHeights (W.height blkID) (some blkID) }
      else .ok ts

/-! ## Collecting votes -/

/-- The Kahn nodes and the leaves that `calculateInDegree` fills. -/
structure Kahn where
  nodes : ID → Option KahnNode
  leaves : List ID

/-- The walk to the ancestors of a newly seen parent. -/
def markAncestors (ts : Topological U B) : ℕ → ID → Kahn → Option Kahn
  | 0, _, _ => none
  | fuel + 1, id, k =>
    match ts.blocks id with
    | none => none
    | some n =>
      if ts.decided W id n then some k
      else
        let parentID := W.parent id
        match k.nodes parentID with
        | some kahn =>
          -- seen before: no leaf any more, and its ancestors are counted
          let kahn := { kahn with inDegree := kahn.inDegree + 1 }
          some ⟨Function.update k.nodes parentID (some kahn),
            k.leaves.filter (· ≠ parentID)⟩
        | none =>
          markAncestors ts fuel parentID
            ⟨Function.update k.nodes parentID (some ⟨1, Bag.empty⟩), k.leaves⟩

/-- The loop of `calculateInDegree` over the distinct votes. -/
def calculateInDegree (ts : Topological U B) (votes : Bag ID) : List ID → Kahn → Option Kahn
  | [], k => some k
  | vote :: rest, k =>
    match ts.blocks vote with
    | none => calculateInDegree ts votes rest k
    | some n =>
      if ts.decided W vote n then calculateInDegree ts votes rest k
      else
        let parentID := W.parent vote
        let numVotes := votes.count vote
        match k.nodes parentID with
        | some kahn =>
          let kahn := { kahn with votes := kahn.votes.addCount vote numVotes }
          calculateInDegree ts votes rest
            ⟨Function.update k.nodes parentID (some kahn), k.leaves⟩
        | none =>
          match markAncestors W ts (ts.keys.length + 1) parentID
            ⟨Function.update k.nodes parentID (some ⟨0, Bag.empty.addCount vote numVotes⟩),
              k.leaves ++ [parentID]⟩ with
          | none => none
          | some k => calculateInDegree ts votes rest k

/-- `pushVotes`: pop leaves in any order and push their votes to the parents. The
stack is returned with its top first. -/
def pushVotes (ts : Topological U B) (ord : ℕ → List ID → List ID) :
    ℕ → Kahn → List Votes → Option (List Votes)
  | 0, _, _ => none
  | fuel + 1, k, stack =>
    match ord fuel k.leaves with
    | [] => some stack
    | leafID :: _ =>
      match k.nodes leafID, ts.blocks leafID with
      | some kahn, some block =>
        let leaves := k.leaves.filter (· ≠ leafID)
        let stack := if params.alphaPreference ≤ kahn.votes.len then
          ⟨leafID, kahn.votes⟩ :: stack else stack
        if ts.decided W leafID block then
          pushVotes ts ord fuel ⟨k.nodes, leaves⟩ stack
        else
          let parentID := W.parent leafID
          match k.nodes parentID with
          | none => none
          | some parentKahn =>
            let parentKahn : KahnNode := ⟨parentKahn.inDegree - 1,
              parentKahn.votes.addCount leafID kahn.votes.len⟩
            let leaves := if parentKahn.inDegree = 0 then leaves ++ [parentID] else leaves
            pushVotes ts ord fuel
              ⟨Function.update k.nodes parentID (some parentKahn), leaves⟩ stack
      | _, _ => none

/-! ## Accepting and rejecting -/

/-- `rejectTransitively`: the end of the list is the top of the stack. -/
def rejectTransitively (ord : ℕ → List ID → List ID) :
    ℕ → List ID → Topological U B → Option (Topological U B)
  | _, [], ts => some ts
  | 0, _ :: _, _ => none
  | fuel + 1, id :: rest, ts =>
    let rejectedID := (id :: rest).getLast (List.cons_ne_nil _ _)
    match ts.blocks rejectedID with
    | none => none
    | some n =>
      let children := ord fuel n.children
      let ts := ts.deleteBlock rejectedID
      rejectTransitively ord fuel ((id :: rest).dropLast ++ children)
        { ts with log := ts.log ++ children.map .rejected }

/-- `acceptPreferredChild`. -/
def acceptPreferredChild (ts : Topological U B) (ord : ℕ → List ID → List ID)
    (n : SnowmanBlock U B) : Option (Topological U B) :=
  match n.sb with
  | none => none
  | some sb =>
    let pref := sb.preference F
    if pref ∉ n.children then none
    else
      let height := W.height pref
      let rejects := (ord ts.keys.length n.children).filter (· ≠ pref)
      rejectTransitively ord ts.keys.length rejects
        { ts with
          lastAcceptedID := pref
          lastAcceptedHeight := height
          preferredIDs := ts.preferredIDs.filter (· ≠ pref)
          preferredHeights := Function.update ts.preferredHeights height none
          log := ts.log ++ .accepted pref :: rejects.map .rejected }

/-! ## Recording votes -/

/-- Mark the children that must falter before their next vote. -/
def falterChildren (ts : Topological U B) (transitively : Bool) (nextID : ID) :
    List ID → Topological U B
  | [] => ts
  | childID :: rest =>
    let ts := falterChildren ts transitively nextID rest
    if ¬ transitively ∧ childID = nextID then ts
    else
      match ts.blocks childID with
      | none => ts
      | some child => ts.setBlock childID { child with shouldFalter := true }

/-- The loop of `vote`; `ids.Empty` is the zero identifier. -/
def voteLoop (ord : ℕ → ℕ → List ID → List ID) :
    List Votes → ID → Bool → Topological U B → Option (ID × Topological U B)
  | [], newPreferred, _, ts => some (newPreferred, ts)
  | vote :: stack, newPreferred, onPreferredBranch, ts =>
    match ts.blocks vote.parentID with
    -- rejected in the meantime: stop applying votes
    | none => some (newPreferred, ts)
    | some parentBlock =>
      match parentBlock.sb with
      | none => none
      | some sb =>
        let transitively := parentBlock.shouldFalter
        let sb := if transitively then sb.recordUnsuccessfulPoll else sb
        let sb := (sb.recordPoll F params vote.votes).1
        let parentBlock := { parentBlock with sb := some sb, shouldFalter := false }
        let ts := ts.setBlock vote.parentID parentBlock
        let decision :=
          if sb.finalized F ∧ ts.lastAcceptedID = vote.parentID then
            (acceptPreferredChild W F ts (ord stack.length) parentBlock).map
              (·.deleteBlock vote.parentID)
          else some ts
        match decision with
        | none => none
        | some ts =>
          let parentPreference := sb.preference F
          let newPreferred := if onPreferredBranch then parentPreference else newPreferred
          let nextID := (stack.head?.map (·.parentID)).getD 0
          let ts := falterChildren ts transitively nextID parentBlock.children
          voteLoop ord stack newPreferred
            (onPreferredBranch && nextID = parentPreference) ts

/-- `vote`. -/
def vote (ts : Topological U B) (ord : ℕ → ℕ → List ID → List ID) (stack : List Votes) :
    Option (ID × Topological U B) :=
  match stack with
  | [] =>
    match ts.blocks ts.lastAcceptedID with
    | none => none
    | some n => some (ts.preference, ts.setBlock ts.lastAcceptedID { n with shouldFalter := true })
  | _ :: _ => voteLoop W F params ord stack ts.lastAcceptedID true ts

/-! ## Polls -/

/-- The walk from the preferred block to the last accepted one. -/
def preferAncestors : ℕ → ID → Topological U B → Option (Topological U B)
  | 0, _, _ => none
  | fuel + 1, id, ts =>
    match ts.blocks id with
    | none => none
    | some n =>
      if ts.decided W id n then some ts
      else preferAncestors fuel (W.parent id)
        { ts with
          preferredIDs := ts.preferredIDs ++ [id]
          preferredHeights := Function.update ts.preferredHeights (W.height id) (some id) }

/-- The walk from the preferred block to the preferred leaf. -/
def preferDescendants : ℕ → ID → Topological U B → Option (Topological U B)
  | 0, _, _ => none
  | fuel + 1, id, ts =>
    match ts.blocks id with
    | none => none
    | some n =>
      match n.sb with
      | none => some ts
      | some sb =>
        let pref := sb.preference F
        preferDescendants fuel pref
          { ts with
            preference := pref
            preferredIDs := ts.preferredIDs ++ [pref]
            preferredHeights :=
              Function.update ts.preferredHeights (W.height pref) (some pref) }

/-- What a poll visits in an order of its own: the votes, the leaves, and the
children of each block it votes on. -/
structure PollOrder where
  votes : List ID → List ID
  leaves : ℕ → List ID → List ID
  children : ℕ → ℕ → List ID → List ID

/-- The first part of `RecordPoll`: with fewer than `AlphaPreference` votes the stack
stays empty. -/
def collectVotes (ts : Topological U B) (ord : PollOrder) (voteBag : Bag ID) :
    Option (List Votes) :=
  if params.alphaPreference ≤ voteBag.len then
    (calculateInDegree W ts voteBag (ord.votes voteBag.list) ⟨fun _ => none, []⟩).bind fun k =>
      pushVotes W params ts ord.leaves (ts.keys.length + 1) k []
  else some []

/-- The last part of `RecordPoll`: nothing to do when the block is already preferred. -/
def updatePreference (ts : Topological U B) (preferred : ID) : Option (Topological U B) :=
  if preferred ∈ ts.preferredIDs then some ts
  else
    (preferAncestors W (ts.keys.length + 1) preferred
      { ts with
        preferredIDs := []
        preferredHeights := fun _ => none
        preference := preferred }).bind fun ts =>
      preferDescendants W F (ts.keys.length + 1) preferred ts

/-- `RecordPoll`. -/
def recordPoll (ts : Topological U B) (ord : PollOrder) (voteBag : Bag ID) :
    Option (Topological U B) := do
  let stack ← collectVotes W params ts ord voteBag
  let (preferred, ts) ← vote W F params ts ord.children stack
  updatePreference W F ts preferred

end Topological

end Titan.Snow
