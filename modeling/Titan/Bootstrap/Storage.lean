import Titan.Database.MemDB
import Titan.PChain.Types

/-!
# Titan.Bootstrap.Storage — fetching and executing the blocks of a chain

The bootstrapper fetches blocks from a tip towards the last accepted block, stores them
with the intervals of their heights (`bootstrap/interval`) and executes them in the order
of their heights (`bootstrap/storage.go`, `bootstrap/bootstrapper.go`).

* The database holds the intervals under their upper bounds and the blocks under their
  heights. Keys are a prefix byte and the height's eight bytes, so that their order is the
  one of heights; here they are the heights themselves.
* The B-tree of intervals is a map from upper to lower bounds.
* A run of the bootstrapper is a list of events. The node can crash between any two
  writes, and what is not in the database or accepted by the VM is then lost.

Not modelled: logs, metrics, compactions, peers and requests for blocks.
-/

namespace Titan.Bootstrap

open Lib
open Database (Bytes)
open PChain (ID GoMap)

/-! ## Database -/

/-- What `interval/state.go` reads and writes. -/
structure DB where
  /-- Lower bounds by upper bounds. -/
  intervals : GoMap ℕ ℕ
  blocks : GoMap ℕ Bytes

inductive DBOp
  | putInterval (upperBound lowerBound : ℕ)
  | deleteInterval (upperBound : ℕ)
  | putBlock (height : ℕ) (bytes : Bytes)
  | deleteBlock (height : ℕ)
deriving DecidableEq

def applyInterval (m : GoMap ℕ ℕ) : DBOp → GoMap ℕ ℕ
  | .putInterval upperBound lowerBound => m.insert upperBound lowerBound
  | .deleteInterval upperBound => m.erase upperBound
  | _ => m

def applyBlock (m : GoMap ℕ Bytes) : DBOp → GoMap ℕ Bytes
  | .putBlock height bytes => m.insert height bytes
  | .deleteBlock height => m.erase height
  | _ => m

/-- Write a batch. -/
def DB.write (db : DB) (batch : List DBOp) : DB where
  intervals := batch.foldl applyInterval db.intervals
  blocks := batch.foldl applyBlock db.blocks

/-! ## Intervals -/

structure Interval where
  lowerBound : ℕ
  upperBound : ℕ
deriving DecidableEq, Repr

namespace Interval

def contains (i : Interval) (height : ℕ) : Bool := i.lowerBound ≤ height ∧ height ≤ i.upperBound

def adjacentToLowerBound (i : Interval) (height : ℕ) : Bool :=
  height < maxUint64 ∧ height + 1 = i.lowerBound

def adjacentToUpperBound (i : Interval) (height : ℕ) : Bool :=
  i.upperBound < maxUint64 ∧ i.upperBound + 1 = height

/-- The interval of an entry. -/
def ofEntry (e : ℕ × ℕ) : Interval := ⟨e.2, e.1⟩

end Interval

structure Tree where
  /-- Lower bounds by upper bounds. -/
  knownHeights : GoMap ℕ ℕ
  numKnownHeights : BitVec 64

def getIntervals (db : DB) : List Interval := (sortedEntries (fun _ => True) db.intervals).map Interval.ofEntry

namespace Tree

def newTree (db : DB) : Tree :=
  (getIntervals db).foldl (fun t i =>
    ⟨t.knownHeights.insert i.upperBound i.lowerBound,
      t.numKnownHeights + (BitVec.ofNat 64 i.upperBound - BitVec.ofNat 64 i.lowerBound + 1)⟩) ⟨∅, 0⟩

/-- The first interval of `AscendGreaterOrEqual`. -/
def ascend (t : Tree) (height : ℕ) : Option Interval := (ceil t.knownHeights height).map Interval.ofEntry

/-- The first interval of `DescendLessOrEqual`. -/
def descend (t : Tree) (height : ℕ) : Option Interval := (floor t.knownHeights height).map Interval.ofEntry

def contains (t : Tree) (height : ℕ) : Bool := (t.ascend height).any (·.contains height)

def flatten (t : Tree) : List Interval :=
  (sortedEntries (fun _ => True) t.knownHeights).map Interval.ofEntry

/-- `Add`: the tree and what is written. -/
def add (t : Tree) (height : ℕ) : Tree × List DBOp :=
  let upper := t.ascend height
  if upper.any (·.contains height) then (t, [])
  else
    let lower := t.descend height
    let n := t.numKnownHeights + 1
    match upper.filter (·.adjacentToLowerBound height), lower.filter (·.adjacentToUpperBound height) with
    | some upper, some lower =>
      (⟨(t.knownHeights.erase lower.upperBound).insert upper.upperBound lower.lowerBound, n⟩,
        [.deleteInterval lower.upperBound, .putInterval upper.upperBound lower.lowerBound])
    | some upper, none =>
      (⟨t.knownHeights.insert upper.upperBound height, n⟩, [.putInterval upper.upperBound height])
    | none, some lower =>
      (⟨(t.knownHeights.erase lower.upperBound).insert height lower.lowerBound, n⟩,
        [.deleteInterval lower.upperBound, .putInterval height lower.lowerBound])
    | none, none => (⟨t.knownHeights.insert height height, n⟩, [.putInterval height height])

/-- `Remove`: the tree and what is written. -/
def remove (t : Tree) (height : ℕ) : Tree × List DBOp :=
  match (t.ascend height).filter (·.contains height) with
  | none => (t, [])
  | some higher =>
    let n := t.numKnownHeights - 1
    if higher.lowerBound = higher.upperBound then
      (⟨t.knownHeights.erase higher.upperBound, n⟩, [.deleteInterval higher.upperBound])
    else if higher.lowerBound = height then
      (⟨t.knownHeights.insert higher.upperBound (height + 1), n⟩,
        [.putInterval higher.upperBound (height + 1)])
    else if higher.upperBound = height then
      (⟨(t.knownHeights.erase height).insert (height - 1) higher.lowerBound, n⟩,
        [.deleteInterval height, .putInterval (height - 1) higher.lowerBound])
    else
      (⟨(t.knownHeights.insert (height - 1) higher.lowerBound).insert higher.upperBound (height + 1), n⟩,
        [.putInterval (height - 1) higher.lowerBound, .putInterval higher.upperBound (height + 1)])

end Tree

/-- `interval.Add`: whether the parent is wanted, the tree and what is written. -/
def addBlock (tree : Tree) (lastAcceptedHeight height : ℕ) (blkBytes : Bytes) : Bool × Tree × List DBOp :=
  if height ≤ lastAcceptedHeight ∨ tree.contains height then (false, tree, [])
  else
    let (tree, ops) := tree.add height
    let nextHeight := height - 1
    (nextHeight ≠ lastAcceptedHeight ∧ ¬ tree.contains nextHeight, tree, .putBlock height blkBytes :: ops)

/-- `interval.Remove`. -/
def removeBlock (tree : Tree) (height : ℕ) : Tree × List DBOp :=
  let (tree, ops) := tree.remove height
  (tree, .deleteBlock height :: ops)

/-! ## Blocks -/

/-- `snowman.Block` and `block.Parser`. A parent ID names the block at the previous height. -/
structure Blocks where
  Block : Type
  id : Block → ID
  parent : Block → ID
  height : Block → ℕ
  bytes : Block → Bytes
  parseBlock : Bytes → Option Block
  height_le : ∀ b, height b ≤ maxUint64
  parse_bytes : ∀ b, parseBlock (bytes b) = some b
  id_injective : Function.Injective id
  parent_height : ∀ b b', id b' = parent b → height b' + 1 = height b

variable (V : Blocks)

inductive StorageErr
  | notFound
  | parse
deriving DecidableEq, Repr

/-- The parent of the stored block at a height. -/
def parentAt (db : DB) (height : ℕ) : Except StorageErr ID :=
  match db.blocks.lookup height with
  | none => .error .notFound
  | some blkBytes =>
    match V.parseBlock blkBytes with
    | none => .error .parse
    | some blk => .ok (V.parent blk)

def getMissingBlockIDs (db : DB) (tree : Tree) (lastAcceptedHeight : ℕ) : Except StorageErr (Finset ID) :=
  let lastHeightToFetch := (lastAcceptedHeight + 1) % 2 ^ 64
  tree.flatten.foldlM (fun missingBlocks i =>
    if i.lowerBound ≤ lastHeightToFetch then .ok missingBlocks
    else (parentAt V db i.lowerBound).map fun parentID => insert parentID missingBlocks) ∅

/-! ## Fetching -/

/-- What `process` changes. -/
structure Fetch where
  tree : Tree
  missingBlockIDs : Finset ID
  batch : List DBOp

/-- The loop of `process`, with the ID of a missing parent. -/
def processLoop (lastAcceptedHeight : ℕ) (ancestors : GoMap ID V.Block) :
    ℕ → Fetch → V.Block → Option (Fetch × Option ID)
  | 0, _, _ => none
  | fuel + 1, f, blk =>
    let missingBlockIDs := f.missingBlockIDs.erase (V.id blk)
    let (wantsParent, tree, ops) := addBlock f.tree lastAcceptedHeight (V.height blk) (V.bytes blk)
    let f := ⟨tree, missingBlockIDs, f.batch ++ ops⟩
    if !wantsParent then some (f, none)
    else
      match ancestors.lookup (V.parent blk) with
      | none => some (f, some (V.parent blk))
      | some parent => processLoop lastAcceptedHeight ancestors fuel f parent

/-- `process`. The heights go down, so the loop ends. -/
def process (tree : Tree) (missingBlockIDs : Finset ID) (lastAcceptedHeight : ℕ) (blk : V.Block)
    (ancestors : GoMap ID V.Block) : Option (Fetch × Option ID) :=
  processLoop V lastAcceptedHeight ancestors (V.height blk + 1) ⟨tree, missingBlockIDs, []⟩ blk

/-! ## Executing -/

def batchWritePeriod : ℕ := 64

def iteratorReleasePeriod : ℕ := 1024

/-- The variables of `execute`. The iterator sees the database as it was when it was made. -/
structure Execution where
  batch : List DBOp
  processedSinceBatchWrite : ℕ
  iterator : List (ℕ × Bytes)
  processedSinceIteratorRelease : ℕ
  lastAcceptedHeight : ℕ

def getBlockIterator (db : DB) : List (ℕ × Bytes) := sortedEntries (fun _ => True) db.blocks

def getBlockIteratorWithStart (db : DB) (height : ℕ) : List (ℕ × Bytes) := sortedEntries (height ≤ ·) db.blocks

def Execution.new (db : DB) (lastAcceptedHeight : ℕ) : Execution :=
  ⟨[], 0, getBlockIterator db, 0, lastAcceptedHeight⟩

def Execution.writeBatch (e : Execution) (db : DB) : DB × Execution :=
  if e.processedSinceBatchWrite = 0 then (db, e)
  else (db.write e.batch, { e with batch := [], processedSinceBatchWrite := 0 })

/-- The batch and the iterator after the removal of a block. -/
def Execution.removed (e : Execution) (db : DB) (height : ℕ) (ops : List DBOp) : DB × Execution :=
  let e := { e with
    batch := e.batch ++ ops
    processedSinceBatchWrite := e.processedSinceBatchWrite + 1 }
  let (db, e) := if batchWritePeriod ≤ e.processedSinceBatchWrite then e.writeBatch db else (db, e)
  let e := { e with processedSinceIteratorRelease := e.processedSinceIteratorRelease + 1 }
  if iteratorReleasePeriod ≤ e.processedSinceIteratorRelease then
    -- the batch must be written here to avoid re-processing a block
    let (db, e) := e.writeBatch db
    (db, { e with
      processedSinceIteratorRelease := 0
      iterator := getBlockIteratorWithStart db ((height + 1) % 2 ^ 64) })
  else (db, e)

/-! ## Runs -/

/-- What the bootstrapper is doing. -/
inductive Engine
  | down
  | fetching (tree : Tree) (missingBlockIDs : Finset ID)
  /-- At the head of the loop of `execute`. -/
  | looping (tree : Tree) (e : Execution)
  /-- Before `Verify` and `Accept`. -/
  | accepting (tree : Tree) (e : Execution) (blk : V.Block)

/-- What survives a crash, and the engine. -/
structure Node where
  db : DB
  /-- The height of the VM's last accepted block. -/
  lastAccepted : ℕ
  /-- The blocks that were accepted, in order. -/
  accepted : List V.Block
  engine : Engine V

inductive Event
  /-- `Start`. -/
  | start
  /-- A block of the accepted frontier is missing. -/
  | want (blkID : ID)
  /-- `Bootstrapper.process`. -/
  | process (blk : V.Block) (ancestors : GoMap ID V.Block)
  /-- `tryStartExecuting`. -/
  | execute
  /-- `shouldHalt` returns true. -/
  | halt
  /-- The loop goes on. -/
  | next
  /-- The block is verified and accepted, or one of both fails. -/
  | accept (ok : Bool)
  | crash

variable {V}

/-- One round of the loop of `execute`, up to the block's verification. -/
def Node.next (n : Node V) (tree : Tree) (e : Execution) : Node V :=
  match e.iterator with
  | [] => { n with db := (e.writeBatch n.db).1, engine := .fetching tree ∅ }
  | (_, blkBytes) :: rest =>
    match V.parseBlock blkBytes with
    | none => { n with engine := .down }
    | some blk =>
      let height := V.height blk
      let (tree, ops) := removeBlock tree height
      let (db, e) := Execution.removed { e with iterator := rest } n.db height ops
      if height ≤ e.lastAcceptedHeight then { n with db := db, engine := .looping tree e }
      else { n with db := db, engine := .accepting tree e blk }

def Node.step (n : Node V) (event : Event V) : Option (Node V) :=
  match event, n.engine with
  | .start, .down =>
    let tree := Tree.newTree n.db
    match getMissingBlockIDs V n.db tree n.lastAccepted with
    | .ok missingBlockIDs => some { n with engine := .fetching tree missingBlockIDs }
    | .error _ => none
  | .want blkID, .fetching tree missingBlockIDs =>
    some { n with engine := .fetching tree (insert blkID missingBlockIDs) }
  | .process blk ancestors, .fetching tree missingBlockIDs =>
    match process V tree missingBlockIDs n.lastAccepted blk ancestors with
    | none => none
    | some (f, none) => some { n with db := n.db.write f.batch, engine := .fetching f.tree f.missingBlockIDs }
    | some (f, some missingBlockID) => some { n with
        db := n.db.write f.batch, engine := .fetching f.tree (insert missingBlockID f.missingBlockIDs) }
  | .execute, .fetching tree missingBlockIDs =>
    if missingBlockIDs = ∅ then some { n with engine := .looping tree (Execution.new n.db n.lastAccepted) }
    else none
  | .halt, .looping tree e => some { n with db := (e.writeBatch n.db).1, engine := .fetching tree ∅ }
  | .next, .looping tree e => some (n.next tree e)
  | .accept true, .accepting tree e blk => some { n with
      lastAccepted := V.height blk, accepted := n.accepted ++ [blk], engine := .looping tree e }
  | .accept false, .accepting _ _ _ => some { n with engine := .down }
  | .crash, _ => some { n with engine := .down }
  | _, _ => none

/-- A run; `none` if an event does not fit. -/
def Node.run (n : Node V) (events : List (Event V)) : Option (Node V) := events.foldlM Node.step n

end Titan.Bootstrap
