import Titan.Lib.SortedMap
import Titan.PChain.Types

/-!
# Titan.ProposerVM.State — the blocks that the proposer VM keeps

The proposer VM wraps the blocks of an inner VM from the fork on. It keeps the accepted
wrappers with an index by height, in a database of its own that is committed before the
inner VM accepts a block (`vms/proposervm/vm.go`, `height_indexed_vm.go`,
`post_fork_block.go`, `post_fork_option.go`, `state/`).

* A start rolls the last accepted block back to that of the inner VM, loads what is kept in
  memory about it and deletes old blocks.
* Heights are 64-bit: differences wrap around.
* `commits` are the states that were committed, the last one first. A crash can leave each
  of them.

Not modelled: caches, which are empty at a start and hold what the database holds, blocks
that are verified and not yet accepted, and failures of the databases. The inner VM parses
the inner blocks of the blocks that were kept.
-/

namespace Titan.ProposerVM

open Lib
open PChain (ID)

/-- Unix seconds. -/
abbrev Time := ℤ

/-- `time.Time{}`. -/
def zeroTime : Time := -62135596800

/-- The difference of two `uint64`. -/
def sub64 (a b : ℕ) : ℕ := (a + 2 ^ 64 - b) % 2 ^ 64

structure InnerBlock where
  id : ID
  height : ℕ
deriving DecidableEq, Repr

/-- A block of the proposer VM. A signed one has a timestamp, an option has none. -/
structure Block where
  id : ID
  parentID : ID
  inner : InnerBlock
  timestamp : Option Time
deriving DecidableEq, Repr

def Block.height (b : Block) : ℕ := b.inner.height

/-- `State`. -/
structure State where
  lastAccepted : Option ID
  blocks : AList fun _ : ID => Block
  heights : AList fun _ : ℕ => ID
  forkHeight : Option ℕ

inductive VMError
  | notFound
  /-- The proposer VM is behind the inner VM. -/
  | heightTooLow (outerHeight innerHeight : ℕ)
  | failedRollback (height : ℕ)
  | outOfFuel
deriving DecidableEq, Repr

/-- What the proposer VM asks the inner VM for. -/
structure InnerVM where
  lastAccepted : InnerBlock
  getBlockIDAtHeight : ℕ → Option ID

structure VM where
  numHistoricalBlocks : ℕ
  state : State
  commits : List State
  lastAcceptedHeight : ℕ
  lastAcceptedTime : Time

namespace VM

variable (vm : VM)

def commit : VM := { vm with commits := vm.state :: vm.commits }

def getPostForkBlock (blkID : ID) : Option Block := vm.state.blocks.lookup blkID

/-! ## The height index -/

def getBlockIDAtHeight (inner : InnerVM) (height : ℕ) : Option ID :=
  match vm.state.forkHeight with
  | some forkHeight =>
    if height < forkHeight then inner.getBlockIDAtHeight height else vm.state.heights.lookup height
  | none => inner.getBlockIDAtHeight height

/-- Delete the block that is indexed at a height. -/
def deleteAtHeight (height : ℕ) (blkID : ID) : VM :=
  { vm with state :=
    { vm.state with heights := vm.state.heights.erase height, blocks := vm.state.blocks.erase blkID } }

def updateHeightIndex (height : ℕ) (blkID : ID) : VM :=
  let forkHeight := vm.state.forkHeight.getD height
  let vm := { vm with state :=
    { vm.state with forkHeight := some forkHeight, heights := vm.state.heights.insert height blkID } }
  if vm.numHistoricalBlocks = 0 then vm
  else if sub64 height forkHeight ≤ vm.numHistoricalBlocks then vm
  else
    let heightToDelete := sub64 (sub64 height vm.numHistoricalBlocks) 1
    match vm.state.heights.lookup heightToDelete with
    -- the block may have been deleted already
    | none => vm
    | some blockToDelete => vm.deleteAtHeight heightToDelete blockToDelete

def pruneCommitPeriod : ℕ := 1024

/-- The loop of `pruneOldBlocks`. -/
def pruneLoop : (fuel height : ℕ) → VM → VM × Option VMError
  | 0, _, vm => (vm, some .outOfFuel)
  | fuel + 1, height, vm =>
    if vm.numHistoricalBlocks < sub64 vm.lastAcceptedHeight height then
      match vm.state.heights.lookup height with
      | none => (vm, some .notFound)
      | some blockToDelete =>
        let vm := vm.deleteAtHeight height blockToDelete
        let height := (height + 1) % 2 ^ 64
        if height % pruneCommitPeriod ≠ 0 then pruneLoop fuel height vm
        else pruneLoop fuel height vm.commit
    else (vm.commit, none)

/-- `pruneOldBlocks`. Each round of the loop deletes a height or ends it. -/
def pruneOldBlocks : VM × Option VMError :=
  if vm.numHistoricalBlocks = 0 then (vm, none)
  else
    -- `GetMinimumHeight`
    match ceil vm.state.heights 0 with
    | none => (vm, none)
    | some (height, _) => pruneLoop (vm.state.heights.keys.length + 1) height vm

/-! ## Accepting -/

/-- `acceptPostForkBlock`, after `acceptOuterBlk` of a signed block has noted its time. -/
def acceptPostForkBlock (blk : Block) : VM :=
  let vm := { vm with
    lastAcceptedTime := blk.timestamp.getD vm.lastAcceptedTime
    lastAcceptedHeight := blk.height
    state := { vm.state with lastAccepted := some blk.id, blocks := vm.state.blocks.insert blk.id blk } }
  (vm.updateHeightIndex blk.height blk.id).commit

/-! ## Starting -/

def repairAcceptedChainByHeight (inner : InnerVM) : VM × Option VMError :=
  match vm.state.lastAccepted with
  | none => (vm, none)
  | some proLastAcceptedID =>
    match vm.getPostForkBlock proLastAcceptedID with
    | none => (vm, some .notFound)
    | some proLastAccepted =>
      if proLastAccepted.height < inner.lastAccepted.height then
        (vm, some (.heightTooLow proLastAccepted.height inner.lastAccepted.height))
      else if proLastAccepted.height = inner.lastAccepted.height then (vm, none)
      else
        match vm.state.forkHeight with
        | none => (vm, some .notFound)
        | some forkHeight =>
          if inner.lastAccepted.height < forkHeight then
            (commit { vm with state := { vm.state with lastAccepted := none } }, none)
          else
            match vm.state.heights.lookup inner.lastAccepted.height with
            | none => (vm, some (.failedRollback inner.lastAccepted.height))
            | some newProLastAcceptedID =>
              (commit { vm with state := { vm.state with lastAccepted := some newProLastAcceptedID } }, none)

def setLastAcceptedMetadata : VM × Option VMError :=
  match vm.state.lastAccepted with
  | none => ({ vm with lastAcceptedHeight := 0, lastAcceptedTime := zeroTime }, none)
  | some lastAcceptedID =>
    match vm.getPostForkBlock lastAcceptedID with
    | none => (vm, some .notFound)
    | some lastAccepted =>
      let vm := { vm with lastAcceptedHeight := lastAccepted.height }
      if lastAccepted.timestamp.isSome then (vm, none)
      else
        match vm.getPostForkBlock lastAccepted.parentID with
        | none => (vm, some .notFound)
        -- the timestamp of an accepted option is the time that is being loaded
        | some acceptedParent =>
          ({ vm with lastAcceptedTime := acceptedParent.timestamp.getD vm.lastAcceptedTime }, none)

/-- One step after another, until one fails. -/
def andThen (step : VM × Option VMError) (next : VM → VM × Option VMError) : VM × Option VMError :=
  match step with
  | (vm, none) => next vm
  | (vm, some e) => (vm, some e)

/-- The VM before `Initialize`. -/
def new (numHistoricalBlocks : ℕ) (db : State) : VM := ⟨numHistoricalBlocks, db, [db], 0, zeroTime⟩

def initializeVM (inner : InnerVM) : VM × Option VMError :=
  andThen (vm.repairAcceptedChainByHeight inner) fun vm =>
    andThen vm.setLastAcceptedMetadata fun vm => vm.pruneOldBlocks

/-! ## Reading -/

/-- `LastAccepted`. -/
def getLastAccepted (inner : InnerVM) : ID := vm.state.lastAccepted.getD inner.lastAccepted.id

/-- `Timestamp` of an option that was read from the database. -/
def optionTimestamp (b : Block) : Time :=
  if b.height ≤ vm.lastAcceptedHeight then vm.lastAcceptedTime else zeroTime

end VM

end Titan.ProposerVM
