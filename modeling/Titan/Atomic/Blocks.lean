import Titan.Atomic.StateTransfer

/-!
# Titan.Atomic.Blocks — blocks with atomic transactions

Verification, acceptance and rejection of blocks, as far as they concern atomic
transactions: `verifyTxs`, the atomic backend with the requests of the blocks that
are processing, and shared memory.

The outcome of everything else that verifies a block (its header, the execution of
its transactions, the transfer of value of the atomic ones, the atomic trie) is
given to the operation. No block is a bonus block. Block numbers are natural
numbers.
-/

namespace Titan.Atomic

open Lib
open PChain (ID Bytes GoMap)
open CChain (Address)

/-- `atomicState`: the requests of a block that was verified. -/
structure AtomicState where
  blockHash : ID
  blockHeight : ℕ
  txs : List Tx
  atomicOps : GoMap ID Requests

/-- The blocks of the VM, its atomic backend and shared memory. -/
structure VM where
  lastAccepted : Block
  /-- The accepted blocks before the last one, newest first. -/
  older : List Block
  processing : GoMap ID Block
  verifiedRoots : GoMap ID AtomicState
  sharedMemory : SharedMemory

/-- What the VM is configured with. The rules come with each block. -/
structure Config where
  backend : VerifierBackend
  addressBytes : Address → Bytes

/-! ## Requests of a block -/

def mergeAtomicOpsToMap (output : GoMap ID Requests) (chainID : ID) (requests : Requests) :
    GoMap ID Requests :=
  match output.lookup chainID with
  | some request => output.insert chainID
      ⟨request.removeRequests ++ requests.removeRequests, request.putRequests ++ requests.putRequests⟩
  | none => output.insert chainID requests

/-- The requests of some transactions, one after the other. -/
def mergeOps (cfg : Config) : List Tx → GoMap ID Requests → Except TxError (GoMap ID Requests)
  | [], output => .ok output
  | tx :: rest, output => do
      let (chainID, requests) ← tx.atomicOps cfg.backend.codec cfg.backend.inputID cfg.addressBytes
      mergeOps cfg rest (mergeAtomicOpsToMap output chainID requests)

/-- `mergeAtomicOps`, in the order of the IDs of the transactions. -/
def mergeAtomicOps (cfg : Config) (txs : List Tx) : Except TxError (GoMap ID Requests) :=
  mergeOps cfg (txs.mergeSort (fun a b => decide (a.id ≤ b.id))) ∅

namespace VM

/-! ## Verification -/

def acceptedChain (vm : VM) : List Block := vm.lastAccepted :: vm.older

def getExtendedBlock (vm : VM) (id : ID) : Option Block :=
  match vm.processing.lookup id with
  | some blk => some blk
  | none => vm.acceptedChain.find? (fun blk => blk.id = id)

def fetcher (vm : VM) : BlockFetcher := ⟨vm.getExtendedBlock, vm.lastAccepted⟩

/-- The loop of `verifyTxs`. -/
def verifyTxsFrom (backend : VerifierBackend) (vm : VM) (ancestor : Block) (baseFee : Option ℤ) :
    List Tx → List ID → Except TxError Unit
  | [], _ => .ok ()
  | atomicTx :: rest, inputs => do
      semanticVerify backend vm.sharedMemory vm.fetcher atomicTx ancestor baseFee
      let txInputs := atomicTx.inputUTXOs backend.inputID
      ensure (¬ overlaps inputs txInputs) .conflictingAtomicInputs
      verifyTxsFrom backend vm ancestor baseFee rest (inputs ++ txInputs)

def verifyTxs (cfg : Config) (vm : VM) (blk : Block) : Except TxError Unit :=
  match vm.getExtendedBlock blk.parentID with
  | none => .error .rejectedParent
  | some ancestor => do
      ensure (ancestor.height + 1 = blk.height) .rejectedParent
      verifyTxsFrom { cfg.backend with rules := blk.rules } vm ancestor blk.baseFee blk.txs []

/-- `InsertTxs`: note the requests of the block on top of those of its parent. -/
def insertTxs (cfg : Config) (vm : VM) (blk : Block) : Except TxError VM := do
  ensure (blk.parentID = vm.lastAccepted.id ∨ (vm.verifiedRoots.lookup blk.parentID).isSome)
    (.other "cannot access atomic state for block")
  let atomicOps ← mergeAtomicOps cfg blk.txs
  return { vm with
    verifiedRoots := vm.verifiedRoots.insert blk.id ⟨blk.id, blk.height, blk.txs, atomicOps⟩ }

def verifyUTXOsPresent (cfg : Config) (vm : VM) (blk : Block) : Except TxError Unit :=
  blk.txs.forM (fun tx => do
    let (chainID, requests) ← tx.atomicOps cfg.backend.codec cfg.backend.inputID cfg.addressBytes
    match vm.sharedMemory.get chainID requests.removeRequests with
    | .ok _ => .ok ()
    | .error _ => .error .missingUTXOs)

/-- `CleanupVerified`, for a block that was not inserted. -/
def cleanupVerified (vm : VM) (blk : Block) : VM :=
  { vm with verifiedRoots := vm.verifiedRoots.erase blk.id }

/-- Verify a block on a bootstrapped node. `rest` is the outcome of what comes after
`InsertTxs`. -/
def verify (cfg : Config) (vm : VM) (blk : Block) (rest : Except TxError Unit) :
    VM × Except TxError Unit :=
  match vm.verifyUTXOsPresent cfg blk with
  | .error e => (vm, .error e)
  | .ok () =>
    if (vm.processing.lookup blk.id).isSome then (vm, .ok ())
    else
      match vm.verifyTxs cfg blk with
      | .error e => (vm.cleanupVerified blk, .error e)
      | .ok () =>
        match vm.insertTxs cfg blk with
        | .error e => (vm.cleanupVerified blk, .error e)
        | .ok vm =>
          match rest with
          | .error e => (vm.cleanupVerified blk, .error e)
          | .ok () => ({ vm with processing := vm.processing.insert blk.id blk }, .ok ())

/-! ## Decisions -/

/-- Accept a block: apply its requests, for the peer chains in some order. -/
def accept (vm : VM) (blk : Block) (order : List ID) : Except TxError VM :=
  match vm.verifiedRoots.lookup blk.id with
  | none => .error (.other "cannot access atomic state for block")
  | some atomicState => do
      let sharedMemory ← vm.sharedMemory.apply atomicState.atomicOps order
      return ⟨blk, vm.lastAccepted :: vm.older, vm.processing.erase blk.id,
        vm.verifiedRoots.erase blk.id, sharedMemory⟩

def reject (vm : VM) (blk : Block) : Except TxError VM :=
  match vm.verifiedRoots.lookup blk.id with
  | none => .error (.other "cannot access atomic state for block")
  | some _ => .ok { vm with
      processing := vm.processing.erase blk.id
      verifiedRoots := vm.verifiedRoots.erase blk.id }

end VM

end Titan.Atomic
