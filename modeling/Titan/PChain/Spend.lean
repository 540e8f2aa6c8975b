import Titan.Atomic.Verifier
import Titan.Lib.SortedMap
import Titan.Lib.Tally

/-!
# Titan.PChain.Spend — spending UTXOs on the P-chain

`VerifySpendUTXOs` (`platformvm/utxo/verifier.go`) checks that the inputs of a transaction
pay for its outputs. Amounts may be locked until a time; while they are, they stay with
their owner under the same time.

* A flow is an asset with nothing, if its amount is free, or with a time and an owner.
* An owner is the hash of its bytes, of any type `O`.
* The three nested maps of locked amounts are one map here. A loop over them visits the
  entries in some order, and every order of nested loops is one of the flat map.
* Credentials and the map of the declared amounts are not nil.
-/

namespace Titan.PChain

open Lib
open Atomic (TransferOutput TransferInput OutputOwners TxError Fx Crypto)

/-- `avax.TransferableOut`: a transfer, or one behind a `stakeable.LockOut`. -/
inductive TransferableOut
  | transfer (out : TransferOutput)
  | lock (locktime : ℕ) (out : TransferableOut)

/-- `avax.TransferableIn`: a transfer, or one behind a `stakeable.LockIn`. -/
inductive TransferableIn
  | transfer (input : TransferInput)
  | lock (locktime : ℕ) (input : TransferableIn)

def TransferableOut.amount : TransferableOut → ℕ
  | .transfer out => out.amt
  | .lock _ out => out.amount

def TransferableIn.amount : TransferableIn → ℕ
  | .transfer input => input.amt
  | .lock _ input => input.amount

/-- What is behind a lock, and the time of the lock. -/
def TransferableOut.unlock : TransferableOut → TransferableOut × ℕ
  | .lock locktime out => (out, locktime)
  | .transfer out => (.transfer out, 0)

/-- `avax.UTXO`, or `avax.TransferableOutput`. -/
structure AssetOutput where
  assetID : ID
  out : TransferableOut

/-- `avax.TransferableInput`. -/
structure AssetInput where
  assetID : ID
  input : TransferableIn

inductive SpendError
  | wrongNumberCredentials (ins creds : ℕ)
  | wrongNumberUTXOs (ins utxos : ℕ)
  | assetIDMismatch
  | lockedFundsNotMarkedAsLocked
  | locktimeMismatch (claimed actual : ℕ)
  | wrongInputType
  | wrongUTXOType
  | transfer (e : TxError)
  | notOwned
  | marshalOwner
  | overflow
  | insufficientLockedFunds (needed : ℕ)
  | insufficientUnlockedFunds (needed : ℕ)
deriving DecidableEq, Repr

variable {O : Type} [DecidableEq O]

/-- The verifier. -/
structure SpendVerifier (O : Type) where
  fx : Fx
  crypto : Crypto
  /-- The time of the clock. -/
  now : ℕ
  /-- The hash of the bytes of an owner. -/
  ownerID : OutputOwners → Except SpendError O

/-- An asset, and a time and an owner if it is locked. -/
abbrev Flow (O : Type) := ID × Option (ℕ × O)

/-- Amounts that are free, and amounts that are locked. -/
structure Flows (O : Type) [DecidableEq O] where
  unlocked : GoMap ID ℕ
  locked : GoMap (ID × ℕ × O) ℕ

namespace Flows

/-- The amount of a flow, 0 if there is no entry. -/
def amount (s : Flows O) : Flow O → ℕ
  | (assetID, none) => (s.unlocked.lookup assetID).getD 0
  | (assetID, some (locktime, owner)) => (s.locked.lookup (assetID, locktime, owner)).getD 0

/-- A checked addition to an entry. -/
def add (s : Flows O) (flow : Flow O) (amount : ℕ) : Except SpendError (Flows O) :=
  match flow with
  | (assetID, none) => do
      let sum ← checkedAdd .overflow ((s.unlocked.lookup assetID).getD 0) amount
      return { s with unlocked := s.unlocked.insert assetID sum }
  | (assetID, some (locktime, owner)) => do
      let sum ← checkedAdd .overflow ((s.locked.lookup (assetID, locktime, owner)).getD 0) amount
      return { s with locked := s.locked.insert (assetID, locktime, owner) sum }

end Flows

namespace SpendVerifier

variable (v : SpendVerifier O)

/-- `VerifyTransfer` of the fx. -/
def verifyTransfer (unsignedBytes : Bytes) (input : TransferableIn) (cred : List Bytes) (out : TransferableOut) :
    Except SpendError Unit :=
  match input, out with
  | .lock _ _, _ => .error .wrongInputType
  | .transfer _, .lock _ _ => .error .wrongUTXOType
  | .transfer i, .transfer o => (v.fx.verifySpend v.crypto unsignedBytes i cred o).mapError .transfer

/-- The hash of the owner of an output that has one. -/
def owner : TransferableOut → Except SpendError O
  | .transfer out => v.ownerID out.owners
  | .lock _ _ => .error .notOwned

/-- The flow of an amount that is locked or not. -/
def flow (assetID : ID) (locktime : ℕ) (locked : Prop) [Decidable locked] (out : TransferableOut) :
    Except SpendError (Flow O) :=
  if locked then do
    let owner ← v.owner out
    return (assetID, some (locktime, owner))
  else return (assetID, none)

/-- An input without its mark, which has to be that of the UTXO. -/
def unmark (locktime : ℕ) : TransferableIn → Except SpendError TransferableIn
  | .lock claimed input => if claimed ≠ locktime then .error (.locktimeMismatch claimed locktime) else .ok input
  | .transfer input => if v.now < locktime then .error .lockedFundsNotMarkedAsLocked else .ok (.transfer input)

/-- The checks of one input, and what it consumes. -/
def consume (unsignedBytes : Bytes) (item : AssetOutput × AssetInput × List Bytes) :
    Except SpendError (Flow O × ℕ) := do
  let (utxo, input, cred) := item
  ensure (utxo.assetID = input.assetID) .assetIDMismatch
  let (out, locktime) := utxo.out.unlock
  let unmarked ← v.unmark locktime input.input
  v.verifyTransfer unsignedBytes unmarked cred out
  let flow ← v.flow utxo.assetID locktime (v.now < locktime) out
  return (flow, unmarked.amount)

/-- What an output produces. -/
def produce (output : AssetOutput) : Except SpendError (Flow O × ℕ) := do
  let (out, locktime) := output.out.unlock
  let flow ← v.flow output.assetID locktime (locktime ≠ 0) out
  return (flow, out.amount)

/-- A locked amount that exceeds what was consumed under its lock is covered by free amounts. -/
def coverLocked (consumed : Flows O) (unlocked : GoMap ID ℕ) (entry : (ID × ℕ × O) × ℕ) :
    Except SpendError (GoMap ID ℕ) :=
  let consumedAmount := (consumed.locked.lookup entry.1).getD 0
  if consumedAmount < entry.2 then
    let increase := entry.2 - consumedAmount
    let unlockedConsumedAsset := (unlocked.lookup entry.1.1).getD 0
    if unlockedConsumedAsset < increase then .error (.insufficientLockedFunds (increase - unlockedConsumedAsset))
    else .ok (unlocked.insert entry.1.1 (unlockedConsumedAsset - increase))
  else .ok unlocked

/-- The free amounts that are produced are not more than those that are left. -/
def coverUnlocked (unlocked : GoMap ID ℕ) (entry : ID × ℕ) : Except SpendError Unit :=
  let unlockedConsumedAsset := (unlocked.lookup entry.1).getD 0
  if unlockedConsumedAsset < entry.2 then .error (.insufficientUnlockedFunds (entry.2 - unlockedConsumedAsset))
  else .ok ()

/-- The orders in which the maps of what is produced are visited. -/
structure Walks (O : Type) where
  locked : Walk ((ID × ℕ × O) × ℕ)
  unlocked : Walk (ID × ℕ)

def verifySpendUTXOs (walks : Walks O) (unsignedBytes : Bytes) (utxos : List AssetOutput) (ins : List AssetInput)
    (outs : List AssetOutput) (creds : List (List Bytes)) (unlockedProduced : GoMap ID ℕ) :
    Except SpendError Unit := do
  ensure (ins.length = creds.length) (.wrongNumberCredentials ins.length creds.length)
  ensure (ins.length = utxos.length) (.wrongNumberUTXOs ins.length utxos.length)
  let consumed ← (utxos.zip (ins.zip creds)).foldlM (fun (s : Flows O) item => do
    let e ← v.consume unsignedBytes item
    s.add e.1 e.2) ⟨∅, ∅⟩
  let produced ← outs.foldlM (fun (s : Flows O) output => do
    let e ← v.produce output
    s.add e.1 e.2) ⟨unlockedProduced, ∅⟩
  let unlocked ← (walks.locked.order (produced.locked.entries.map fun e => (e.1, e.2))).foldlM
    (coverLocked consumed) consumed.unlocked
  (walks.unlocked.order (produced.unlocked.entries.map fun e => (e.1, e.2))).forM (coverUnlocked unlocked)

end SpendVerifier

end Titan.PChain
