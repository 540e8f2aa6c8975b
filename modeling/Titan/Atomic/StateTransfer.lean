import Titan.Atomic.Verifier

/-!
# Titan.Atomic.StateTransfer — the effect of an atomic transaction on the EVM state

`EVMStateTransfer` moves value between accounts and the transaction, `AtomicOps`
are the requests to shared memory.

Balances are 256-bit words and the additions wrap, as in the state database. A
multicoin balance is a storage slot under the ID of the coin, with the lowest bit
of its first byte set; the storage of contracts has that bit clear and is left
out.
-/

namespace Titan.Atomic

open Lib
open PChain (ID Bytes GoMap)
open CChain (Address Uint256 Uint64)

/-! ## State database -/

/-- `extstate.StateDB`. -/
structure StateDB where
  balance : Address → Uint256
  nonce : Address → Uint64
  isMultiCoin : Address → Bool
  /-- The multicoin slots, by normalised coin ID. -/
  multiCoin : ID → Address → Uint256

/-- Set the lowest bit of the first byte. -/
def normalizeCoinID (coinID : ID) : ID :=
  Fin.ofNat _ (coinID.val ||| 2 ^ 248)

namespace StateDB

def getBalance (s : StateDB) (addr : Address) : Uint256 := s.balance addr

def addBalance (s : StateDB) (addr : Address) (amount : Uint256) : StateDB :=
  { s with balance := credit s.balance addr amount }

def subBalance (s : StateDB) (addr : Address) (amount : Uint256) : StateDB :=
  { s with balance := debit s.balance addr amount }

def getNonce (s : StateDB) (addr : Address) : Uint64 := s.nonce addr

def setNonce (s : StateDB) (addr : Address) (nonce : Uint64) : StateDB :=
  { s with nonce := Function.update s.nonce addr nonce }

def getBalanceMultiCoin (s : StateDB) (addr : Address) (coinID : ID) : Uint256 :=
  s.multiCoin (normalizeCoinID coinID) addr

/-- Write a multicoin slot and mark the account. -/
def setMultiCoin (s : StateDB) (addr : Address) (coinID : ID) (amount : Uint256) : StateDB :=
  { s with
    isMultiCoin := Function.update s.isMultiCoin addr true
    multiCoin := Function.update s.multiCoin (normalizeCoinID coinID)
      (Function.update (s.multiCoin (normalizeCoinID coinID)) addr amount) }

def addBalanceMultiCoin (s : StateDB) (addr : Address) (coinID : ID) (amount : ℕ) : StateDB :=
  if amount = 0 then s.addBalance addr 0
  else s.setMultiCoin addr coinID (s.getBalanceMultiCoin addr coinID + BitVec.ofNat 256 amount)

def subBalanceMultiCoin (s : StateDB) (addr : Address) (coinID : ID) (amount : ℕ) : StateDB :=
  if amount = 0 then s
  else
    -- a slot holds the absolute value of what is written
    let newAmount : ℤ := (s.getBalanceMultiCoin addr coinID).toNat - amount
    s.setMultiCoin addr coinID (BitVec.ofNat 256 newAmount.natAbs)

end StateDB

/-! ## State transfer -/

/-- An amount of the native asset in wei. -/
def toWei (amount : ℕ) : Uint256 := BitVec.ofNat 256 amount * BitVec.ofNat 256 x2cRate

/-- One round of the loop of an import. -/
def transferOutput (avaxAssetID : ID) (s : StateDB) (out : EVMOutput) : StateDB :=
  if out.assetID = avaxAssetID then s.addBalance out.address (toWei out.amount)
  else s.addBalanceMultiCoin out.address out.assetID out.amount

/-- The balance change of one input of an export. -/
def transferInput (avaxAssetID : ID) (s : StateDB) (i : EVMInput) : Except TxError StateDB :=
  if i.assetID = avaxAssetID then do
    ensure (¬ (s.getBalance i.address).toNat < (toWei i.amount).toNat) .insufficientFunds
    return s.subBalance i.address (toWei i.amount)
  else do
    ensure (¬ (s.getBalanceMultiCoin i.address i.assetID).toNat < i.amount) .insufficientFunds
    return s.subBalanceMultiCoin i.address i.assetID i.amount

/-- The loop of an export: the state, and the addresses with their nonces. -/
def transferInputs (avaxAssetID : ID) : List EVMInput → StateDB → GoMap Address ℕ →
    Except TxError (StateDB × GoMap Address ℕ)
  | [], s, addrs => .ok (s, addrs)
  | i :: rest, s, addrs => do
      let s ← transferInput avaxAssetID s i
      ensure ((s.getNonce i.address).toNat = i.nonce) .invalidNonce
      transferInputs avaxAssetID rest s (addrs.insert i.address i.nonce)

def raiseNonce (addrs : GoMap Address ℕ) (s : StateDB) (addr : Address) : StateDB :=
  match addrs.lookup addr with
  | none => s
  | some nonce => s.setNonce addr (BitVec.ofNat 64 (nonce + 1))

/-- The last loop of an export: raise the nonces, in any order of the addresses. -/
def raiseNonces (addrs : GoMap Address ℕ) (order : List Address) (s : StateDB) : StateDB :=
  order.foldl (raiseNonce addrs) s

/-- `EVMStateTransfer`. `order` gives, for the map of addresses of an export, the order in
which Go visits it. -/
def Tx.evmStateTransfer (tx : Tx) (avaxAssetID : ID) (order : GoMap Address ℕ → List Address)
    (s : StateDB) : Except TxError StateDB :=
  match tx.unsigned with
  | .importTx utx => .ok (utx.outs.foldl (transferOutput avaxAssetID) s)
  | .exportTx utx => do
      let (s, addrs) ← transferInputs avaxAssetID utx.ins s ∅
      return raiseNonces addrs (order addrs) s

/-! ## Requests to shared memory -/

/-- The UTXOs an export creates. -/
def UnsignedExportTx.exportedUTXOs (utx : UnsignedExportTx) : List UTXO :=
  utx.exportedOutputs.mapIdx (fun i out =>
    ⟨⟨utx.metadata.id, i % 2 ^ 32⟩, out.assetID, out.out⟩)

/-- The element that holds a UTXO, found by the addresses of its owners. -/
def UTXO.element (codec : Codec) (inputID : UTXOID → ID) (addressBytes : Address → Bytes)
    (utxo : UTXO) : Except TxError Element := do
  let utxoBytes ← codec.marshalUTXO utxo
  return ⟨inputID utxo.utxoID, utxoBytes, utxo.out.owners.addrs.map addressBytes⟩

/-- `AtomicOps`: the peer chain and the requests. -/
def Tx.atomicOps (tx : Tx) (codec : Codec) (inputID : UTXOID → ID) (addressBytes : Address → Bytes) :
    Except TxError (ID × Requests) :=
  match tx.unsigned with
  | .importTx utx =>
    .ok (utx.sourceChain, ⟨utx.importedInputs.map (fun i => inputID i.utxoID), []⟩)
  | .exportTx utx => do
      let elems ← utx.exportedUTXOs.mapM (UTXO.element codec inputID addressBytes)
      return (utx.destinationChain, ⟨[], elems⟩)

end Titan.Atomic
