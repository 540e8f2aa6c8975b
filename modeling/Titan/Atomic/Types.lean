import Titan.PChain.Types
import Titan.CChain.State

/-!
# Titan.Atomic.Types — atomic transactions of the C-chain

Import transactions consume UTXOs that another chain put into shared memory and
credit accounts of the EVM; export transactions debit accounts and put UTXOs
into shared memory. This module has their data, the amounts they burn, the gas
they use and the price per gas they pay.

Amounts, nonces and gas are `uint64` in the source and natural numbers here;
sums of them go through the checked operations, as in the source. The ID of a
UTXO is a hash of its source (`inputID`), which is a parameter.
-/

namespace Titan.Atomic

open Lib
open PChain (ID Bytes GoMap)
open CChain (Address)

/-- The errors of atomic transactions, of their verification and of the mempool. -/
inductive TxError where
  | overflow
  | underflow
  | noGasUsed
  | nilBaseFee
  | feeOverflow
  | alreadyKnown
  | conflict
  | insufficientFee
  | mempoolFull
  | nilTx
  | noImportInputs
  | noExportOutputs
  | noEVMOutputs
  | wrongNetworkID
  | wrongChainID
  | importTxsDisabled
  | exportTxsDisabled
  | noValueOutput
  | noValueInput
  | emptyAssetID
  | importNonAVAXInputBanff
  | importNonAVAXOutputBanff
  | exportNonAVAXInputBanff
  | exportNonAVAXOutputBanff
  | inputsNotSortedUnique
  | outputsNotSorted
  | outputsNotSortedUnique
  | insufficientFunds
  | incorrectNumCredentials
  | failedToFetchImportUTXOs
  | failedToUnmarshalUTXO
  | assetIDMismatch
  | mismatchedAmounts
  | conflictingAtomicInputs
  | rejectedParent
  | invalidNonce
  | missingUTXOs
  | duplicateRemove
  | duplicatePut
  /-- Any other error of a check outside the model. -/
  | other (text : String)
deriving DecidableEq, Repr

/-! ## Data -/

/-- `avax.UTXOID`. -/
structure UTXOID where
  txID : ID
  outputIndex : ℕ
deriving DecidableEq, Repr

/-- `secp256k1fx.TransferInput`. -/
structure TransferInput where
  amt : ℕ
  sigIndices : List ℕ
deriving DecidableEq, Repr

/-- `avax.TransferableInput`. -/
structure TransferableInput where
  utxoID : UTXOID
  assetID : ID
  input : TransferInput
deriving DecidableEq, Repr

/-- `secp256k1fx.OutputOwners`. -/
structure OutputOwners where
  locktime : ℕ
  threshold : ℕ
  addrs : List Address
deriving DecidableEq, Repr

/-- `secp256k1fx.TransferOutput`. -/
structure TransferOutput where
  amt : ℕ
  owners : OutputOwners
deriving DecidableEq, Repr

/-- `avax.TransferableOutput`. -/
structure TransferableOutput where
  assetID : ID
  out : TransferOutput
deriving DecidableEq, Repr

/-- An output that is added to the EVM state by an import. -/
structure EVMOutput where
  address : Address
  amount : ℕ
  assetID : ID
deriving DecidableEq, Repr

/-- An input from the EVM state that funds an export. -/
structure EVMInput where
  address : Address
  amount : ℕ
  assetID : ID
  nonce : ℕ
deriving DecidableEq, Repr

/-- The ID of a transaction, a hash of its signed bytes, and its unsigned bytes. -/
structure Metadata where
  id : ID
  unsignedBytes : Bytes
deriving DecidableEq, Repr

structure UnsignedImportTx where
  metadata : Metadata
  networkID : ℕ
  blockchainID : ID
  sourceChain : ID
  importedInputs : List TransferableInput
  outs : List EVMOutput
deriving DecidableEq, Repr

structure UnsignedExportTx where
  metadata : Metadata
  networkID : ℕ
  blockchainID : ID
  destinationChain : ID
  ins : List EVMInput
  exportedOutputs : List TransferableOutput
deriving DecidableEq, Repr

inductive UnsignedAtomicTx where
  | importTx (utx : UnsignedImportTx)
  | exportTx (utx : UnsignedExportTx)
deriving DecidableEq, Repr

/-- A signed transaction; a credential is a list of signatures. -/
structure Tx where
  unsigned : UnsignedAtomicTx
  creds : List (List Bytes)
deriving DecidableEq, Repr

def UnsignedAtomicTx.metadata : UnsignedAtomicTx → Metadata
  | .importTx utx => utx.metadata
  | .exportTx utx => utx.metadata

def Tx.id (tx : Tx) : ID := tx.unsigned.metadata.id

/-! ## Inputs -/

/-- The ID under which an export locks a nonce of an account: the nonce, the length of
the address and the address, in 32 bytes. -/
def nonceID (nonce : ℕ) (address : Address) : ID :=
  Fin.ofNat _ (nonce % 2 ^ 64 * 2 ^ 192 + 20 * 2 ^ 160 + address)

/-- The IDs of the UTXOs that a transaction consumes. -/
def Tx.inputUTXOs (inputID : UTXOID → ID) (tx : Tx) : List ID :=
  match tx.unsigned with
  | .importTx utx => (utx.importedInputs.map (fun i => inputID i.utxoID)).dedup
  | .exportTx utx => (utx.ins.map (fun i => nonceID i.nonce i.address)).dedup

/-! ## Gas and fees -/

/-- `X2CRate`: the smallest unit of the native asset on the X-chain, in wei. -/
def x2cRate : ℕ := 1000000000

def txBytesGas : ℕ := 1

/-- `secp256k1fx.CostPerSignature`. -/
def costPerSignature : ℕ := 1000

/-- `ap5.AtomicTxIntrinsicGas`. -/
def atomicTxIntrinsicGas : ℕ := 10000

def mathAdd (a b : ℕ) : Except TxError ℕ := checkedAdd .overflow a b

def mathSub (a b : ℕ) : Except TxError ℕ := checkedSub .underflow a b

def mathMul (a b : ℕ) : Except TxError ℕ := checkedMul .overflow a b

def calcBytesCost (n : ℕ) : ℕ := n * txBytesGas

/-- Add the intrinsic gas that is charged as of Apricot Phase 5. -/
def addFixedFee (fixedFee : Bool) (cost : ℕ) : Except TxError ℕ :=
  if fixedFee then mathAdd cost atomicTxIntrinsicGas else .ok cost

/-- `GasUsed`. -/
def Tx.gasUsed (tx : Tx) (fixedFee : Bool) : Except TxError ℕ :=
  match tx.unsigned with
  | .importTx utx => do
      let cost ← utx.importedInputs.foldlM (fun cost i => do
        let inCost ← mathMul i.input.sigIndices.length costPerSignature
        mathAdd cost inCost) (calcBytesCost utx.metadata.unsignedBytes.length)
      addFixedFee fixedFee cost
  | .exportTx utx => do
      let sigCost ← mathMul utx.ins.length costPerSignature
      let cost ← mathAdd (calcBytesCost utx.metadata.unsignedBytes.length) sigCost
      addFixedFee fixedFee cost

/-- Checked sum of the amounts of an asset. -/
def sumAsset (assetID : ID) (amounts : List (ID × ℕ)) : Except TxError ℕ :=
  amounts.foldlM (fun sum a => if a.1 = assetID then mathAdd sum a.2 else .ok sum) 0

/-- The assets and amounts a transaction takes in, whatever they come from. -/
def Tx.consumes (tx : Tx) : List (ID × ℕ) :=
  match tx.unsigned with
  | .importTx utx => utx.importedInputs.map (fun i => (i.assetID, i.input.amt))
  | .exportTx utx => utx.ins.map (fun i => (i.assetID, i.amount))

/-- The assets and amounts a transaction gives out. -/
def Tx.produces (tx : Tx) : List (ID × ℕ) :=
  match tx.unsigned with
  | .importTx utx => utx.outs.map (fun o => (o.assetID, o.amount))
  | .exportTx utx => utx.exportedOutputs.map (fun o => (o.assetID, o.out.amt))

/-- `Burned`: the amount of an asset that goes in and does not come out. -/
def Tx.burned (tx : Tx) (assetID : ID) : Except TxError ℕ := do
  let spent ← sumAsset assetID tx.produces
  let input ← sumAsset assetID tx.consumes
  mathSub input spent

/-- `EffectiveGasPrice`, in wei per gas. -/
def effectiveGasPrice (tx : Tx) (avaxAssetID : ID) (isApricotPhase5 : Bool) : Except TxError ℕ := do
  let gasUsed ← tx.gasUsed isApricotPhase5
  if gasUsed = 0 then throw .noGasUsed
  else do
    let burned ← tx.burned avaxAssetID
    return burned * x2cRate / gasUsed

end Titan.Atomic
