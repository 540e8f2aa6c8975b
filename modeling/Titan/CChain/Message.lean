import Titan.CChain.State

/-!
# Titan.CChain.Message — transactions, messages and the transition record

`TransactionToMessage` turns a signed transaction into the `Message` that the
state transition executes. Amounts are `*big.Int` in the source; a decoded
transaction has no negative ones, so they are naturals here.
-/

namespace Titan.CChain

structure AccessTuple where
  address : Address
  storageKeys : List Hash

abbrev AccessList := List AccessTuple

/-- The transaction types, with the fields that carry fees. The library derives
`GasPrice`, `GasFeeCap` and `GasTipCap` from them. -/
inductive FeeFields where
  | legacy (gasPrice : ℕ)
  | accessList (gasPrice : ℕ)
  | dynamicFee (gasTipCap gasFeeCap : ℕ)
  | blob (gasTipCap gasFeeCap blobFeeCap : ℕ) (blobHashes : List Hash)

namespace FeeFields

def gasPrice : FeeFields → ℕ
  | legacy p => p
  | accessList p => p
  | dynamicFee _ cap => cap
  | blob _ cap _ _ => cap

def gasFeeCap : FeeFields → ℕ
  | legacy p => p
  | accessList p => p
  | dynamicFee _ cap => cap
  | blob _ cap _ _ => cap

def gasTipCap : FeeFields → ℕ
  | legacy p => p
  | accessList p => p
  | dynamicFee tip _ => tip
  | blob tip _ _ _ => tip

def blobGasFeeCap : FeeFields → Option ℕ
  | blob _ _ cap _ => some cap
  | _ => none

def blobHashes : FeeFields → Option (List Hash)
  | blob _ _ _ hashes => some hashes
  | _ => none

end FeeFields

structure Transaction where
  nonce : Uint64
  gas : Uint64
  fees : FeeFields
  toAddr : Option Address
  value : ℕ
  data : Bytes
  accessList : Option AccessList

structure Message where
  toAddr : Option Address
  sender : Address
  nonce : Uint64
  value : ℕ
  gasLimit : Uint64
  gasPrice : ℕ
  gasFeeCap : Option ℕ
  gasTipCap : ℕ
  data : Bytes
  accessList : Option AccessList
  blobGasFeeCap : Option ℕ
  blobHashes : Option (List Hash)
  skipAccountChecks : Bool

/-- `TransactionToMessage`, with the sender that `types.Sender` recovered. -/
def transactionToMessage (tx : Transaction) (sender : Address) (baseFee : Option ℕ) : Message where
  toAddr := tx.toAddr
  sender := sender
  nonce := tx.nonce
  value := tx.value
  gasLimit := tx.gas
  gasPrice :=
    match baseFee with
    | some fee => min (tx.fees.gasTipCap + fee) tx.fees.gasFeeCap
    | none => tx.fees.gasPrice
  gasFeeCap := some tx.fees.gasFeeCap
  gasTipCap := tx.fees.gasTipCap
  data := tx.data
  accessList := tx.accessList
  blobGasFeeCap := tx.fees.blobGasFeeCap
  blobHashes := tx.fees.blobHashes
  skipAccountChecks := false

/-- A message built from a transaction never pays more per gas than its fee
cap. -/
theorem transactionToMessage_gasPrice_le (tx : Transaction) (sender : Address)
    (baseFee : Option ℕ) :
    (transactionToMessage tx sender baseFee).gasPrice ≤ tx.fees.gasFeeCap := by
  cases baseFee with
  | none => cases h : tx.fees <;> simp [transactionToMessage, h, FeeFields.gasPrice,
      FeeFields.gasFeeCap]
  | some fee => exact Nat.min_le_right _ _

/-- `ethparams.BlobTxBlobGasPerBlob`. -/
def blobTxBlobGasPerBlob : ℕ := 2 ^ 17

/-- Ghost accounting of the balance changes the state transition makes itself:
what `buyGas` took from the sender, and where it went. The source keeps no such
record; each field is written next to the `AddBalance` or `SubBalance` call it
mirrors. -/
structure FeeLedger where
  debited : ℕ := 0
  refunded : ℕ := 0
  feeRefunded : ℕ := 0
  burned : ℕ := 0
  pooled : ℕ := 0
  minted : ℕ := 0
deriving Repr, DecidableEq

structure StateTransition (σ : Type) where
  /-- The gas pool, a `uint64`. -/
  gp : Uint64
  msg : Message
  gasRemaining : Uint64
  initialGas : Uint64
  state : StateDB σ
  evm : EVM σ
  ledger : FeeLedger

/-- `NewStateTransition`. -/
def newStateTransition {σ : Type} (evm : EVM σ) (msg : Message) (gp : Uint64)
    (state : StateDB σ) : StateTransition σ where
  gp := gp
  msg := msg
  gasRemaining := 0
  initialGas := 0
  state := state
  evm := evm
  ledger := {}

namespace StateTransition

variable {σ : Type}

/-- `to()`: the recipient of the message, the zero address for a contract creation. -/
def toAddress (st : StateTransition σ) : Address := st.msg.toAddr.getD (hexToAddress 0)

/-- `gasUsed`: the gas used up by the state transition. -/
def gasUsed (st : StateTransition σ) : Uint64 :=
  if st.initialGas < st.gasRemaining then 0 else st.initialGas - st.gasRemaining

/-- `blobGasUsed`: a `uint64` conversion of an `int` product. -/
def blobGasUsed (st : StateTransition σ) : Uint64 :=
  BitVec.ofNat 64 ((st.msg.blobHashes.getD []).length * blobTxBlobGasPerBlob)

/-- Apply a change to the content of the state database. -/
def modify (st : StateTransition σ) (f : World σ → World σ) : StateTransition σ :=
  { st with state := st.state.modify f }

/-- The gas used, as a number, is what is missing from the initial gas. -/
theorem gasUsed_add_gasRemaining {st : StateTransition σ}
    (h : st.gasRemaining ≤ st.initialGas) :
    st.gasUsed.toNat + st.gasRemaining.toNat = st.initialGas.toNat := by
  have hle : st.gasRemaining.toNat ≤ st.initialGas.toNat := by simpa [BitVec.le_def] using h
  unfold gasUsed
  rw [if_neg (by simpa [BitVec.lt_def, BitVec.le_def] using h), BitVec.toNat_sub_of_le h]
  omega

end StateTransition

end Titan.CChain
