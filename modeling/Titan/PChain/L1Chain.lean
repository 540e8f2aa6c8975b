import Titan.PChain.L1Validators
import Titan.PChain.Owners
import Titan.PChain.ValidatorFee

/-!
# Titan.PChain.L1Chain — blocks and the transactions of L1 validators

The part of the platform chain that charges L1 validators: time advances, which
charge every active validator and deactivate those that cannot pay, the five
transactions that create, fund, change and disable validators, and the
deactivation at the end of each block.

The state is a diff over a committed state `base`. What the L1 transactions read
and write is modelled; of the rest (legacy stakers, the UTXOs a transaction
consumes, credentials, the flow of funds) only the answers the L1 code asks for
appear, as parameters of the `Backend` or as arbitrary outcomes in a block.
Checks that only reject more blocks are left out.
-/

namespace Titan.PChain

open Lib

/-! ## State -/

/-- An output of a transaction. -/
structure Output where
  assetID : ID
  amount : ℕ
  owner : PChainOwner
deriving DecidableEq, Repr

/-- `avax.UTXO`. -/
structure UTXO where
  txID : ID
  outputIndex : ℕ
  out : Output
deriving DecidableEq, Repr

/-- A write to the UTXO set. -/
inductive UTXOWrite where
  | addUTXO (utxo : UTXO)
  | deleteUTXO (txID : ID) (outputIndex : ℕ)
deriving DecidableEq, Repr

/-- `state.SubnetToL1Conversion`. -/
structure SubnetToL1Conversion where
  conversionID : ID
  chainID : ID
  addr : Bytes
deriving DecidableEq, Repr

/-- `state.ExpiryEntry`. -/
structure ExpiryEntry where
  timestamp : ℕ
  validationID : ID
deriving DecidableEq, Repr

/-- What the L1 code sees of the stakers: the legacy validator of a (subnet, node)
pair and when the first current and the first pending staker change. -/
structure Staking where
  getCurrentValidator : ID → NodeID → Except StateError Staker
  nextCurrent : Option ℕ
  nextPending : Option ℕ

/-- The state of the chain, as a diff over a committed state. -/
structure ChainState (T : TreeOps L1Validator) where
  timestamp : ℕ
  l1ValidatorExcess : ℕ
  accruedFees : ℕ
  l1ValidatorsDiff : L1ValidatorsDiff T
  staking : Staking
  expiries : Finset ExpiryEntry
  conversions : GoMap ID SubnetToL1Conversion
  /-- Every write to the UTXO set since the committed state, oldest first. -/
  utxoWrites : List UTXOWrite

/-- The error of a state access, as the error of an execution. -/
def liftState {α : Type} (x : Except StateError α) : Except ExecError α := x.mapError .state

/-- The error of a check outside the model, as the error of an execution. -/
def liftCheck {α : Type} (x : Except String α) : Except ExecError α := x.mapError .rejected

namespace ChainState

variable {T : TreeOps L1Validator}

/-- The L1 reads of the state. -/
def view (s : ChainState T) (base : L1View) : L1View :=
  s.l1ValidatorsDiff.view base base.numActiveL1Validators s.staking.getCurrentValidator

/-- `gas.Gas(NumActiveL1Validators())`. -/
def numActive (s : ChainState T) (base : L1View) : ℕ := (s.view base).numActiveL1Validators.toNat

/-- The fee state of the active validators. -/
def feeState (s : ChainState T) (base : L1View) : ValidatorFee.State :=
  ⟨s.numActive base, s.l1ValidatorExcess⟩

def putL1Validator (s : ChainState T) (base : L1View) (v : L1Validator) :
    Except ExecError (ChainState T) :=
  match s.l1ValidatorsDiff.putL1Validator (s.view base) v with
  | (.ok (), d) => .ok { s with l1ValidatorsDiff := d }
  | (.error e, _) => .error (.state e)

def addUTXO (s : ChainState T) (utxo : UTXO) : ChainState T :=
  { s with utxoWrites := s.utxoWrites ++ [.addUTXO utxo] }

/-- Deactivate the validators of a list. -/
def deactivate (base : L1View) : ChainState T → List L1Validator → Except ExecError (ChainState T)
  | s, [] => .ok s
  | s, v :: vs => do
      let s ← s.putL1Validator base { v with endAccumulatedFee := 0 }
      deactivate base s vs

end ChainState

/-! ## Time -/

section Time

variable {T : TreeOps L1Validator}

/-- `uint64(end.Sub(start) / time.Second)` for an end that is not before the start:
the difference of two times is cut off at the longest duration. -/
def secondsBetween (startTime endTime : ℕ) : ℕ :=
  min (endTime - startTime) ((2 ^ 63 - 1) / 10 ^ 9)

def getNextL1ValidatorEvictionTime (config : ValidatorFee.Config) (base : L1View)
    (s : ChainState T) (nextTime : ℕ) : Except ExecError ℕ := do
  let iterator ← liftState (s.view base).getActiveL1ValidatorsIterator
  match iterator with
  | [] => return nextTime
  | v :: _ =>
    -- the first validator is the next one to evict
    let remainingFunds ← liftState (mathSub v.endAccumulatedFee s.accruedFees)
    let maxSeconds := secondsBetween s.timestamp nextTime
    match (s.feeState base).secondsRemaining config maxSeconds remainingFunds with
    | none => throw .panic
    | some remainingSeconds =>
      let deactivationTime := s.timestamp + remainingSeconds
      return if deactivationTime < nextTime then deactivationTime else nextTime

/-- The earlier of a time and the time of the first staker of an iterator, if any. -/
def earlier (nextTime : ℕ) : Option ℕ → ℕ
  | none => nextTime
  | some time => if time < nextTime then time else nextTime

def getNextStakerChangeTime (config : ValidatorFee.Config) (base : L1View) (s : ChainState T)
    (nextTime : ℕ) : Except ExecError ℕ :=
  getNextL1ValidatorEvictionTime config base s
    (earlier (earlier nextTime s.staking.nextCurrent) s.staking.nextPending)

/-- `SyncBound`, in seconds. -/
def syncBound : ℕ := 10

def verifyNewChainTime (config : ValidatorFee.Config) (base : L1View) (s : ChainState T)
    (newChainTime now : ℕ) : Except ExecError Unit :=
  if newChainTime < s.timestamp then .error .childBlockEarlierThanParent
  else if now + syncBound < newChainTime then .error .childBlockBeyondSyncBound
  else
    match getNextStakerChangeTime config base s newChainTime with
    | .error e => .error e
    | .ok nextStakerChangeTime =>
      if nextStakerChangeTime < newChainTime then .error .childBlockAfterStakerChangeTime
      else .ok ()

def advanceValidatorFeeState (config : ValidatorFee.Config) (base : L1View) (s : ChainState T)
    (seconds : ℕ) : Except ExecError (ChainState T) := do
  let validatorFeeState := s.feeState base
  let accruedFees ← liftState (mathAdd s.accruedFees (validatorFeeState.costOf config seconds))
  let iterator ← liftState (s.view base).getActiveL1ValidatorsIterator
  -- in order of increasing EndAccumulatedFee, up to the first that can still pay
  let s ← s.deactivate base (iterator.takeWhile (fun v => v.endAccumulatedFee ≤ accruedFees))
  return { s with
    l1ValidatorExcess := (validatorFeeState.advanceTime config.target seconds).excess
    accruedFees }

/-- `AdvanceTimeTo`. The time advance also changes the stakers, to `staking`. -/
def advanceTimeTo (config : ValidatorFee.Config) (base : L1View) (s : ChainState T)
    (newChainTime : ℕ) (staking : Staking) : Except ExecError (ChainState T) := do
  let s' := { s with
    staking
    expiries := s.expiries.filter (fun e => newChainTime < e.timestamp) }
  let s' ← advanceValidatorFeeState config base s' (secondsBetween s.timestamp newChainTime)
  return { s' with timestamp := newChainTime }

def deactivateLowBalanceL1Validators (config : ValidatorFee.Config) (base : L1View)
    (s : ChainState T) : Except ExecError (ChainState T) := do
  let potentialCost := (s.feeState base).costOf config 1
  let potentialAccruedFees ← liftState (mathAdd s.accruedFees potentialCost)
  let iterator ← liftState (s.view base).getActiveL1ValidatorsIterator
  s.deactivate base (iterator.takeWhile (fun v => v.endAccumulatedFee < potentialAccruedFees))

end Time

/-! ## Transactions -/

/-- The part that all transactions share. A transaction is decoded from at most
256 KiB, so it has fewer than 2 ^ 32 outputs. -/
structure BaseTx where
  txID : ID
  ins : List (ID × ℕ)
  outs : List Output
  outs_lt : outs.length < 2 ^ 32

theorem no_outs_lt : ([] : List Output).length < 2 ^ 32 := by decide

/-- A validator of a `ConvertSubnetToL1Tx`. -/
structure ConvertSubnetToL1Validator where
  nodeID : NodeID
  weight : ℕ
  balance : ℕ
  signerPublicKey : Bytes
  remainingBalanceOwner : PChainOwner
  deactivationOwner : PChainOwner

/-- The warp message `message.RegisterL1Validator`. -/
structure RegisterL1Validator where
  subnetID : ID
  nodeID : NodeID
  blsPublicKey : Bytes
  expiry : ℕ
  remainingBalanceOwner : PChainOwner
  disableOwner : PChainOwner
  weight : ℕ

/-- The warp message `message.L1ValidatorWeight`. -/
structure L1ValidatorWeight where
  validationID : ID
  nonce : ℕ
  weight : ℕ

/-- Who sent a warp message. -/
structure WarpSource where
  sourceChainID : ID
  sourceAddress : Bytes

/-- The transactions of a standard block. What any other transaction does is its
effect on the stakers and the UTXO set. -/
inductive Tx where
  | convertSubnetToL1 (tx : BaseTx) (subnet chainID : ID) (address : Bytes)
      (validators : List ConvertSubnetToL1Validator)
  | registerL1Validator (tx : BaseTx) (balance : ℕ) (source : WarpSource)
      (msg : RegisterL1Validator)
  | setL1ValidatorWeight (tx : BaseTx) (source : WarpSource) (msg : L1ValidatorWeight)
  | increaseL1ValidatorBalance (tx : BaseTx) (validationID : ID) (balance : ℕ)
  | disableL1Validator (tx : BaseTx) (validationID : ID)
  | other (staking : Staking) (writes : List UTXOWrite)

/-- What the execution of a transaction takes from outside. -/
structure Backend (T : TreeOps L1Validator) where
  config : ValidatorFee.Config
  avaxAssetID : ID
  /-- The syntactic checks, the credentials and the parsing of warp messages, where
  they are not part of the model. -/
  verifyTx : ChainState T → Tx → Except String Unit
  calculateFee : Tx → Except String ℕ
  /-- `FlowChecker.VerifySpend`. -/
  verifySpend : ChainState T → BaseTx → (fee : ℕ) → Except String Unit
  /-- `bls.PublicKeyToUncompressedBytes` of a key in compressed form. -/
  uncompressed : Bytes → Bytes
  /-- `RegisterL1Validator.ValidationID`, a hash of the message. -/
  validationID : RegisterL1Validator → ID
  /-- `ids.ID.Append`, a hash of the ID and the suffix. -/
  append : ID → ℕ → ID
  /-- `message.SubnetToL1ConversionID`. -/
  conversionID : Tx → Except String ID

section Execution

variable {T : TreeOps L1Validator} (B : Backend T) (base : L1View)

/-- `avax.Consume`. -/
def ChainState.consume (s : ChainState T) (tx : BaseTx) : ChainState T :=
  { s with utxoWrites := s.utxoWrites ++ tx.ins.map (fun i => .deleteUTXO i.1 i.2) }

/-- `avax.Produce`. -/
def ChainState.produce (s : ChainState T) (tx : BaseTx) : ChainState T :=
  { s with utxoWrites := s.utxoWrites ++
      tx.outs.mapIdx (fun index out => .addUTXO ⟨tx.txID, index % 2 ^ 32, out⟩) }

/-- `verifyL1Conversion`. -/
def verifyL1Conversion (s : ChainState T) (subnetID : ID) (source : WarpSource) :
    Except ExecError Unit :=
  match s.conversions.lookup subnetID with
  | none => .error .couldNotLoadSubnetToL1Conversion
  | some conversion =>
    if source.sourceChainID ≠ conversion.chainID then .error .wrongWarpMessageSourceChainID
    else if source.sourceAddress ≠ conversion.addr then .error .wrongWarpMessageSourceAddress
    else .ok ()

/-- There has to be room for one more active validator. -/
def checkCapacity (s : ChainState T) : Except ExecError Unit :=
  if B.config.capacity ≤ s.numActive base then .error .maxNumActiveValidators else .ok ()

/-- The `EndAccumulatedFee` of a new validator: it is active if it has a balance. -/
def initialEndAccumulatedFee (s : ChainState T) (balance : ℕ) : Except ExecError ℕ :=
  if balance = 0 then .ok 0
  else do
    checkCapacity B base s
    liftState (mathAdd balance s.accruedFees)

/-- Give the remaining balance of an active validator back to its owner. The
source's two callers differ in the error for an owner that cannot be unpacked. -/
def refund (malformed : ExecError) (s : ChainState T) (tx : BaseTx) (v : L1Validator) :
    Except ExecError (ChainState T) :=
  match PChainOwner.unmarshal v.remainingBalanceOwner with
  | none => .error malformed
  | some owner =>
    if v.endAccumulatedFee ≤ s.accruedFees then
      .error (.stateCorruption "validator should have already been disabled")
    else
      .ok (s.addUTXO
        { txID := tx.txID
          outputIndex := tx.outs.length % 2 ^ 32
          out :=
            { assetID := B.avaxAssetID
              amount := v.endAccumulatedFee - s.accruedFees
              owner } })

/-! ### ConvertSubnetToL1Tx -/

/-- `constants.PrimaryNetworkID`. -/
def primaryNetworkID : ID := 0

/-- `ids.EmptyNodeID`. -/
def emptyNodeID : NodeID := 0

def ConvertSubnetToL1Validator.verify (v : ConvertSubnetToL1Validator) : Except ExecError Unit :=
  if v.weight = 0 then .error .zeroWeight
  else if v.nodeID = emptyNodeID then .error .emptyNodeID
  else do
    v.remainingBalanceOwner.verify
    v.deactivationOwner.verify

/-- `ConvertSubnetToL1Tx.SyntacticVerify`. -/
def convertSyntacticVerify (subnet : ID) (address : Bytes)
    (validators : List ConvertSubnetToL1Validator) : Except ExecError Unit :=
  if subnet = primaryNetworkID then .error .convertPermissionlessSubnet
  else if 4096 < address.length then .error .addressTooLong
  else if validators.isEmpty then .error .convertMustIncludeValidators
  else if ¬ validators.Pairwise (fun a b => a.nodeID < b.nodeID) then
    .error .convertValidatorsNotSortedAndUnique
  else validators.forM (fun v => v.verify)

/-- Add the balance of a validator to the fee of the conversion. -/
def addDeposit (fee balance : ℕ) : Except ExecError ℕ :=
  if balance = 0 then .ok fee else liftState (mathAdd fee balance)

/-- One iteration of the loop over the validators of a conversion. -/
def convertValidator (subnet : ID) (i : ℕ) (vdr : ConvertSubnetToL1Validator)
    (s : ChainState T) (fee : ℕ) : Except ExecError (ChainState T × ℕ) := do
  let remainingBalanceOwner ← vdr.remainingBalanceOwner.marshal
  let deactivationOwner ← vdr.deactivationOwner.marshal
  let endAccumulatedFee ← initialEndAccumulatedFee B base s vdr.balance
  let fee ← addDeposit fee vdr.balance
  let s ← s.putL1Validator base
    { validationID := B.append subnet i
      subnetID := subnet
      nodeID := vdr.nodeID
      publicKey := B.uncompressed vdr.signerPublicKey
      remainingBalanceOwner
      deactivationOwner
      startTime := s.timestamp
      weight := vdr.weight
      minNonce := 0
      endAccumulatedFee }
  return (s, fee)

def convertValidators (subnet : ID) : ℕ → List ConvertSubnetToL1Validator → ChainState T → ℕ →
    Except ExecError (ChainState T × ℕ)
  | _, [], s, fee => .ok (s, fee)
  | i, vdr :: vdrs, s, fee => do
      let (s, fee) ← convertValidator B base subnet i vdr s fee
      convertValidators subnet (i + 1) vdrs s fee

/-- A subnet that was converted cannot be converted again. -/
def verifyNotConverted (s : ChainState T) (subnet : ID) : Except ExecError Unit :=
  if (s.conversions.lookup subnet).isSome then .error .isImmutable else .ok ()

def convertSubnetToL1Tx (s : ChainState T) (tx : BaseTx) (subnet chainID : ID) (address : Bytes)
    (validators : List ConvertSubnetToL1Validator) : Except ExecError (ChainState T) := do
  let unsigned := Tx.convertSubnetToL1 tx subnet chainID address validators
  convertSyntacticVerify subnet address validators
  liftCheck (B.verifyTx s unsigned)
  verifyNotConverted s subnet
  let fee ← liftCheck (B.calculateFee unsigned)
  let (s, fee) ← convertValidators B base subnet 0 validators s fee
  liftCheck (B.verifySpend s tx fee)
  let conversionID ← liftCheck (B.conversionID unsigned)
  let s := (s.consume tx).produce tx
  return { s with conversions := s.conversions.insert subnet ⟨conversionID, chainID, address⟩ }

/-! ### RegisterL1ValidatorTx -/

def RegisterL1Validator.verify (r : RegisterL1Validator) : Except ExecError Unit :=
  if r.subnetID = primaryNetworkID then .error .invalidSubnetID
  else if r.weight = 0 then .error .invalidWeight
  else if r.nodeID = emptyNodeID then .error .invalidNodeID
  else do
    r.remainingBalanceOwner.verify
    r.disableOwner.verify

/-- `RegisterL1ValidatorTxExpiryWindow`, a day in seconds. -/
def registerL1ValidatorTxExpiryWindow : ℕ := 24 * 60 * 60

/-- The message is neither expired, nor too early, nor already issued. -/
def verifyExpiry (s : ChainState T) (expiry : ExpiryEntry) : Except ExecError Unit :=
  if expiry.timestamp ≤ s.timestamp then .error .warpMessageExpired
  else if registerL1ValidatorTxExpiryWindow < expiry.timestamp - s.timestamp then
    .error .warpMessageNotYetAllowed
  else if expiry ∈ s.expiries then .error .warpMessageAlreadyIssued
  else .ok ()

def registerL1ValidatorTx (s : ChainState T) (tx : BaseTx) (balance : ℕ) (source : WarpSource)
    (msg : RegisterL1Validator) : Except ExecError (ChainState T) := do
  let unsigned := Tx.registerL1Validator tx balance source msg
  liftCheck (B.verifyTx s unsigned)
  let fee ← liftCheck (B.calculateFee unsigned)
  let fee ← liftState (mathAdd fee balance)
  liftCheck (B.verifySpend s tx fee)
  msg.verify
  verifyL1Conversion s msg.subnetID source
  let expiry : ExpiryEntry := ⟨msg.expiry, B.validationID msg⟩
  verifyExpiry s expiry
  let remainingBalanceOwner ← msg.remainingBalanceOwner.marshal
  let deactivationOwner ← msg.disableOwner.marshal
  let endAccumulatedFee ← initialEndAccumulatedFee B base s balance
  let s ← s.putL1Validator base
    { validationID := B.validationID msg
      subnetID := msg.subnetID
      nodeID := msg.nodeID
      publicKey := B.uncompressed msg.blsPublicKey
      remainingBalanceOwner
      deactivationOwner
      startTime := s.timestamp
      weight := msg.weight
      minNonce := 0
      endAccumulatedFee }
  let s := (s.consume tx).produce tx
  return { s with expiries := insert expiry s.expiries }

/-! ### SetL1ValidatorWeightTx -/

def L1ValidatorWeight.verify (m : L1ValidatorWeight) : Except ExecError Unit :=
  if m.nonce = maxUint64 ∧ m.weight ≠ 0 then .error .nonceReservedForRemoval else .ok ()

def loadL1Validator (s : ChainState T) (validationID : ID) : Except ExecError L1Validator :=
  ((s.view base).getL1Validator validationID).mapError .couldNotLoadL1Validator

/-- What is done for a validator whose weight is set to 0: it must not be the last
one, and what is left of its balance is returned. -/
def removeL1Validator (s : ChainState T) (tx : BaseTx) (v : L1Validator) :
    Except ExecError (ChainState T) := do
  let weight ← liftState ((s.view base).weightOfL1Validators v.subnetID)
  if weight = v.weight then throw .removingLastValidator
  else if v.endAccumulatedFee = 0 then return s
  else refund B (.stateCorruption "remaining balance owner is malformed") s tx v

def verifyNonce (msg : L1ValidatorWeight) (v : L1Validator) : Except ExecError Unit :=
  if msg.nonce < v.minNonce then .error .warpMessageContainsStaleNonce else .ok ()

/-- Before the new weight is written: a weight of 0 removes the validator. -/
def settleWeight (s : ChainState T) (tx : BaseTx) (msg : L1ValidatorWeight) (v : L1Validator) :
    Except ExecError (ChainState T) :=
  if msg.weight = 0 then removeL1Validator B base s tx v else .ok s

def setL1ValidatorWeightTx (s : ChainState T) (tx : BaseTx) (source : WarpSource)
    (msg : L1ValidatorWeight) : Except ExecError (ChainState T) := do
  let unsigned := Tx.setL1ValidatorWeight tx source msg
  liftCheck (B.verifyTx s unsigned)
  let fee ← liftCheck (B.calculateFee unsigned)
  liftCheck (B.verifySpend s tx fee)
  msg.verify
  let v ← loadL1Validator base s msg.validationID
  verifyNonce msg v
  verifyL1Conversion s v.subnetID source
  let s ← settleWeight B base s tx msg v
  let s ← s.putL1Validator base
    { v with minNonce := (msg.nonce + 1) % 2 ^ 64, weight := msg.weight }
  return (s.consume tx).produce tx

/-! ### IncreaseL1ValidatorBalanceTx -/

/-- The `EndAccumulatedFee` a balance is added to; an inactive validator is
activated. -/
def activate (s : ChainState T) (v : L1Validator) : Except ExecError ℕ :=
  if v.endAccumulatedFee = 0 then do
    checkCapacity B base s
    return s.accruedFees
  else .ok v.endAccumulatedFee

/-- `IncreaseL1ValidatorBalanceTx.SyntacticVerify`. -/
def verifyPositive (balance : ℕ) : Except ExecError Unit :=
  if balance = 0 then .error .zeroBalance else .ok ()

def increaseL1ValidatorBalanceTx (s : ChainState T) (tx : BaseTx) (validationID : ID)
    (balance : ℕ) : Except ExecError (ChainState T) := do
  let unsigned := Tx.increaseL1ValidatorBalance tx validationID balance
  verifyPositive balance
  liftCheck (B.verifyTx s unsigned)
  let fee ← liftCheck (B.calculateFee unsigned)
  let fee ← liftState (mathAdd fee balance)
  liftCheck (B.verifySpend s tx fee)
  let v ← liftState ((s.view base).getL1Validator validationID)
  let endAccumulatedFee ← activate B base s v
  let endAccumulatedFee ← liftState (mathAdd endAccumulatedFee balance)
  let s ← s.putL1Validator base { v with endAccumulatedFee }
  return (s.consume tx).produce tx

/-! ### DisableL1ValidatorTx -/

def verifyDisableOwner (v : L1Validator) : Except ExecError Unit :=
  match PChainOwner.unmarshal v.deactivationOwner with
  | none => .error .codec
  | some _ => .ok ()

/-- Refund and deactivate a validator; there is nothing to do for one that is already
disabled. -/
def settleDisable (s : ChainState T) (tx : BaseTx) (v : L1Validator) :
    Except ExecError (ChainState T) :=
  if v.endAccumulatedFee = 0 then .ok s
  else do
    let s ← refund B .codec s tx v
    s.putL1Validator base { v with endAccumulatedFee := 0 }

def disableL1ValidatorTx (s : ChainState T) (tx : BaseTx) (validationID : ID) :
    Except ExecError (ChainState T) := do
  let unsigned := Tx.disableL1Validator tx validationID
  let v ← loadL1Validator base s validationID
  verifyDisableOwner v
  liftCheck (B.verifyTx s unsigned)
  let fee ← liftCheck (B.calculateFee unsigned)
  liftCheck (B.verifySpend s tx fee)
  settleDisable B base ((s.consume tx).produce tx) tx v

/-! ### Blocks -/

def standardTx (s : ChainState T) : Tx → Except ExecError (ChainState T)
  | .convertSubnetToL1 tx subnet chainID address validators =>
    convertSubnetToL1Tx B base s tx subnet chainID address validators
  | .registerL1Validator tx balance source msg => registerL1ValidatorTx B base s tx balance source msg
  | .setL1ValidatorWeight tx source msg => setL1ValidatorWeightTx B base s tx source msg
  | .increaseL1ValidatorBalance tx validationID balance =>
    increaseL1ValidatorBalanceTx B base s tx validationID balance
  | .disableL1Validator tx validationID => disableL1ValidatorTx B base s tx validationID
  | .other staking writes => .ok { s with staking, utxoWrites := s.utxoWrites ++ writes }

def standardTxs : ChainState T → List Tx → Except ExecError (ChainState T)
  | s, [] => .ok s
  | s, tx :: txs => do
      let s ← standardTx B base s tx
      standardTxs s txs

/-- A block, with the local time of its verification and the stakers after its time
advance. -/
structure Block where
  timestamp : ℕ
  now : ℕ
  staking : Staking
  txs : List Tx

/-- The L1 part of a standard block, or of a proposal block before its option. -/
def executeBlock (s : ChainState T) (b : Block) : Except ExecError (ChainState T) := do
  verifyNewChainTime B.config base s b.timestamp b.now
  let s ← advanceTimeTo B.config base s b.timestamp b.staking
  let s ← standardTxs B base s b.txs
  deactivateLowBalanceL1Validators B.config base s

end Execution

end Titan.PChain
