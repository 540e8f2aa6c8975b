import Titan.CChain.SystemContracts

/-!
# Titan.CChain.StateTransition — applying one message

`transitionDb` in the stages of the source: the checks before execution, the
purchase of gas, the intrinsic gas, the call or creation with the system
contracts behind it, the settlement of fees, and the daemon.

A Go panic is an error of the model: the transition does not return.
-/

namespace Titan.CChain

inductive TransitionError where
  | nonceTooHigh (addr : Address) (tx state : Uint64)
  | nonceTooLow (addr : Address) (tx state : Uint64)
  | nonceMax (addr : Address) (nonce : Uint64)
  | senderNoEOA (addr : Address) (codeHash : Hash)
  | feeCapVeryHigh (addr : Address) (maxFeePerGas : ℕ)
  | tipVeryHigh (addr : Address) (maxPriorityFeePerGas : ℕ)
  | tipAboveFeeCap (addr : Address) (maxPriorityFeePerGas maxFeePerGas : ℕ)
  | feeCapTooLow (addr : Address) (maxFeePerGas baseFee : ℕ)
  | blobTxCreate
  | missingBlobHashes
  | invalidBlobHashVersion (i : ℕ)
  | blobFeeCapTooLow (addr : Address) (blobGasFeeCap blobBaseFee : ℕ)
  | requiredBalanceExceeds256Bits (addr : Address)
  | insufficientFunds (addr : Address) (have_ want : Uint256)
  | gasLimitReached
  | gasUintOverflow
  | predicateGas (reason : String)
  | intrinsicGas (have_ want : Uint64)
  | insufficientFundsForTransfer (addr : Address)
  | maxInitCodeSizeExceeded (size limit : ℕ)
  | invalidCoinbase
  | executionInvalidated (err : VMError)
  /-- Panic: a `nil` fee field of the message or the block. -/
  | nilPointer
  /-- Panic: `gas pool pushed above uint64`. -/
  | gasPoolOverflow
deriving DecidableEq, Repr

variable {σ : Type}

/-! ## Checks before execution -/

/-- `types.EmptyCodeHash`, the Keccak-256 hash of no code. -/
def emptyCodeHash : Hash := 0xc5d2460186f7233c927e7db2dcc703c0e500b653ca82273b7bfad8045d85a470

/-- Nonce and account type of the sender; skipped for fake transactions. -/
def checkAccount (st : StateTransition σ) : Except TransitionError Unit :=
  let sender := st.msg.sender
  let stNonce := st.state.world.nonce sender
  let codeHash := st.state.world.codeHash sender
  if st.msg.skipAccountChecks then .ok ()
  else if stNonce < st.msg.nonce then .error (.nonceTooHigh sender st.msg.nonce stNonce)
  else if st.msg.nonce < stNonce then .error (.nonceTooLow sender st.msg.nonce stNonce)
  else if stNonce + 1 < stNonce then .error (.nonceMax sender stNonce)
  else if codeHash ≠ 0 ∧ codeHash ≠ emptyCodeHash then .error (.senderNoEOA sender codeHash)
  else .ok ()

/-- Fee cap and tip against the base fee, from London on. -/
def checkFeeCap (st : StateTransition σ) : Except TransitionError Unit :=
  let sender := st.msg.sender
  if ¬ st.evm.rules.isLondon then .ok ()
  else
    match st.msg.gasFeeCap with
    | none => .error .nilPointer
    | some feeCap =>
      if st.evm.noBaseFee ∧ feeCap = 0 ∧ st.msg.gasTipCap = 0 then .ok ()
      else if 2 ^ 256 ≤ feeCap then .error (.feeCapVeryHigh sender feeCap)
      else if 2 ^ 256 ≤ st.msg.gasTipCap then .error (.tipVeryHigh sender st.msg.gasTipCap)
      else if feeCap < st.msg.gasTipCap then
        .error (.tipAboveFeeCap sender st.msg.gasTipCap feeCap)
      else
        match st.evm.context.baseFee with
        | none => .error .nilPointer
        | some baseFee =>
          if feeCap < baseFee then .error (.feeCapTooLow sender feeCap baseFee) else .ok ()

/-- `kzg4844.IsValidVersionedHash`: the first byte is the version, 1. -/
def isValidVersionedHash (hash : Hash) : Bool := hash >>> 248 = 1

def checkBlobHashes (st : StateTransition σ) : Except TransitionError Unit :=
  match st.msg.blobHashes with
  | none => .ok ()
  | some hashes =>
    if st.msg.toAddr = none then .error .blobTxCreate
    else if hashes.length = 0 then .error .missingBlobHashes
    else
      match hashes.findIdx? (fun hash => !isValidVersionedHash hash) with
      | some i => .error (.invalidBlobHashVersion i)
      | none => .ok ()

def checkBlobFeeCap (st : StateTransition σ) : Except TransitionError Unit :=
  if ¬ (st.evm.rules.isCancun ∧ 0 < st.blobGasUsed) then .ok ()
  else
    match st.msg.blobGasFeeCap with
    | none => .error .nilPointer
    | some feeCap =>
      if st.evm.noBaseFee ∧ feeCap = 0 then .ok ()
      else
        match st.evm.context.blobBaseFee with
        | none => .error .nilPointer
        | some baseFee =>
          if feeCap < baseFee then .error (.blobFeeCapTooLow st.msg.sender feeCap baseFee)
          else .ok ()

/-! ## The purchase of gas -/

/-- Gas limit times gas price, a `big.Int`. -/
def Message.gasCost (msg : Message) : ℕ := msg.gasLimit.toNat * msg.gasPrice

/-- Blob gas times a price, from Cancun on; `none` when the price is `nil`. -/
def StateTransition.blobCost (st : StateTransition σ) (price : Option ℕ) : Option ℕ :=
  if st.evm.rules.isCancun ∧ 0 < st.blobGasUsed then price.map (st.blobGasUsed.toNat * ·)
  else some 0

/-- What the sender must own before the blob part: the worst case of the fee cap
plus the value, or the actual cost when there is no fee cap. -/
def Message.balanceCheck (msg : Message) : ℕ :=
  match msg.gasFeeCap with
  | some feeCap => msg.gasLimit.toNat * feeCap + msg.value
  | none => msg.gasCost

/-- `GasPool.SubGas`. -/
def subGas (gp amount : Uint64) : Except TransitionError Uint64 :=
  if gp < amount then .error .gasLimitReached else .ok (gp - amount)

/-- `GasPool.AddGas`. -/
def addGas (gp amount : Uint64) : Except TransitionError Uint64 :=
  if maxUint64 - amount < gp then .error .gasPoolOverflow else .ok (gp + amount)

def buyGas (st : StateTransition σ) : Except TransitionError (StateTransition σ) :=
  match st.blobCost st.msg.blobGasFeeCap, st.blobCost st.evm.context.blobBaseFee with
  | some blobBalanceCheck, some blobFee =>
    let sender := st.msg.sender
    let balanceCheck := st.msg.balanceCheck + blobBalanceCheck
    let balance := st.state.world.getBalance sender
    if 2 ^ 256 ≤ balanceCheck then .error (.requiredBalanceExceeds256Bits sender)
    else if balance.toNat < balanceCheck then
      .error (.insufficientFunds sender balance (BitVec.ofNat 256 balanceCheck))
    else do
      let gp ← subGas st.gp st.msg.gasLimit
      -- the overflow flag of the conversion is dropped, as in the source
      let mgval : Uint256 := BitVec.ofNat 256 (st.msg.gasCost + blobFee)
      return { st.modify (fun w => w.subBalance sender mgval) with
        gp := gp
        gasRemaining := st.gasRemaining + st.msg.gasLimit
        initialGas := st.msg.gasLimit
        ledger := { st.ledger with debited := st.ledger.debited + st.msg.gasCost } }
  | _, _ => .error .nilPointer

def preCheck (st : StateTransition σ) : Except TransitionError (StateTransition σ) := do
  checkAccount st
  checkFeeCap st
  checkBlobHashes st
  checkBlobFeeCap st
  buyGas st

/-! ## Intrinsic gas -/

def txGas : Uint64 := 21000
def txGasContractCreation : Uint64 := 53000
def txDataZeroGas : Uint64 := 4
def txDataNonZeroGasFrontier : Uint64 := 68
def txDataNonZeroGasEIP2028 : Uint64 := 16
def initCodeWordGas : Uint64 := 2
def txAccessListAddressGas : Uint64 := 2400
def txAccessListStorageKeyGas : Uint64 := 1900
def maxInitCodeSize : ℕ := 49152

/-- `gas += n * cost`, refused when the result would exceed a `uint64`. -/
def chargeGas (gas n cost : Uint64) : Except TransitionError Uint64 :=
  if (maxUint64 - gas) / cost < n then .error .gasUintOverflow else .ok (gas + n * cost)

/-- `cmath.SafeAdd`. -/
def safeAdd (a b : Uint64) : Except TransitionError Uint64 :=
  if 2 ^ 64 ≤ a.toNat + b.toNat then .error .gasUintOverflow else .ok (a + b)

def toWordSize (size : Uint64) : Uint64 :=
  if maxUint64 - 31 < size then maxUint64 / 32 + 1 else (size + 31) / 32

/-- The loop of `accessListGas` when some contract is a predicater. -/
def predicatedAccessListGas (evm : EVM σ) : AccessList → Uint64 → Except TransitionError Uint64
  | [], gas => .ok gas
  | tuple :: rest, gas =>
    match evm.predicater tuple.address with
    | none => do
        let gas ← safeAdd gas (txAccessListAddressGas +
          BitVec.ofNat 64 tuple.storageKeys.length * txAccessListStorageKeyGas)
        predicatedAccessListGas evm rest gas
    | some predicateGas =>
      match predicateGas tuple.storageKeys with
      | .error reason => .error (.predicateGas reason)
      | .ok cost => do
          let gas ← safeAdd gas cost
          predicatedAccessListGas evm rest gas

def accessListGas (evm : EVM σ) (accessList : AccessList) : Except TransitionError Uint64 :=
  if evm.predicatersExist then
    predicatedAccessListGas evm accessList 0
  else
    .ok (BitVec.ofNat 64 accessList.length * txAccessListAddressGas +
      BitVec.ofNat 64 (accessList.map (·.storageKeys.length)).sum * txAccessListStorageKeyGas)

def intrinsicGas (evm : EVM σ) (data : Bytes) (accessList : Option AccessList)
    (isContractCreation : Bool) : Except TransitionError Uint64 := do
  let start := if isContractCreation && evm.rules.isHomestead then txGasContractCreation else txGas
  let nz : Uint64 := BitVec.ofNat 64 (data.countP (· ≠ 0))
  let dataLen : Uint64 := BitVec.ofNat 64 data.length
  let gas ←
    if data.length = 0 then pure start
    else do
      let nonZeroGas :=
        if evm.rules.isIstanbul then txDataNonZeroGasEIP2028 else txDataNonZeroGasFrontier
      let gas ← chargeGas start nz nonZeroGas
      let gas ← chargeGas gas (dataLen - nz) txDataZeroGas
      if isContractCreation && evm.rules.isDurango then
        chargeGas gas (toWordSize dataLen) initCodeWordGas
      else pure gas
  match accessList with
  | none => pure gas
  | some accessList => do
      let listGas ← accessListGas evm accessList
      safeAdd gas listGas

/-! ## Execution -/

/-- Intrinsic gas, the value of the topmost call, the init code size, the
preparation of the state, and the parameters of the chain. -/
def beforeExecution (st : StateTransition σ) :
    Except TransitionError (Uint256 × StateTransitionParams × StateTransition σ) := do
  let creation := st.msg.toAddr.isNone
  let gas ← intrinsicGas st.evm st.msg.data st.msg.accessList creation
  if st.gasRemaining < gas then .error (.intrinsicGas st.gasRemaining gas)
  else if 2 ^ 256 ≤ st.msg.value then .error (.insufficientFundsForTransfer st.msg.sender)
  else
    let value : Uint256 := BitVec.ofNat 256 st.msg.value
    -- `CanTransfer`
    if value ≠ 0 ∧ st.state.world.getBalance st.msg.sender < value then
      .error (.insufficientFundsForTransfer st.msg.sender)
    else if st.evm.rules.isDurango ∧ creation ∧ maxInitCodeSize < st.msg.data.length then
      .error (.maxInitCodeSizeExceeded st.msg.data.length maxInitCodeSize)
    else
      let st := { st.modify (fun w => { w with rest := st.evm.prepare w.rest }) with
        gasRemaining := st.gasRemaining - gas }
      match st.params with
      | none => .error .invalidCoinbase
      | some params => .ok (value, params, st)

/-- The system contracts behind a successful message call. -/
def handleContracts (env : Env) (params : StateTransitionParams) (st : StateTransition σ)
    (dest : Address) (ret : Bytes) : StateTransition σ :=
  match st.evm.chainID with
  | none => st
  | some chainID =>
    if params.isSongbird then
      handleSongbirdTransitionDbContracts env st st.evm.rules.isDurango chainID
        st.evm.context.time dest ret
    else if params.isFlare then
      handleFlareTransitionDbContracts env st st.evm.rules.isDurango chainID
        st.evm.context.time dest ret
    else
      st

/-- `evm.Create` or `evm.Call`; returns the data and the error of the EVM. -/
def execute (env : Env) (params : StateTransitionParams) (value : Uint256)
    (st : StateTransition σ) : (Option Bytes × Option VMError) × StateTransition σ :=
  let sender := st.msg.sender
  match st.msg.toAddr with
  | none =>
    let result := st.evm.create st.evm.context st.state.world sender st.msg.data
      st.gasRemaining value
    ((result.ret, result.err),
      { st.modify (fun _ => result.world) with gasRemaining := result.leftOverGas })
  | some dest =>
    let w := st.state.world.setNonce sender (st.state.world.nonce sender + 1)
    let result := st.evm.call st.evm.context w sender st.toAddress st.msg.data
      st.gasRemaining value
    let st' := { st.modify (fun _ => result.world) with gasRemaining := result.leftOverGas }
    match result.err with
    | some err => ((result.ret, some err), st')
    | none => ((result.ret, none), handleContracts env params st' dest (result.ret.getD []))

/-! ## Settlement -/

/-- The refund counter, capped to half of the used gas, before Apricot Phase 1. -/
def gasRefund (st : StateTransition σ) : Uint64 :=
  if st.evm.rules.isApricotPhase1 then 0
  else if st.state.world.refund < st.gasUsed / 2 then st.state.world.refund
  else st.gasUsed / 2

/-- `refundGas`, at a price already converted to 256 bits. -/
def refundGas (st : StateTransition σ) (price : Uint256) :
    Except TransitionError (Uint64 × StateTransition σ) := do
  let refund := gasRefund st
  let gasRemaining := st.gasRemaining + refund
  let remaining := gasRemaining.setWidth 256 * price
  let gp ← addGas st.gp gasRemaining
  return (refund, { st.modify (fun w => w.addBalance st.msg.sender remaining) with
    gp := gp
    gasRemaining := gasRemaining
    ledger := { st.ledger with refunded := st.ledger.refunded + remaining.toNat } })

/-- Credit the fee; a prioritised call pays at most the nominal fee. -/
def settleFees (env : Env) (params : StateTransitionParams) (price : Uint256)
    (ret : Option Bytes) (vmerr : Option VMError) (st : StateTransition σ) : StateTransition σ :=
  let actualFee := st.gasUsed.setWidth 256 * price
  if vmerr = none ∧ isPrioritisedContractCall env st.evm.chainID st.evm.context.time
      st.msg.toAddr st.msg.data ret st.initialGas then
    let nominalFee : Uint256 := txGas.setWidth 256 * params.nominalGasPrice.setWidth 256
    if nominalFee < actualFee then
      let feeRefund := actualFee - nominalFee
      creditCChainFees { st.modify (fun w => w.addBalance st.msg.sender feeRefund) with
        ledger := { st.ledger with feeRefunded := st.ledger.feeRefunded + feeRefund.toNat } }
        nominalFee txGas
    else
      creditCChainFees st actualFee st.gasUsed
  else
    creditCChainFees st actualFee st.gasUsed

structure ExecutionResult where
  usedGas : Uint64
  refundedGas : Uint64
  err : Option VMError
  returnData : Option Bytes

/-- `TransitionDb`. -/
def transitionDb (env : Env) (st : StateTransition σ) :
    Except TransitionError (ExecutionResult × StateTransition σ) := do
  let st ← preCheck st
  let (value, params, st) ← beforeExecution st
  let ((ret, vmerr), st) := execute env params value st
  if 2 ^ 256 ≤ st.msg.gasPrice then .error .gasUintOverflow
  else
    let price : Uint256 := BitVec.ofNat 256 st.msg.gasPrice
    let (refund, st) ← refundGas st price
    let st := settleFees env params price ret vmerr st
    let st := if vmerr = none ∧ (params.isSongbird ∨ params.isFlare) then atomicDaemonAndMint st
      else st
    match st.evm.executionInvalidated st.state.world with
    -- the source also reverts to its snapshot; the error ends the transition
    | some err => .error (.executionInvalidated err)
    | none => .ok (⟨st.gasUsed, refund, vmerr, ret⟩, st)

end Titan.CChain
