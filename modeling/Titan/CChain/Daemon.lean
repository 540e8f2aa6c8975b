import Titan.CChain.Config

/-!
# Titan.CChain.Daemon — the daemon call and its mint

After a successful transaction on a Flare or Songbird chain the node calls the
daemon contract, reads a mint request from the returned data and mints it onto
the daemon account. The call and the mint are meant to be one atomic step.

The snapshot taken before the call is used only when the request exceeds the
maximum, so a successful call that returns malformed data keeps its state
changes. The last section says exactly when the step is atomic.
-/

namespace Titan.CChain

/-- Big-endian value of a byte string. -/
def bytesToNat (b : Bytes) : ℕ := b.foldl (fun acc x => acc * 256 + x.toNat) 0

/-- `uint256.SetBytes32`. -/
def setBytes32 (b : Bytes) : Uint256 := BitVec.ofNat 256 (bytesToNat b)

inductive DaemonError where
  | invalidDaemonData
  | daemonDataEmpty
  | callFailed (err : VMError)
  | maxMintExceeded (mintMax mintRequest : Uint256)
deriving DecidableEq, Repr

def DaemonError.message : DaemonError → String
  | invalidDaemonData => "invalid return data from daemon"
  | daemonDataEmpty => "return data from daemon empty"
  | callFailed .executionReverted => "execution reverted"
  | callFailed (.other reason) => reason
  | maxMintExceeded mintMax mintRequest =>
    "mint request of " ++ toString mintRequest.toNat ++ " exceeded max of " ++
      toString mintMax.toNat

def getDaemonGasMultiplier (_blockTime : Uint64) : Uint64 := 100

def getDaemonContractAddr (_blockTime : Uint64) : Address :=
  hexToAddress 0x1000000000000000000000000000000000000002

def getDaemonSelector (_blockTime : Uint64) : Bytes := [0x7f, 0xec, 0x8d, 0x38]

def getMaximumMintRequest (chainID : ℕ) (_blockTime : Uint64) : Uint256 :=
  if chainID = flareChainID ∨ chainID = costwoChainID ∨ chainID = localFlareChainID ∨
      chainID = titanChainID then
    60000000000000000000000000
  else
    50000000000000000000000000

/-- `safemath.Mul` with saturation at `MaxUint64`. -/
def saturatingMul (a b : Uint64) : Uint64 :=
  if a.toNat * b.toNat < 2 ^ 64 then a * b else maxUint64

variable {σ : Type}

/-- `DaemonCall`: snapshot, then call with a zero value. Tracing is switched off
for the duration of the call; the model has no tracer. -/
def daemonCall (st : StateTransition σ) (caller addr : Address) (input : Bytes) (gas : Uint64) :
    ℕ × CallResult σ × StateTransition σ :=
  let (snapshot, db) := st.state.snapshot
  let result := st.evm.call st.evm.context db.world caller addr input gas 0
  (snapshot, result, { st with state := db.modify (fun _ => result.world) })

namespace StateTransition

def daemonContract (st : StateTransition σ) : Address := getDaemonContractAddr st.evm.context.time

def daemonGas (st : StateTransition σ) : Uint64 :=
  saturatingMul (getDaemonGasMultiplier st.evm.context.time) st.evm.context.gasLimit

end StateTransition

/-- `daemon`: call the contract and read the mint request. -/
def daemon (st : StateTransition σ) :
    (ℕ × Uint256 × Option DaemonError) × StateTransition σ :=
  let (daemonSnapshot, result, st') := daemonCall st st.daemonContract st.daemonContract
    (getDaemonSelector st.evm.context.time) st.daemonGas
  match result.err, result.ret with
  | none, some daemonRet =>
    if daemonRet.length = 32 then
      ((daemonSnapshot, setBytes32 daemonRet, none), st')
    else
      ((0, 0, some .invalidDaemonData), st')
  | some daemonErr, _ => ((0, 0, some (.callFailed daemonErr)), st')
  | none, none => ((0, 0, some .daemonDataEmpty), st')

/-- The chain ID of `GetMaximumMintRequest`; the daemon runs only on chains that
have one. -/
def StateTransition.maximumMintRequest (st : StateTransition σ) : Uint256 :=
  getMaximumMintRequest (st.evm.chainID.getD 0) st.evm.context.time

def mint (st : StateTransition σ) (mintRequest : Uint256) :
    Option DaemonError × StateTransition σ :=
  let max := st.maximumMintRequest
  if 0 < mintRequest ∧ mintRequest ≤ max then
    (none, { st.modify (fun w => w.addBalance st.daemonContract mintRequest) with
      ledger := { st.ledger with minted := st.ledger.minted + mintRequest.toNat } })
  else if max < mintRequest then
    (some (.maxMintExceeded max mintRequest), st)
  else
    -- a zero request does nothing
    (none, st)

/-- `atomicDaemonAndMint`. Warnings go to the log, which the model leaves out. -/
def atomicDaemonAndMint (st : StateTransition σ) : StateTransition σ :=
  let ((daemonSnapshot, mintRequest, daemonErr), st₁) := daemon st
  match daemonErr with
  | none =>
    match mint st₁ mintRequest with
    | (none, st₂) => st₂
    | (some _, st₂) => { st₂ with state := st₂.state.revertToSnapshot daemonSnapshot }
  | some _ => st₁

/-! ## What the daemon delivers -/

namespace StateTransition

/-- What `evm.Call` answers to the daemon call of this transition. -/
def daemonResult (st : StateTransition σ) : CallResult σ :=
  st.evm.call st.evm.context st.state.world st.daemonContract st.daemonContract
    (getDaemonSelector st.evm.context.time) st.daemonGas 0

/-- The transition after the daemon call, whatever the call answered. -/
def afterDaemonCall (st : StateTransition σ) : StateTransition σ :=
  { st with state := st.state.snapshot.2.modify (fun _ => st.daemonResult.world) }

/-- The mint request: a successful call that returned 32 bytes. -/
def daemonRequest (st : StateTransition σ) : Option Uint256 :=
  match st.daemonResult.err, st.daemonResult.ret with
  | none, some daemonRet =>
    if daemonRet.length = 32 then some (setBytes32 daemonRet) else none
  | _, _ => none

end StateTransition

/-- `daemon` in terms of what the call answered. -/
theorem daemon_eq (st : StateTransition σ) :
    daemon st =
      match st.daemonResult.err, st.daemonResult.ret with
      | none, some daemonRet =>
        if daemonRet.length = 32 then
          ((st.state.snapshot.1, setBytes32 daemonRet, none), st.afterDaemonCall)
        else
          ((0, 0, some .invalidDaemonData), st.afterDaemonCall)
      | some daemonErr, _ => ((0, 0, some (.callFailed daemonErr)), st.afterDaemonCall)
      | none, none => ((0, 0, some .daemonDataEmpty), st.afterDaemonCall) := rfl

variable {st : StateTransition σ}

theorem daemon_of_request {r : Uint256} (hr : st.daemonRequest = some r) :
    daemon st = ((st.state.snapshot.1, r, none), st.afterDaemonCall) := by
  unfold StateTransition.daemonRequest at hr
  split at hr
  · rename_i daemonRet herr hret
    split at hr
    · rename_i hlen
      rw [daemon_eq, herr, hret]
      simp only [if_pos hlen, Option.some.inj hr]
    · cases hr
  · cases hr

/-- Every exit without a request is an error, and none of them reverts. -/
theorem daemon_of_no_request (hr : st.daemonRequest = none) :
    ∃ e, daemon st = ((0, 0, some e), st.afterDaemonCall) := by
  rw [daemon_eq]
  unfold StateTransition.daemonRequest at hr
  rcases herr : st.daemonResult.err with _ | e
  · rcases hret : st.daemonResult.ret with _ | daemonRet
    · exact ⟨.daemonDataEmpty, rfl⟩
    · have hlen : ¬ daemonRet.length = 32 := by
        intro hlen
        simp [herr, hret, hlen] at hr
      exact ⟨.invalidDaemonData, by simp only [if_neg hlen]⟩
  · exact ⟨.callFailed e, rfl⟩

/-! ## The three exits of `atomicDaemonAndMint` -/

theorem atomicDaemonAndMint_of_no_request (hr : st.daemonRequest = none) :
    atomicDaemonAndMint st = st.afterDaemonCall := by
  obtain ⟨e, he⟩ := daemon_of_no_request hr
  simp only [atomicDaemonAndMint, he]

/-- A request above the maximum unwinds the daemon call. -/
theorem atomicDaemonAndMint_of_gt {r : Uint256} (hr : st.daemonRequest = some r)
    (hmax : st.maximumMintRequest < r) : atomicDaemonAndMint st = st := by
  have hle : ¬ r ≤ st.maximumMintRequest := by bv_omega
  have hmint : mint st.afterDaemonCall r =
      (some (.maxMintExceeded st.maximumMintRequest r), st.afterDaemonCall) := by
    have hkeep : st.afterDaemonCall.maximumMintRequest = st.maximumMintRequest := rfl
    simp only [mint, hkeep, hle, and_false, if_false, hmax, if_true]
  simp only [atomicDaemonAndMint, daemon_of_request hr, hmint]
  simp [StateTransition.afterDaemonCall, StateDB.snapshot, StateDB.modify, StateDB.revertToSnapshot]

/-- A request within the maximum is minted on top of what the call left. -/
theorem atomicDaemonAndMint_of_le {r : Uint256} (hr : st.daemonRequest = some r)
    (hmax : r ≤ st.maximumMintRequest) :
    atomicDaemonAndMint st =
      { st.afterDaemonCall.modify (fun w => w.addBalance st.daemonContract r) with
        ledger := { st.ledger with minted := st.ledger.minted + r.toNat } } := by
  have hkeep : st.afterDaemonCall.maximumMintRequest = st.maximumMintRequest := rfl
  simp only [atomicDaemonAndMint, daemon_of_request hr]
  by_cases hpos : 0 < r
  · simp only [mint, hkeep, hpos, hmax, and_self, if_true]
    rfl
  · -- a zero request: crediting nothing is doing nothing
    have hzero : r = 0 := by bv_omega
    simp only [hzero, World.addBalance_zero]
    rfl

/-! ## Atomicity -/

/-- `evm.Call` undoes its own state changes when it fails. -/
def EVM.RevertsOnError (evm : EVM σ) : Prop :=
  ∀ ctx w caller addr input gas value,
    (evm.call ctx w caller addr input gas value).err ≠ none →
      (evm.call ctx w caller addr input gas value).world = w

/-- `post` is `pre` with exactly `r` more on account `a`. -/
def World.CreditedBy (pre post : World σ) (a : Address) (r : ℕ) : Prop :=
  (post.balance a).toNat = (pre.balance a).toNat + r ∧
  post = { pre with balance := Function.update pre.balance a (post.balance a) }

/-- All or nothing: the state before the daemon call, or the state of a call
that delivered a request within the maximum, with that request minted. -/
def StateTransition.DaemonAtomic (st : StateTransition σ) (post : World σ) : Prop :=
  post = st.state.world ∨
  ∃ r, st.daemonRequest = some r ∧ r ≤ st.maximumMintRequest ∧
    st.daemonResult.world.CreditedBy post st.daemonContract r.toNat

/-- When the step is atomic. Without a request the call must have failed or
changed nothing; with one, its credit must fit the daemon's balance, or wrap
around to the very state before the call. -/
def StateTransition.DaemonAtomicWhen (st : StateTransition σ) : Prop :=
  match st.daemonRequest with
  | some r => r ≤ st.maximumMintRequest →
      (st.daemonResult.world.getBalance st.daemonContract).toNat + r.toNat < 2 ^ 256 ∨
      st.daemonResult.world.addBalance st.daemonContract r = st.state.world
  | none => st.daemonResult.err ≠ none ∨ st.daemonResult.world = st.state.world

/-- A credit is exact if and only if it does not wrap around. -/
theorem World.creditedBy_addBalance_iff (w : World σ) (a : Address) (r : Uint256) :
    w.CreditedBy (w.addBalance a r) a r.toNat ↔ (w.getBalance a).toNat + r.toNat < 2 ^ 256 := by
  have hself : (w.addBalance a r).balance a = w.balance a + r := Lib.credit_self _ _ _
  have hrest : w.addBalance a r =
      { w with balance := Function.update w.balance a ((w.addBalance a r).balance a) } := by
    rw [hself]
    rfl
  constructor
  · rintro ⟨hbal, -⟩
    unfold World.getBalance
    omega
  · intro hfit
    refine ⟨?_, hrest⟩
    rw [hself, BitVec.toNat_add]
    exact Nat.mod_eq_of_lt hfit

/-- The daemon step is all or nothing exactly under `DaemonAtomicWhen`. -/
theorem atomicDaemonAndMint_atomic_iff (st : StateTransition σ) (hevm : st.evm.RevertsOnError) :
    st.DaemonAtomic (atomicDaemonAndMint st).state.world ↔ st.DaemonAtomicWhen := by
  unfold StateTransition.DaemonAtomic StateTransition.DaemonAtomicWhen
  rcases hr : st.daemonRequest with _ | r
  · -- no request: what the call left is what stays
    have hpost : (atomicDaemonAndMint st).state.world = st.daemonResult.world := by
      rw [atomicDaemonAndMint_of_no_request hr]
      rfl
    rw [hpost]
    constructor
    · rintro (hsame | ⟨r, hr', -⟩)
      · exact Or.inr hsame
      · cases hr'
    · rintro (hfail | hsame)
      · exact Or.inl (hevm _ _ _ _ _ _ _ hfail)
      · exact Or.inl hsame
  · by_cases hmax : r ≤ st.maximumMintRequest
    · have hpost : (atomicDaemonAndMint st).state.world =
          st.daemonResult.world.addBalance st.daemonContract r := by
        rw [atomicDaemonAndMint_of_le hr hmax]
        rfl
      rw [hpost]
      constructor
      · rintro (hsame | ⟨r', hr', -, hcredit⟩) -
        · exact Or.inr hsame
        · obtain rfl : r = r' := Option.some.inj hr'
          exact Or.inl ((World.creditedBy_addBalance_iff _ _ _).mp hcredit)
      · intro hwhen
        rcases hwhen hmax with hfit | hsame
        · exact Or.inr ⟨r, rfl, hmax, (World.creditedBy_addBalance_iff _ _ _).mpr hfit⟩
        · exact Or.inl hsame
    · -- above the maximum the call is unwound
      have hgt : st.maximumMintRequest < r := by bv_omega
      rw [atomicDaemonAndMint_of_gt hr hgt]
      exact ⟨fun _ hle => absurd hle hmax, fun _ => Or.inl rfl⟩

/-! ### A daemon that answers with `ret` -/

/-- An EVM on chain `chainID` whose calls succeed, return `ret` and write 1 to
the state they share. -/
def writingEVM (chainID : ℕ) (ret : Option Bytes) : EVM ℕ where
  chainID := some chainID
  rules := ⟨true, true, true, true, true, true⟩
  context := ⟨systemCoinbase, 0, 8000000, none, none⟩
  noBaseFee := false
  call := fun _ w _ _ _ gas _ => ⟨{ w with rest := 1 }, ret, gas, none⟩
  create := fun _ w _ _ gas _ => ⟨w, none, gas, none⟩
  predicater := fun _ => none
  predicatersExist := false
  prepare := id
  executionInvalidated := fun _ => none

theorem writingEVM_revertsOnError (chainID : ℕ) (ret : Option Bytes) :
    (writingEVM chainID ret).RevertsOnError := by
  intro _ _ _ _ _ _ _ herr
  exact absurd rfl herr

def emptyMessage : Message :=
  ⟨none, hexToAddress 0, 0, 0, 0, 0, none, 0, [], none, none, none, false⟩

/-- A transition over empty accounts whose daemon returns `ret`. -/
def daemonTransition (ret : Option Bytes) : StateTransition ℕ :=
  newStateTransition (writingEVM titanChainID ret) emptyMessage 0
    ⟨⟨fun _ => 0, fun _ => 0, fun _ => 0, 0, 0⟩, []⟩

/-- A 32-byte request of 1 is minted atomically. -/
theorem atomicDaemonAndMint_atomic_request_one :
    (daemonTransition (some (List.replicate 31 0 ++ [1]))).DaemonAtomic
      (atomicDaemonAndMint (daemonTransition (some (List.replicate 31 0 ++ [1])))).state.world := by
  refine (atomicDaemonAndMint_atomic_iff _ (writingEVM_revertsOnError _ _)).mpr ?_
  intro _
  exact Or.inl (by decide)

/-- A daemon that succeeds with empty return data: its write survives, though no
request came back. -/
theorem atomicDaemonAndMint_keeps_malformed :
    (daemonTransition (some [])).evm.RevertsOnError ∧
    (daemonTransition (some [])).daemonRequest = none ∧
    (daemonTransition (some [])).state.world.rest = 0 ∧
    (atomicDaemonAndMint (daemonTransition (some []))).state.world.rest = 1 ∧
    ¬ (daemonTransition (some [])).DaemonAtomic
      (atomicDaemonAndMint (daemonTransition (some []))).state.world := by
  have hnone : (daemonTransition (some [])).daemonRequest = none := rfl
  refine ⟨writingEVM_revertsOnError _ _, hnone, rfl, rfl, ?_⟩
  rintro (hsame | ⟨r, hr, -⟩)
  · exact absurd (congrArg World.rest hsame) (by decide)
  · rw [hnone] at hr
    cases hr

end Titan.CChain
