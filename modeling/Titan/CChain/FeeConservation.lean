import Titan.CChain.StateTransition

/-!
# Titan.CChain.FeeConservation — where the purchased gas goes

`buyGas` takes gas limit times gas price from the sender. This module follows
the amount through the stages of `transitionDb`:

* `ExecutionStep` — execution uses gas and moves balances, and credits nothing
  of its own;
* `CreditStep` — refund and settlement credit an amount and record it;
* `atomicDaemonAndMint_step` — the daemon adds its mint and nothing else.

The recorded amounts add up to the purchase from every pre-state. The sum of
balances follows only where no 256-bit balance wraps around, which is why that
part asks for a total that leaves room for the mint, and for a blob fee that the
balance check covered.
-/

namespace Titan.CChain

variable {σ : Type}

/-! ## Purchase and execution -/

variable {st st' : StateTransition σ}

theorem buyGas_ok (h : buyGas st = .ok st') :
    ∃ blobCheck blobFee gp,
      st.blobCost st.msg.blobGasFeeCap = some blobCheck ∧
      st.blobCost st.evm.context.blobBaseFee = some blobFee ∧
      st.msg.balanceCheck + blobCheck < 2 ^ 256 ∧
      st.msg.balanceCheck + blobCheck ≤ (st.state.world.getBalance st.msg.sender).toNat ∧
      st' = { st.modify (fun w => w.subBalance st.msg.sender
            (BitVec.ofNat 256 (st.msg.gasCost + blobFee))) with
          gp := gp
          gasRemaining := st.gasRemaining + st.msg.gasLimit
          initialGas := st.msg.gasLimit
          ledger := { st.ledger with debited := st.ledger.debited + st.msg.gasCost } } := by
  unfold buyGas at h
  split at h
  · rename_i blobCheck blobFee hcheck hfee
    dsimp only at h
    split at h
    · cases h
    · rename_i hfit
      split at h
      · cases h
      · rename_i hfunds
        obtain ⟨gp, -, hst⟩ := Lib.bind_ok h
        refine ⟨blobCheck, blobFee, gp, hcheck, hfee, by omega, by omega, ?_⟩
        exact (Except.ok.inj hst).symm
  · cases h

theorem preCheck_ok (h : preCheck st = .ok st') :
    checkBlobFeeCap st = .ok () ∧ buyGas st = .ok st' := by
  obtain ⟨_, -, h⟩ := Lib.bind_ok h
  obtain ⟨_, -, h⟩ := Lib.bind_ok h
  obtain ⟨_, -, h⟩ := Lib.bind_ok h
  obtain ⟨_, hblob, h⟩ := Lib.bind_ok h
  exact ⟨hblob, h⟩

variable {params : StateTransitionParams}

theorem beforeExecution_ok {value : Uint256} (h : beforeExecution st = .ok (value, params, st')) :
    ∃ gas, gas ≤ st.gasRemaining ∧ st.params = some params ∧
      st' = { st.modify (fun w => { w with rest := st.evm.prepare w.rest }) with
        gasRemaining := st.gasRemaining - gas } := by
  obtain ⟨gas, -, h⟩ := Lib.bind_ok h
  split at h
  · cases h
  rename_i hgas
  split at h
  · cases h
  dsimp only at h
  split at h
  · cases h
  split at h
  · cases h
  split at h
  · cases h
  rename_i params' hparams
  obtain ⟨-, rfl, rfl⟩ : value = _ ∧ params' = params ∧ _ = st' := by
    simpa [eq_comm] using h
  exact ⟨gas, by bv_omega, hparams, rfl⟩

/-- What execution can do: change the state database, use gas, and keep a sum of
balances that fits in 256 bits. -/
structure ExecutionStep (st st' : StateTransition σ) : Prop where
  frame : st' = { st with state := st'.state, gasRemaining := st'.gasRemaining }
  gas : st'.gasRemaining ≤ st.gasRemaining
  total : st.state.world.totalBalance < 2 ^ 256 →
    st'.state.world.totalBalance = st.state.world.totalBalance

variable {st₁ st₂ st₃ : StateTransition σ}

theorem ExecutionStep.trans_system
    (h₁ : ExecutionStep st₁ st₂) (h₂ : SystemStep st₂ st₃) : ExecutionStep st₁ st₃ := by
  refine ⟨?_, ?_, fun hfit => ?_⟩
  · rw [h₂.frame, h₁.frame]
  · rw [h₂.frame]
    exact h₁.gas
  · have hkeep := h₁.total hfit
    exact (h₂.total (by omega)).trans hkeep

theorem handleContracts_systemStep (env : Env) (params : StateTransitionParams)
    (hevm : st.evm.Conserves) (dest : Address) (ret : Bytes) :
    SystemStep st (handleContracts env params st dest ret) := by
  unfold handleContracts
  split
  · exact SystemStep.refl st
  · split
    · exact handleSongbirdTransitionDbContracts_systemStep env hevm _ _ _ _ _
    · split
      · exact handleFlareTransitionDbContracts_systemStep env hevm _ _ _ _ _
      · exact SystemStep.refl st

theorem execute_step (env : Env) (params : StateTransitionParams) (value : Uint256)
    (hevm : st.evm.Conserves) : ExecutionStep st (execute env params value st).2 := by
  unfold execute
  dsimp only
  split
  · exact ⟨rfl, hevm.create_gas _ _ _ _ _ _, fun _ => hevm.create_total _ _ _ _ _ _⟩
  · set w := st.state.world.setNonce st.msg.sender (st.state.world.nonce st.msg.sender + 1)
    set result := st.evm.call st.evm.context w st.msg.sender st.toAddress st.msg.data
      st.gasRemaining value with hresult
    have hcall : ExecutionStep st
        { st.modify (fun _ => result.world) with gasRemaining := result.leftOverGas } :=
      ⟨rfl, hevm.call_gas _ _ _ _ _ _ _, fun _ => hevm.call_total _ _ _ _ _ _ _⟩
    split
    · exact hcall
    · refine hcall.trans_system ?_
      apply handleContracts_systemStep
      exact hevm

/-! ## Settlement -/

/-- The part of the purchase that has been given back or credited so far. -/
def FeeLedger.accounted (l : FeeLedger) : ℕ := l.refunded + l.feeRefunded + l.burned + l.pooled

/-- What settlement can do: credit `amount` in all, recorded in the ledger. -/
structure CreditStep (st st' : StateTransition σ) (amount : ℕ) : Prop where
  frame : st' = { st with state := st'.state, ledger := st'.ledger }
  accounted : st'.ledger.accounted = st.ledger.accounted + amount
  debited : st'.ledger.debited = st.ledger.debited
  minted : st'.ledger.minted = st.ledger.minted
  total : st.state.world.totalBalance + amount < 2 ^ 256 →
    st'.state.world.totalBalance = st.state.world.totalBalance + amount

variable {price : Uint256}

/-- Gas at a price that fits in 256 bits: the product is exact. -/
theorem gas_mul_price {gas : Uint64} (h : gas.toNat * price.toNat < 2 ^ 256) :
    (gas.setWidth 256 * price).toNat = gas.toNat * price.toNat := by
  have hgas : (gas.setWidth 256).toNat = gas.toNat := by
    rw [BitVec.toNat_setWidth]
    exact Nat.mod_eq_of_lt (by omega)
  rw [BitVec.toNat_mul, hgas, Nat.mod_eq_of_lt h]

/-- The credit of a share, which the source skips when the share is zero. -/
theorem skip_zero_credit (w : World σ) (a : Address) (v : Uint256) :
    (if v = 0 then w else w.addBalance a v) = w.addBalance a v := by
  split
  · rename_i hv
    rw [hv, World.addBalance_zero]
  · rfl

theorem CreditStep.zero (st : StateTransition σ) : CreditStep st st 0 :=
  ⟨rfl, (Nat.add_zero _).symm, rfl, rfl, fun _ => (Nat.add_zero _).symm⟩

theorem CreditStep.trans {m n : ℕ}
    (h₁ : CreditStep st₁ st₂ m) (h₂ : CreditStep st₂ st₃ n) : CreditStep st₁ st₃ (m + n) := by
  refine ⟨?_, ?_, h₂.debited.trans h₁.debited, h₂.minted.trans h₁.minted, fun hfit => ?_⟩
  · rw [h₂.frame, h₁.frame]
  · rw [h₂.accounted, h₁.accounted]
    omega
  · have htotal₁ := h₁.total (by omega)
    have htotal₂ := h₂.total (by omega)
    omega

theorem creditCChainFees_step (hparams : st.params = some params) (fee : Uint256) (gasUsed : Uint64) :
    CreditStep st (creditCChainFees st fee gasUsed) fee.toNat := by
  unfold creditCChainFees
  by_cases hzero : fee = 0
  · rw [if_pos hzero, hzero]
    exact CreditStep.zero st
  rw [if_neg hzero, hparams]
  rcases hcfg : titanFeeDistributionConfig st.evm.chainID with ⟨enabled, cfg⟩
  cases enabled with
  | false =>
    refine ⟨rfl, ?_, rfl, rfl, fun hfit => World.totalBalance_addBalance hfit⟩
    simp only [FeeLedger.accounted, Bool.false_eq_true, if_false]
    omega
  | true =>
    -- Titan: the two shares add up to the fee
    have hadd := splitCChainBaseFee_add fee gasUsed st.evm.context.baseFee
      cfg.cChainBaseFeeToValidatorsPercent
    rcases hsplit : splitCChainBaseFee fee gasUsed st.evm.context.baseFee
      cfg.cChainBaseFeeToValidatorsPercent with ⟨burn, pool⟩
    rw [hsplit] at hadd
    dsimp only at hadd
    simp only [if_true, hsplit, skip_zero_credit]
    refine ⟨rfl, ?_, rfl, rfl, fun hfit => ?_⟩
    · simp only [FeeLedger.accounted]
      omega
    · have hburn : (st.state.world.addBalance params.burnAddress burn).totalBalance =
          st.state.world.totalBalance + burn.toNat :=
        World.totalBalance_addBalance (by omega)
      have hpool : ((st.state.world.addBalance params.burnAddress burn).addBalance
          cfg.rewardPoolAddress pool).totalBalance =
            (st.state.world.addBalance params.burnAddress burn).totalBalance + pool.toNat :=
        World.totalBalance_addBalance (by omega)
      exact hpool.trans (by omega)

/-- Settling the fee credits the gas used at the gas price, no more and no less. -/
theorem settleFees_step (env : Env) (ret : Option Bytes) (vmerr : Option VMError)
    (hparams : st.params = some params) (hfit : st.gasUsed.toNat * price.toNat < 2 ^ 256) :
    CreditStep st (settleFees env params price ret vmerr st)
      (st.gasUsed.toNat * price.toNat) := by
  have hfee := gas_mul_price hfit
  have hplain : CreditStep st (creditCChainFees st (st.gasUsed.setWidth 256 * price) st.gasUsed)
      (st.gasUsed.toNat * price.toNat) := by
    have hstep := creditCChainFees_step hparams (st.gasUsed.setWidth 256 * price) st.gasUsed
    rwa [hfee] at hstep
  unfold settleFees
  dsimp only
  split
  · split
    · -- prioritised, and dearer than the nominal fee: the difference goes back
      rename_i hnominal
      set actualFee := st.gasUsed.setWidth 256 * price
      set nominalFee : Uint256 := txGas.setWidth 256 * params.nominalGasPrice.setWidth 256
      have hle : nominalFee ≤ actualFee := by bv_omega
      have hsub : (actualFee - nominalFee).toNat = actualFee.toNat - nominalFee.toNat :=
        BitVec.toNat_sub_of_le hle
      have hle' : nominalFee.toNat ≤ actualFee.toNat := BitVec.le_def.mp hle
      set st₁ : StateTransition σ :=
        { st.modify (fun w => w.addBalance st.msg.sender (actualFee - nominalFee)) with
          ledger := { st.ledger with
            feeRefunded := st.ledger.feeRefunded + (actualFee - nominalFee).toNat } } with hst₁
      have hrefund : CreditStep st st₁ (actualFee - nominalFee).toNat := by
        refine ⟨rfl, ?_, rfl, rfl, fun hfit => World.totalBalance_addBalance hfit⟩
        simp only [hst₁, FeeLedger.accounted]
        omega
      have hcredit := creditCChainFees_step (show st₁.params = some params from hparams) nominalFee txGas
      have hsum : (actualFee - nominalFee).toNat + nominalFee.toNat =
          st.gasUsed.toNat * price.toNat := by omega
      rw [← hsum]
      exact hrefund.trans hcredit
    · exact hplain
  · exact hplain

/-- Half of the used gas at most comes back, so the remaining gas stays below the
initial gas. -/
theorem gasRemaining_add_gasRefund (hle : st.gasRemaining ≤ st.initialGas) :
    (st.gasRemaining + gasRefund st).toNat ≤ st.initialGas.toNat := by
  have hused := StateTransition.gasUsed_add_gasRemaining hle
  have hhalf : (st.gasUsed / 2).toNat = st.gasUsed.toNat / 2 := BitVec.toNat_udiv
  have hrefund : (gasRefund st).toNat ≤ st.gasUsed.toNat / 2 := by
    unfold gasRefund
    split
    · exact Nat.zero_le _
    · split
      · rename_i hlt
        have := BitVec.lt_def.mp hlt
        omega
      · omega
  rw [BitVec.toNat_add, Nat.mod_eq_of_lt (by omega)]
  omega

theorem refundGas_ok {refund : Uint64} (hle : st.gasRemaining ≤ st.initialGas)
    (hfit : st.initialGas.toNat * price.toNat < 2 ^ 256)
    (h : refundGas st price = .ok (refund, st')) :
    st'.gasRemaining ≤ st.initialGas ∧
    CreditStep { st with gp := st'.gp, gasRemaining := st'.gasRemaining } st'
      (st'.gasRemaining.toNat * price.toNat) := by
  obtain ⟨gp, -, h⟩ := Lib.bind_ok h
  obtain ⟨-, rfl⟩ := Prod.mk.inj (Except.ok.inj h)
  have hgas := gasRemaining_add_gasRefund hle
  have hprod : (st.gasRemaining + gasRefund st).toNat * price.toNat < 2 ^ 256 :=
    lt_of_le_of_lt (Nat.mul_le_mul_right _ hgas) hfit
  have hexact := gas_mul_price hprod
  refine ⟨BitVec.le_def.mpr hgas, rfl, ?_, rfl, rfl, fun htotal => ?_⟩
  · dsimp only [FeeLedger.accounted]
    omega
  · rw [← hexact] at htotal ⊢
    exact World.totalBalance_addBalance htotal

/-- The daemon step mints at most the maximum request, and records it. -/
theorem atomicDaemonAndMint_step (hevm : st.evm.Conserves) :
    ∃ m, m ≤ st.maximumMintRequest.toNat ∧
      (atomicDaemonAndMint st).ledger = { st.ledger with minted := st.ledger.minted + m } ∧
      (st.state.world.totalBalance + m < 2 ^ 256 →
        (atomicDaemonAndMint st).state.world.totalBalance =
          st.state.world.totalBalance + m) := by
  have hcall : st.daemonResult.world.totalBalance = st.state.world.totalBalance :=
    hevm.call_total _ _ _ _ _ _ _
  rcases hr : st.daemonRequest with _ | r
  · rw [atomicDaemonAndMint_of_no_request hr]
    refine ⟨0, Nat.zero_le _, rfl, fun _ => ?_⟩
    rw [Nat.add_zero]
    exact hcall
  · by_cases hmax : r ≤ st.maximumMintRequest
    · rw [atomicDaemonAndMint_of_le hr hmax]
      refine ⟨r.toNat, BitVec.le_def.mp hmax, rfl, fun hfit => ?_⟩
      rw [← hcall] at hfit ⊢
      exact World.totalBalance_addBalance hfit
    · have hgt : st.maximumMintRequest < r := by bv_omega
      rw [atomicDaemonAndMint_of_gt hr hgt]
      exact ⟨0, Nat.zero_le _, rfl, fun _ => (Nat.add_zero _).symm⟩

/-! ## Conservation -/

/-- The blob fee that `buyGas` takes on top of the gas. -/
def StateTransition.blobFee (st : StateTransition σ) : ℕ :=
  (st.blobCost st.evm.context.blobBaseFee).getD 0

/-- Where the fee cap is not checked, there is no blob fee. -/
def StateTransition.BlobFeeChecked (st : StateTransition σ) : Prop :=
  st.evm.noBaseFee = true → st.msg.blobGasFeeCap = some 0 → st.blobFee = 0

/-- The gas price is at most the fee cap, if there is one. -/
def Message.PriceCapped (msg : Message) : Prop := ∀ feeCap, msg.gasFeeCap = some feeCap → msg.gasPrice ≤ feeCap

/-- A blob fee at most what the balance check asked for: either the fee cap was
checked, or the fee is zero. -/
theorem blobFee_le_check {blobCheck blobFee : ℕ} (hcap : checkBlobFeeCap st = .ok ()) (hfree : st.BlobFeeChecked)
    (hcheck : st.blobCost st.msg.blobGasFeeCap = some blobCheck)
    (hfee : st.blobCost st.evm.context.blobBaseFee = some blobFee) : blobFee ≤ blobCheck := by
  have hblob : st.blobFee = blobFee := by simp [StateTransition.blobFee, hfee]
  by_cases hpays : st.evm.rules.isCancun ∧ 0 < st.blobGasUsed
  · unfold StateTransition.blobCost at hcheck hfee
    rw [if_pos hpays] at hcheck hfee
    unfold checkBlobFeeCap at hcap
    rw [if_neg (not_not.mpr hpays)] at hcap
    rcases hfeeCap : st.msg.blobGasFeeCap with _ | feeCap
    · rw [hfeeCap] at hcheck
      cases hcheck
    rcases hbase : st.evm.context.blobBaseFee with _ | baseFee
    · rw [hbase] at hfee
      cases hfee
    rw [hfeeCap] at hcheck
    rw [hbase] at hfee
    obtain rfl : _ = blobCheck := Option.some.inj hcheck
    obtain rfl : _ = blobFee := Option.some.inj hfee
    simp only [hfeeCap, hbase] at hcap
    split at hcap
    · rename_i hskip
      rw [← hblob, hfree hskip.1 (by rw [hfeeCap, hskip.2])]
      exact Nat.zero_le _
    · split at hcap
      · cases hcap
      · exact Nat.mul_le_mul_left _ (by omega)
  · unfold StateTransition.blobCost at hfee
    rw [if_neg hpays] at hfee
    obtain rfl : 0 = blobFee := Option.some.inj hfee
    exact Nat.zero_le _

theorem gasCost_le_balanceCheck {msg : Message} (hprice : msg.PriceCapped) : msg.gasCost ≤ msg.balanceCheck := by
  unfold Message.balanceCheck
  rcases hcap : msg.gasFeeCap with _ | feeCap
  · exact Nat.le_refl _
  · exact Nat.le_add_right_of_le (Nat.mul_le_mul_left _ (hprice feeCap hcap))

/-- The purchase leaves the balances short by the gas and the blob fee. -/
theorem buyGas_total (h : preCheck st = .ok st') (hprice : st.msg.PriceCapped) (hfree : st.BlobFeeChecked) :
    st'.state.world.totalBalance + (st.msg.gasCost + st.blobFee) =
      st.state.world.totalBalance := by
  obtain ⟨hcap, hbuy⟩ := preCheck_ok h
  obtain ⟨blobCheck, blobFee, gp, hcheck, hfee, hfit, hfunds, rfl⟩ := buyGas_ok hbuy
  have hblob : st.blobFee = blobFee := by simp [StateTransition.blobFee, hfee]
  have hblobLe := blobFee_le_check hcap hfree hcheck hfee
  have hgasLe := gasCost_le_balanceCheck hprice
  have hexact : (BitVec.ofNat 256 (st.msg.gasCost + blobFee)).toNat = st.msg.gasCost + blobFee :=
    Nat.mod_eq_of_lt (by omega)
  have hsub := World.totalBalance_subBalance (w := st.state.world) (a := st.msg.sender)
    (v := BitVec.ofNat 256 (st.msg.gasCost + blobFee)) (by omega)
  rw [hexact] at hsub
  rw [hblob]
  exact hsub

/-- A transition after execution and before settlement: the gas is paid for,
and the ledger records nothing else yet. -/
structure Purchased (st st' : StateTransition σ) : Prop where
  msg : st'.msg = st.msg
  evm : st'.evm = st.evm
  initialGas : st'.initialGas = st.msg.gasLimit
  ledger : st'.ledger = { st.ledger with debited := st.ledger.debited + st.msg.gasCost }
  gas : st'.gasRemaining ≤ st'.initialGas
  total : st.state.world.totalBalance < 2 ^ 256 → st.BlobFeeChecked →
    st'.state.world.totalBalance + (st.msg.gasCost + st.blobFee) = st.state.world.totalBalance

theorem execute_purchased (env : Env) {value : Uint256}
    (hevm : st.evm.Conserves) (hfresh : st.gasRemaining = 0) (hprice : st.msg.PriceCapped)
    (hpre : preCheck st = .ok st₁) (hbefore : beforeExecution st₁ = .ok (value, params, st₂)) :
    Purchased st (execute env params value st₂).2 ∧ st.params = some params := by
  have hpaid := buyGas_total hpre hprice
  obtain ⟨blobCheck, blobFee, gp, -, -, -, -, hst₁⟩ := buyGas_ok (preCheck_ok hpre).2
  obtain ⟨gas, hgas, hparams, hst₂⟩ := beforeExecution_ok hbefore
  have hevm₂ : st₂.evm.Conserves := by
    rw [hst₂, hst₁]
    exact hevm
  have hexec := execute_step env params value hevm₂
  set st₃ := (execute env params value st₂).2
  have hinitial : st₃.initialGas = st.msg.gasLimit := by rw [hexec.frame, hst₂, hst₁]; rfl
  refine ⟨⟨?_, ?_, hinitial, ?_, ?_, ?_⟩, ?_⟩
  · rw [hexec.frame, hst₂, hst₁]; rfl
  · rw [hexec.frame, hst₂, hst₁]; rfl
  · rw [hexec.frame, hst₂, hst₁]; rfl
  · have h₁ : st₁.gasRemaining = st.msg.gasLimit := by
      rw [hst₁, hfresh]
      exact BitVec.zero_add _
    have h₂ : st₂.gasRemaining = st₁.gasRemaining - gas := by rw [hst₂]
    have hle := hexec.gas
    bv_omega
  · intro hfit hfree
    have hsum := hpaid hfree
    have hprepared : st₂.state.world.totalBalance = st₁.state.world.totalBalance := by
      rw [hst₂]; rfl
    have hkeep := hexec.total (by omega)
    omega
  · rw [hst₁] at hparams
    exact hparams

/-- Refund and settlement together credit the whole purchase. -/
theorem settlement_step (env : Env) {refund : Uint64} (hle : st.gasRemaining ≤ st.initialGas)
    (hfit : st.initialGas.toNat * price.toNat < 2 ^ 256) (hparams : st.params = some params)
    (h : refundGas st price = .ok (refund, st')) (ret : Option Bytes) (vmerr : Option VMError) :
    CreditStep { st with gp := st'.gp, gasRemaining := st'.gasRemaining }
      (settleFees env params price ret vmerr st') (st.initialGas.toNat * price.toNat) := by
  obtain ⟨hremaining, hback⟩ := refundGas_ok hle hfit h
  have hinitial : st'.initialGas = st.initialGas := by rw [hback.frame]
  have hle' : st'.gasRemaining ≤ st'.initialGas := by
    rw [hinitial]
    exact hremaining
  have hused := StateTransition.gasUsed_add_gasRemaining hle'
  rw [hinitial] at hused
  have hparams' : st'.params = some params := by
    rw [hback.frame]
    exact hparams
  have hsplit : st'.gasRemaining.toNat * price.toNat + st'.gasUsed.toNat * price.toNat =
      st.initialGas.toNat * price.toNat := by
    rw [← Nat.add_mul, Nat.add_comm, hused]
  have hfit' : st'.gasUsed.toNat * price.toNat < 2 ^ 256 := by omega
  have hsettle := settleFees_step env ret vmerr hparams' hfit'
  rw [← hsplit]
  exact hback.trans hsettle

/-- Conservation for a fresh transition whose message pays at most its fee cap. -/
theorem transitionDb_accounts (env : Env) {result : ExecutionResult} (hevm : st.evm.Conserves)
    (hfresh : st.gasRemaining = 0) (hledger : st.ledger = {}) (hprice : st.msg.PriceCapped)
    (h : transitionDb env st = .ok (result, st')) :
    st.msg.gasCost < 2 ^ 256 ∧
    st'.ledger.debited = st.msg.gasCost ∧
    st'.ledger.accounted = st.msg.gasCost ∧
    (st.state.world.totalBalance + st.maximumMintRequest.toNat < 2 ^ 256 → st.BlobFeeChecked →
      st'.state.world.totalBalance + st.blobFee =
        st.state.world.totalBalance + st'.ledger.minted) := by
  obtain ⟨st₁, hpre, h⟩ := Lib.bind_ok h
  obtain ⟨⟨value, params, st₂⟩, hbefore, h⟩ := Lib.bind_ok h
  obtain ⟨hbought, hparams⟩ := execute_purchased env hevm hfresh hprice hpre hbefore
  have hcost : st.msg.gasCost < 2 ^ 256 := by
    obtain ⟨_, _, _, -, -, hfit, -, -⟩ := buyGas_ok (preCheck_ok hpre).2
    have := gasCost_le_balanceCheck hprice
    omega
  dsimp only at h
  rcases hrun : execute env params value st₂ with ⟨⟨ret, vmerr⟩, st₃⟩
  rw [hrun] at h hbought
  dsimp only at h hbought
  split at h
  · cases h
  rename_i hpriceFits
  obtain ⟨⟨refund, st₄⟩, hrefund, h⟩ := Lib.bind_ok h
  have hpurchase : st₃.initialGas.toNat * (BitVec.ofNat 256 st₃.msg.gasPrice).toNat =
      st.msg.gasCost := by
    rw [hbought.msg] at hpriceFits ⊢
    rw [hbought.initialGas, BitVec.toNat_ofNat, Nat.mod_eq_of_lt (by omega)]
    rfl
  have hparams₃ : st₃.params = some params := by
    unfold StateTransition.params
    rw [hbought.evm]
    exact hparams
  have hcredit := settlement_step env hbought.gas (by omega) hparams₃ hrefund ret vmerr
  rw [hpurchase] at hcredit
  set st₅ := settleFees env params (BitVec.ofNat 256 st₃.msg.gasPrice) ret vmerr st₄
  have hledger₃ := hbought.ledger
  rw [hledger] at hledger₃
  have hevm₅ : st₅.evm = st.evm := by
    rw [hcredit.frame]
    exact hbought.evm
  have haccounted : st₅.ledger.accounted = st.msg.gasCost := by
    rw [hcredit.accounted, hledger₃]
    simp [FeeLedger.accounted]
  have hdebited : st₅.ledger.debited = st.msg.gasCost := by
    rw [hcredit.debited, hledger₃]
    simp
  have hminted : st₅.ledger.minted = 0 := by rw [hcredit.minted, hledger₃]
  have htotal : st.state.world.totalBalance < 2 ^ 256 → st.BlobFeeChecked →
      st₅.state.world.totalBalance + st.blobFee = st.state.world.totalBalance := by
    intro hfit hfree
    have hpaid := hbought.total hfit hfree
    have hback := hcredit.total (by dsimp only; omega)
    dsimp only at hback
    omega
  -- the daemon adds its mint and nothing else
  split at h
  · cases h
  obtain ⟨-, rfl⟩ := Prod.mk.inj (Except.ok.inj h)
  split
  · have hconserves : st₅.evm.Conserves := by
      rw [hevm₅]
      exact hevm
    obtain ⟨m, hm, hl, hsum⟩ := atomicDaemonAndMint_step hconserves
    rw [hl]
    refine ⟨hcost, hdebited, haccounted, fun hfit hfree => ?_⟩
    have hmax : st₅.maximumMintRequest = st.maximumMintRequest := by
      unfold StateTransition.maximumMintRequest
      rw [hevm₅]
    rw [hmax] at hm
    have hbefore := htotal (by omega) hfree
    dsimp only
    omega
  · refine ⟨hcost, hdebited, haccounted, fun hfit hfree => ?_⟩
    rw [hminted, Nat.add_zero]
    exact htotal (by omega) hfree

theorem World.totalBalance_single {w : World σ} {a : Address} {v : Uint256}
    (h : w.balance = Function.update (fun _ => 0) a v) : w.totalBalance = v.toNat := by
  have hupd := Lib.total_update (fun _ : Address => (0 : Uint256)) a v
  have hzero : (0 : Uint256).toNat = 0 := rfl
  rw [Lib.total_zero, hzero, Nat.add_zero, Nat.zero_add] at hupd
  unfold World.totalBalance
  rw [h]
  exact hupd

/-- Moving `v` to an account it overflows takes 2^256 out of the total. -/
theorem World.totalBalance_wrap {w post : World σ} {a c : Address} {v : Uint256}
    (hpost : post.balance = ((w.subBalance a v).addBalance c v).balance)
    (hfunds : v.toNat ≤ (w.getBalance a).toNat)
    (hfull : 2 ^ 256 ≤ ((w.subBalance a v).balance c).toNat + v.toNat) :
    post.totalBalance + 2 ^ 256 = w.totalBalance := by
  have hdebit := World.totalBalance_subBalance hfunds
  have hcredit := Lib.total_credit_wrap hfull
  unfold World.totalBalance at hdebit ⊢
  rw [hpost, ← hdebit]
  exact hcredit

/-- An EVM outside the Flare networks whose calls do nothing. -/
def idleEVM : EVM Unit where
  chainID := some 43112
  rules := ⟨true, true, false, false, true, false⟩
  context := ⟨systemCoinbase, 0, 8000000, none, none⟩
  noBaseFee := false
  call := fun _ w _ _ _ gas _ => ⟨w, none, gas, none⟩
  create := fun _ w _ _ gas _ => ⟨w, none, gas, none⟩
  predicater := fun _ => none
  predicatersExist := false
  prepare := id
  executionInvalidated := fun _ => none

theorem idleEVM_conserves : idleEVM.Conserves where
  call_total := fun _ _ _ _ _ _ _ => rfl
  create_total := fun _ _ _ _ _ _ => rfl
  call_gas := fun _ _ _ _ _ gas _ => BitVec.le_refl gas
  create_gas := fun _ _ _ _ gas _ => BitVec.le_refl gas

def plainEnv : Env := ⟨hexToAddress 0, [], false, fun _ l => l⟩

def plainTx : Transaction := ⟨0, 21000, .legacy 1, some (hexToAddress 2), 0, [], none⟩

/-- The balance of the burn address: full or empty. -/
def plainBurn (full : Bool) : Uint256 := if full then BitVec.allOnes 256 else 0

/-- The sender owns the fee, the burn address all it can hold or nothing. -/
def plainWorld (full : Bool) : World Unit :=
  ⟨fun a => if a = hexToAddress 1 then 21000 else if a = feeSink then plainBurn full else 0,
    fun _ => 0, fun _ => 0, 0, ()⟩

def plainDB (full : Bool) : StateDB Unit := ⟨plainWorld full, []⟩

def plainTransition (full : Bool) : StateTransition Unit :=
  newStateTransition idleEVM (transactionToMessage plainTx (hexToAddress 1) none) 8000000
    (plainDB full)

/-- The plain transition once its gas is bought. -/
def plainBought (full : Bool) : StateTransition Unit :=
  { (plainTransition full).modify (fun w => w.subBalance (hexToAddress 1) 21000) with
    gp := 7979000
    gasRemaining := 21000
    initialGas := 21000
    ledger := ⟨21000, 0, 0, 0, 0, 0⟩ }

/-- The plain transition once it has executed: all gas is used. -/
def plainExecuted (full : Bool) : StateTransition Unit :=
  { (plainBought full).modify (fun w => w.setNonce (hexToAddress 1) 1) with gasRemaining := 0 }

/-- The plain transition once its fee has gone to the burn address. -/
def plainSettled (full : Bool) : StateTransition Unit :=
  { (plainExecuted full).modify (fun w =>
      (w.addBalance (hexToAddress 1) 0).addBalance feeSink 21000) with
    ledger := ⟨21000, 0, 0, 21000, 0, 0⟩ }

theorem transitionDb_plain (full : Bool) :
    transitionDb plainEnv (plainTransition full) =
      .ok (⟨21000, 0, none, none⟩, plainSettled full) := by
  -- stage by stage: the whole run is too deep for one evaluation
  have hpre : preCheck (plainTransition full) = .ok (plainBought full) := by
    have hbuy : buyGas (plainTransition full) = .ok (plainBought full) := by cases full <;> rfl
    have haccount : checkAccount (plainTransition full) = .ok () := by cases full <;> rfl
    have hfeeCap : checkFeeCap (plainTransition full) = .ok () := by cases full <;> rfl
    have hhashes : checkBlobHashes (plainTransition full) = .ok () := by cases full <;> rfl
    have hblob : checkBlobFeeCap (plainTransition full) = .ok () := by cases full <;> rfl
    simp only [preCheck, haccount, hfeeCap, hhashes, hblob, hbuy, bind, Except.bind]
  have hbefore : beforeExecution (plainBought full) =
      .ok (0, ⟨feeSink, ap4MinBaseFee, false, false⟩,
        { plainBought full with gasRemaining := 0 }) := by cases full <;> rfl
  have hexec : execute plainEnv ⟨feeSink, ap4MinBaseFee, false, false⟩ 0
      { plainBought full with gasRemaining := 0 } = ((none, none), plainExecuted full) := by
    cases full <;> rfl
  have hrefund : refundGas (plainExecuted full) 1 =
      .ok (0, (plainExecuted full).modify (fun w => w.addBalance (hexToAddress 1) 0)) := by
    cases full <;> rfl
  have hsettle : settleFees plainEnv ⟨feeSink, ap4MinBaseFee, false, false⟩ 1 none none
      ((plainExecuted full).modify (fun w => w.addBalance (hexToAddress 1) 0)) =
        plainSettled full := by
    cases full <;> rfl
  have hprice : (plainExecuted full).msg.gasPrice = 1 := rfl
  have hone : (BitVec.ofNat 256 1 : Uint256) = 1 := rfl
  simp only [transitionDb, hpre, hbefore, hexec, hprice, hone, hrefund, hsettle, bind, Except.bind]
  cases full <;> rfl

end Titan.CChain
