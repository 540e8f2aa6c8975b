import Titan.CChain.Daemon

/-!
# Titan.CChain.FeeDistribution — burn sink and validator reward pool

On the Titan chain a share of the base-fee component of every fee goes to the
validator reward pool; tips and the rest of the base fee go to the burn address.
Every other chain burns the whole fee. The products here are 256-bit and may
wrap around; `splitCChainBaseFee_add` shows that the two shares add up to the
fee all the same.
-/

namespace Titan.CChain

structure FeeDistributionConfig where
  enabled : Bool
  cChainBaseFeeToValidatorsPercent : BitVec 32
  rewardPoolAddress : Address

/-- The `FeeDistribution` of `DefaultTitanNetworkEconomicsConfig`. -/
def defaultTitanFeeDistribution : FeeDistributionConfig :=
  ⟨true, 50, hexToAddress 0x1000000000000000000000000000000000000004⟩

/-- `titanFeeDistributionConfig`: the whole chain ID is compared, not its low
64 bits. -/
def titanFeeDistributionConfig : Option ℕ → Bool × FeeDistributionConfig
  | some chainID =>
    if chainID = titanChainID then
      (defaultTitanFeeDistribution.enabled, defaultTitanFeeDistribution)
    else
      (false, ⟨false, 0, hexToAddress 0⟩)
  | none => (false, ⟨false, 0, hexToAddress 0⟩)

/-- The base-fee component of a fee, before it is capped. -/
def baseFeeComponent (totalFee : Uint256) (gasUsed : Uint64) : Option ℕ → Uint256
  | some baseFee =>
    if 0 < baseFee then
      if 2 ^ 256 ≤ baseFee then totalFee
      else gasUsed.setWidth 256 * BitVec.ofNat 256 baseFee
    else totalFee
  | none => totalFee

/-- `splitCChainBaseFee`: the shares of the burn address and of the pool. -/
def splitCChainBaseFee (totalFee : Uint256) (gasUsed : Uint64) (baseFee : Option ℕ)
    (percent : BitVec 32) : Uint256 × Uint256 :=
  if totalFee = 0 ∨ percent = 0 then
    (totalFee, 0)
  else if 100 ≤ percent then
    (0, totalFee)
  else
    let uncapped := baseFeeComponent totalFee gasUsed baseFee
    let baseComponent := if totalFee < uncapped then totalFee else uncapped
    let pool := (baseComponent * percent.setWidth 256) / 100
    (totalFee - pool, pool)

variable {percent : BitVec 32}

/-- A percentage below 100 of a capped component stays below the cap, even when
the product wraps around. -/
theorem percent_of_le {component totalFee : Uint256}
    (hcap : component ≤ totalFee) (hpercent : percent < 100) :
    (component * percent.setWidth 256) / 100 ≤ totalFee := by
  have hp : percent.toNat < 100 := by simpa [BitVec.lt_def] using hpercent
  have hc : component.toNat ≤ totalFee.toNat := by simpa [BitVec.le_def] using hcap
  have hmul : component.toNat * percent.toNat ≤ component.toNat * 100 :=
    Nat.mul_le_mul_left _ (by omega)
  have hmod : (component * percent.setWidth 256).toNat ≤ component.toNat * 100 := by
    exact (Nat.mod_le _ _).trans hmul
  rw [BitVec.le_def, BitVec.toNat_udiv]
  have hhundred : (100 : Uint256).toNat = 100 := rfl
  rw [hhundred]
  omega

/-- No wei is lost or created by the split. -/
theorem splitCChainBaseFee_add (totalFee : Uint256) (gasUsed : Uint64) (baseFee : Option ℕ)
    (percent : BitVec 32) :
    (splitCChainBaseFee totalFee gasUsed baseFee percent).1.toNat +
      (splitCChainBaseFee totalFee gasUsed baseFee percent).2.toNat = totalFee.toNat := by
  unfold splitCChainBaseFee
  by_cases hzero : totalFee = 0 ∨ percent = 0
  · rw [if_pos hzero]
    rfl
  rw [if_neg hzero]
  by_cases hall : 100 ≤ percent
  · rw [if_pos hall]
    exact Nat.zero_add _
  rw [if_neg hall]
  have hpercent : percent < 100 := by bv_omega
  set uncapped := baseFeeComponent totalFee gasUsed baseFee with huncapped
  have hcap : (if totalFee < uncapped then totalFee else uncapped) ≤ totalFee := by
    split
    · exact BitVec.le_refl _
    · bv_omega
  have hpool := percent_of_le hcap hpercent
  have hle := BitVec.le_def.mp hpool
  dsimp only
  rw [BitVec.toNat_sub_of_le hpool]
  omega

/-! ## The formula of the doc comment -/

/-- The percentage of the base-fee component, over unbounded integers. -/
def poolShare (totalFee gasUsed baseFee percent : ℕ) : ℕ :=
  min (gasUsed * baseFee) totalFee * percent / 100

/-- When the split follows the formula: all of the fee at 100 percent only without tips, and
below it only if no product leaves its word, or if what is lost does not matter. -/
def SplitExact (totalFee gasUsed baseFee percent : ℕ) : Prop :=
  totalFee = 0 ∨ percent = 0 ∨ (percent = 100 ∧ totalFee ≤ gasUsed * baseFee) ∨
  percent < 100 ∧
    -- the base-fee component is right, and so is its multiple
    ((baseFee < 2 ^ 256 ∧ gasUsed * baseFee < 2 ^ 256 ∨ 2 ^ 256 ≤ baseFee ∧ 0 < gasUsed ∨
        2 ^ 256 ≤ gasUsed * baseFee ∧ totalFee ≤ gasUsed * baseFee % 2 ^ 256) ∧
      min (gasUsed * baseFee) totalFee * percent < 2 ^ 256 ∨
    -- the component wrapped around, and the difference is rounded away
    baseFee < 2 ^ 256 ∧ 2 ^ 256 ≤ gasUsed * baseFee ∧ gasUsed * baseFee % 2 ^ 256 < totalFee ∧
      gasUsed * baseFee % 2 ^ 256 * percent < 2 ^ 256 ∧
      gasUsed * baseFee % 2 ^ 256 * percent / 100 = totalFee * percent / 100 ∨
    -- no gas was used, and the percentage of the whole fee wraps around to nothing
    gasUsed = 0 ∧ 2 ^ 256 ≤ baseFee ∧ totalFee * percent % 2 ^ 256 < 100)

/-- A wrapped multiple of a part is the multiple of the whole only if it did not wrap. -/
theorem mod_div_eq_iff {b m p : ℕ} (hb : b ≤ m) :
    b * p % 2 ^ 256 / 100 = m * p / 100 ↔ b * p < 2 ^ 256 ∧ b * p / 100 = m * p / 100 := by
  have hle : b * p ≤ m * p := Nat.mul_le_mul_right p hb
  rcases Nat.lt_or_ge (b * p) (2 ^ 256) with hlt | hge
  · rw [Nat.mod_eq_of_lt hlt]
    exact (and_iff_right hlt).symm
  · omega

variable {baseFee : ℕ}

/-- The pool's share below 100 percent, as the source computes it. -/
theorem splitCChainBaseFee_pool {totalFee : Uint256} {gasUsed : Uint64} (hbase : 0 < baseFee)
    (htotal : totalFee.toNat ≠ 0)
    (hpercent : percent.toNat ≠ 0) (hlt : percent.toNat < 100) :
    (splitCChainBaseFee totalFee gasUsed (some baseFee) percent).2.toNat =
      (if 2 ^ 256 ≤ baseFee then totalFee.toNat
        else min (gasUsed.toNat * baseFee % 2 ^ 256) totalFee.toNat) * percent.toNat %
          2 ^ 256 / 100 := by
  have hzero : ¬ (totalFee = 0 ∨ percent = 0) := by
    rintro (rfl | rfl)
    · exact htotal rfl
    · exact hpercent rfl
  have hall : ¬ 100 ≤ percent := by bv_omega
  have hwidth : (percent.setWidth 256).toNat = percent.toNat := by
    rw [BitVec.toNat_setWidth]
    exact Nat.mod_eq_of_lt (by omega)
  have hhundred : (100 : Uint256).toNat = 100 := rfl
  rw [splitCChainBaseFee, if_neg hzero, if_neg hall]
  rw [BitVec.toNat_udiv, BitVec.toNat_mul, hwidth, hhundred]
  congr 3
  have huncapped : baseFeeComponent totalFee gasUsed (some baseFee) =
      if 2 ^ 256 ≤ baseFee then totalFee
      else gasUsed.setWidth 256 * BitVec.ofNat 256 baseFee := if_pos hbase
  rw [huncapped]
  by_cases hbig : 2 ^ 256 ≤ baseFee
  · rw [if_pos hbig, if_pos hbig]
    split <;> rfl
  · rw [if_neg hbig, if_neg hbig]
    have hcomponent : (gasUsed.setWidth 256 * BitVec.ofNat 256 baseFee).toNat =
        gasUsed.toNat * baseFee % 2 ^ 256 := by
      have hgas : gasUsed.toNat < 2 ^ 256 := by omega
      rw [BitVec.toNat_mul, BitVec.toNat_ofNat, BitVec.toNat_setWidth,
        Nat.mod_eq_of_lt (not_le.mp hbig), Nat.mod_eq_of_lt hgas]
    split
    · rename_i hlt
      rw [BitVec.lt_def, hcomponent] at hlt
      omega
    · rename_i hge
      rw [BitVec.lt_def, hcomponent] at hge
      omega

theorem splitCChainBaseFee_pool_eq_iff (totalFee : Uint256) (gasUsed : Uint64)
    (hbase : 0 < baseFee) (hpercent : percent.toNat ≤ 100) :
    (splitCChainBaseFee totalFee gasUsed (some baseFee) percent).2.toNat =
      poolShare totalFee.toNat gasUsed.toNat baseFee percent.toNat ↔
        SplitExact totalFee.toNat gasUsed.toNat baseFee percent.toNat := by
  unfold poolShare SplitExact
  by_cases hzero : totalFee.toNat = 0 ∨ percent.toNat = 0
  · have hnothing : totalFee = 0 ∨ percent = 0 :=
      hzero.imp (fun h => BitVec.eq_of_toNat_eq h) (fun h => BitVec.eq_of_toNat_eq h)
    rw [splitCChainBaseFee, if_pos hnothing]
    rcases hzero with h | h <;> simp [h]
  obtain ⟨htotal, hpos⟩ := not_or.mp hzero
  by_cases hall : percent.toNat = 100
  · have hpool : (splitCChainBaseFee totalFee gasUsed (some baseFee) percent).2 = totalFee := by
      rw [splitCChainBaseFee, if_neg (by bv_omega), if_pos (by bv_omega)]
    rw [hpool, hall, Nat.mul_div_cancel _ (by decide)]
    generalize gasUsed.toNat * baseFee = component
    omega
  have hlt : percent.toNat < 100 := by omega
  rw [splitCChainBaseFee_pool hbase htotal hpos hlt]
  have hword := totalFee.isLt
  generalize totalFee.toNat = total at *
  generalize gasUsed.toNat = gas
  generalize percent.toNat = p at *
  by_cases hbig : 2 ^ 256 ≤ baseFee
  · rw [if_pos hbig]
    rcases Nat.eq_zero_or_pos gas with rfl | hgas
    · -- the formula gives nothing to the pool
      rw [Nat.zero_mul, Nat.zero_min, Nat.zero_mul, Nat.zero_div, Nat.div_eq_zero_iff]
      omega
    · have hcomponent : baseFee ≤ gas * baseFee := Nat.le_mul_of_pos_left _ hgas
      rw [Nat.min_eq_right (by omega), mod_div_eq_iff (le_refl total)]
      generalize gas * baseFee = component at *
      omega
  · rw [if_neg hbig]
    generalize gas * baseFee = component
    rcases Nat.lt_or_ge component (2 ^ 256) with hfits | hwraps
    · rw [Nat.mod_eq_of_lt hfits, mod_div_eq_iff (le_refl _)]
      omega
    · rw [Nat.min_eq_right (by omega : total ≤ component), mod_div_eq_iff (Nat.min_le_right _ _)]
      rcases Nat.lt_or_ge (component % 2 ^ 256) total with hless | hcovers
      · rw [Nat.min_eq_left hless.le]
        omega
      · rw [Nat.min_eq_right hcovers]
        omega

variable {σ : Type}

/-- The parameters of the chain a transition runs on. -/
def StateTransition.params (st : StateTransition σ) : Option StateTransitionParams :=
  stateTransitionVariants.getValue st.evm.chainID st.evm.context.coinbase

/-- `creditCChainFees`: nothing for a zero fee, and no credit for a zero share. -/
def creditCChainFees (st : StateTransition σ) (fee : Uint256) (gasUsed : Uint64) :
    StateTransition σ :=
  if fee = 0 then
    st
  else
    match st.params with
    | none => st
    | some params =>
      let (enabled, cfg) := titanFeeDistributionConfig st.evm.chainID
      if enabled then
        let (burn, pool) := splitCChainBaseFee fee gasUsed st.evm.context.baseFee
          cfg.cChainBaseFeeToValidatorsPercent
        { st.modify (fun w =>
            let w := if burn = 0 then w else w.addBalance params.burnAddress burn
            if pool = 0 then w else w.addBalance cfg.rewardPoolAddress pool) with
          ledger := { st.ledger with
            burned := st.ledger.burned + burn.toNat
            pooled := st.ledger.pooled + pool.toNat } }
      else
        { st.modify (fun w => w.addBalance params.burnAddress fee) with
          ledger := { st.ledger with burned := st.ledger.burned + fee.toNat } }

end Titan.CChain
