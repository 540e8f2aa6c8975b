import Titan.PChain.Gas

/-!
# Titan.PChain.ValidatorFee — what an active validator pays

Every active L1 validator pays the same price per second. The price follows an
excess that grows while more than `target` validators are active and shrinks
while fewer are. `costOf` is what a number of seconds costs, `secondsRemaining`
how long given funds last.

Both are loops with shortcuts for a constant price and for an excess that has
reached zero, and both saturate. `total` is the plain sum of the prices of the
seconds; `costOf_eq` and `secondsRemaining_spec` describe the two loops by it,
so that they agree with each other: see `costOf_le_of_le_secondsRemaining` and
`one_le_secondsRemaining`.
-/

namespace Titan.PChain.ValidatorFee

open Lib

/-- `fee.Config`. -/
structure Config where
  capacity : ℕ
  target : ℕ
  minPrice : ℕ
  excessConversionConstant : ℕ
  /-- `minPrice` is a `uint64`. -/
  minPrice_le : minPrice ≤ maxUint64

/-- `fee.State`. -/
structure State where
  current : ℕ
  excess : ℕ

/-- Adds `(current - target) * seconds` to the excess, within the range of a `uint64`. -/
def State.advanceTime (s : State) (target seconds : ℕ) : State where
  current := s.current
  excess :=
    if s.current < target then subOverTime s.excess (target - s.current) seconds
    else if target < s.current then addOverTime s.excess (s.current - target) seconds
    else s.excess

/-- The loop of `CostOf`, with the number of seconds left. -/
def costLoop (c : Config) : ℕ → State → ℕ → ℕ
  | 0, _, cost => cost
  | left + 1, s, cost =>
    let s := s.advanceTime c.target 1
    if s.excess = 0 then
      -- the excess stays at zero for the remaining seconds
      match checkedMul () c.minPrice (left + 1) with
      | .error _ => maxUint64
      | .ok zeroExcessCost =>
        match checkedAdd () cost zeroExcessCost with
        | .error _ => maxUint64
        | .ok cost => cost
    else
      match checkedAdd () cost (calculatePrice c.minPrice s.excess c.excessConversionConstant) with
      | .error _ => maxUint64
      | .ok cost => costLoop c left s cost

def State.costOf (s : State) (c : Config) (seconds : ℕ) : ℕ :=
  if s.current = c.target then
    match checkedMul () seconds (calculatePrice c.minPrice s.excess c.excessConversionConstant) with
    | .error _ => maxUint64
    | .ok cost => cost
  else costLoop c seconds s 0

/-- The loop of `SecondsRemaining`, with the number of iterations left. -/
def remainingLoop (c : Config) (maxSeconds : ℕ) : ℕ → State → ℕ → ℕ → ℕ
  | 0, _, _, _ => maxSeconds
  | left + 1, s, seconds, fundsRemaining =>
    let s := s.advanceTime c.target 1
    if s.excess = 0 then
      match checkedAdd () seconds (fundsRemaining / c.minPrice) with
      | .error _ => maxSeconds
      | .ok totalSeconds => min totalSeconds maxSeconds
    else
      let price := calculatePrice c.minPrice s.excess c.excessConversionConstant
      if fundsRemaining < price then seconds
      else remainingLoop c maxSeconds left s (seconds + 1) (fundsRemaining - price)

/-- `SecondsRemaining`; `none` is the run-time panic of a division by zero. -/
def State.secondsRemaining (s : State) (c : Config) (maxSeconds fundsRemaining : ℕ) : Option ℕ :=
  if c.minPrice = 0 then some maxSeconds
  else if s.current = c.target then
    let price := calculatePrice c.minPrice s.excess c.excessConversionConstant
    if price = 0 then none else some (min (fundsRemaining / price) maxSeconds)
  else some (remainingLoop c maxSeconds maxSeconds s 0 fundsRemaining)

/-! ## The excess -/

variable {s : State}

/-- Of the two differences one is zero. -/
theorem advanceTime_excess (h : s.excess ≤ maxUint64) (target seconds : ℕ) :
    (s.advanceTime target seconds).excess =
      min (s.excess + (s.current - target) * seconds - (target - s.current) * seconds) maxUint64 := by
  unfold State.advanceTime
  dsimp only
  split
  next hlt =>
    rw [subOverTime_eq h, Nat.sub_eq_zero_of_le (Nat.le_of_lt hlt), Nat.zero_mul]
    omega
  next hge =>
    rw [Nat.sub_eq_zero_of_le (Nat.not_lt.mp hge), Nat.zero_mul]
    split
    next => rw [addOverTime_eq]; omega
    next hle => rw [Nat.sub_eq_zero_of_le (Nat.not_lt.mp hle)]; omega

theorem advanceTime_excess_le (h : s.excess ≤ maxUint64) (target seconds : ℕ) :
    (s.advanceTime target seconds).excess ≤ maxUint64 := by
  rw [advanceTime_excess h]
  exact Nat.min_le_right _ _

theorem advanceTime_of_target {target : ℕ} (h : s.current = target) (seconds : ℕ) :
    s.advanceTime target seconds = s := by
  unfold State.advanceTime
  rw [if_neg (by omega), if_neg (by omega)]

/-- An excess that has come down to zero stays there. -/
theorem advanceTime_excess_zero {target : ℕ} (h : (s.advanceTime target 1).excess = 0) :
    ((s.advanceTime target 1).advanceTime target 1).excess = 0 := by
  have hcur : (s.advanceTime target 1).current = s.current := rfl
  rw [State.advanceTime, h, hcur]
  dsimp only
  split
  next => rw [subOverTime_eq (Nat.zero_le _)]; omega
  next hge =>
    split
    next hgt =>
      -- more than `target` validators never bring the excess to zero
      simp only [State.advanceTime, if_neg hge, if_pos hgt, addOverTime_eq, Nat.mul_one] at h
      have : 0 < maxUint64 := by decide
      omega
    next => rfl

/-! ## Costs as sums of prices -/

/-- The price of the next second. -/
def State.secondPrice (s : State) (c : Config) : ℕ :=
  if s.current = c.target then calculatePrice c.minPrice s.excess c.excessConversionConstant
  else if (s.advanceTime c.target 1).excess = 0 then c.minPrice
  else calculatePrice c.minPrice (s.advanceTime c.target 1).excess c.excessConversionConstant

/-- The sum of the prices of the next seconds. -/
def total (c : Config) : ℕ → State → ℕ
  | 0, _ => 0
  | seconds + 1, s => s.secondPrice c + total c seconds (s.advanceTime c.target 1)

theorem secondPrice_le_max (s : State) (c : Config) : s.secondPrice c ≤ maxUint64 := by
  unfold State.secondPrice
  split
  next => exact calculatePrice_le_max _ _ _
  next =>
    split
    next => exact c.minPrice_le
    next => exact calculatePrice_le_max _ _ _

theorem total_mono (c : Config) (s : State) {k l : ℕ} (h : k ≤ l) : total c k s ≤ total c l s := by
  induction l generalizing k s with
  | zero => rw [Nat.le_zero.mp h]
  | succ l ih =>
    cases k with
    | zero => exact Nat.zero_le _
    | succ k => exact Nat.add_le_add_left (ih _ (by omega)) _

variable {c : Config}

/-- At the target the price does not change. -/
theorem total_of_target (h : s.current = c.target) (seconds : ℕ) :
    total c seconds s = seconds * calculatePrice c.minPrice s.excess c.excessConversionConstant := by
  induction seconds with
  | zero => simp [total]
  | succ k ih =>
    rw [total, advanceTime_of_target h, ih, State.secondPrice, if_pos h]
    ring

/-- Once the excess is zero, every second costs the minimum price. -/
theorem total_of_excess_zero (h : s.current ≠ c.target) (hz : (s.advanceTime c.target 1).excess = 0)
    (seconds : ℕ) : total c seconds s = c.minPrice * seconds := by
  induction seconds generalizing s with
  | zero => rfl
  | succ k ih =>
    have hcur : (s.advanceTime c.target 1).current ≠ c.target := h
    rw [total, State.secondPrice, if_neg h, if_pos hz, ih hcur (advanceTime_excess_zero hz)]
    ring

/-- The loop of `CostOf` adds up the prices of the seconds left, cut off at
`MaxUint64`. -/
theorem costLoop_eq (h : s.current ≠ c.target) {cost : ℕ} (hcost : cost ≤ maxUint64) (left : ℕ) :
    costLoop c left s cost = min (cost + total c left s) maxUint64 := by
  induction left generalizing s cost with
  | zero => simp [costLoop, total, hcost]
  | succ k ih =>
    unfold costLoop
    dsimp only
    split
    next hz =>
      rw [total_of_excess_zero h hz]
      rcases checkedMul_cases () c.minPrice (k + 1) with ⟨hm, he⟩ | ⟨hm, he⟩ <;> rw [he] <;>
        dsimp only
      · omega
      · rcases checkedAdd_cases () cost (c.minPrice * (k + 1)) with ⟨ha, he⟩ | ⟨ha, he⟩ <;>
          rw [he] <;> dsimp only <;> omega
    next hz =>
      have hcur : (s.advanceTime c.target 1).current ≠ c.target := h
      rw [total, State.secondPrice, if_neg h, if_neg hz, ← Nat.add_assoc]
      generalize calculatePrice _ _ _ = price
      rcases checkedAdd_cases () cost price with ⟨ha, he⟩ | ⟨ha, he⟩ <;> rw [he] <;> dsimp only
      · omega
      · exact ih hcur ha

/-- `CostOf` is the sum of the prices, cut off at `MaxUint64`. -/
theorem costOf_eq (s : State) (c : Config) (seconds : ℕ) :
    s.costOf c seconds = min (total c seconds s) maxUint64 := by
  unfold State.costOf
  split
  next h =>
    rw [total_of_target h]
    generalize calculatePrice _ _ _ = price
    rcases checkedMul_cases () seconds price with ⟨hm, he⟩ | ⟨hm, he⟩ <;> rw [he] <;>
      dsimp only <;> omega
  next h => rw [costLoop_eq h (Nat.zero_le _), Nat.zero_add]

/-! ## How long funds last -/

/-- The loop of `SecondsRemaining` finds the longest affordable time. -/
theorem remainingLoop_spec (hmin : c.minPrice ≠ 0) (h : s.current ≠ c.target)
    (left seconds funds : ℕ) (hmax : seconds + left ≤ maxUint64) :
    ∃ k, remainingLoop c (seconds + left) left s seconds funds = seconds + k ∧ k ≤ left ∧
      total c k s ≤ funds ∧ (k < left → funds < total c (k + 1) s) := by
  induction left generalizing s seconds funds with
  | zero => exact ⟨0, rfl, le_refl _, Nat.zero_le _, fun h => absurd h (Nat.lt_irrefl _)⟩
  | succ left ih =>
    unfold remainingLoop
    dsimp only
    split
    next hz =>
      -- the rest of the time costs the minimum price
      have hpos : 0 < c.minPrice := Nat.pos_of_ne_zero hmin
      have hdiv := Nat.mul_div_le funds c.minPrice
      have hlt := Nat.lt_mul_div_succ funds hpos
      refine ⟨min (funds / c.minPrice) (left + 1), ?_, Nat.min_le_right _ _, ?_, ?_⟩
      · generalize funds / c.minPrice = q
        rcases checkedAdd_cases () seconds q with ⟨ha, he⟩ | ⟨ha, he⟩ <;> rw [he] <;> dsimp only
        · rw [Nat.min_eq_right (by omega)]
        · exact Nat.add_min_add_left _ _ _
      · rw [total_of_excess_zero h hz]
        exact (Nat.mul_le_mul_left _ (Nat.min_le_left _ _)).trans hdiv
      · intro hk
        have hmin' : min (funds / c.minPrice) (left + 1) = funds / c.minPrice := by omega
        rw [total_of_excess_zero h hz, hmin']
        exact hlt
    next hz =>
      have hcur : (s.advanceTime c.target 1).current ≠ c.target := h
      have hprice : s.secondPrice c = calculatePrice c.minPrice
          (s.advanceTime c.target 1).excess c.excessConversionConstant := by
        rw [State.secondPrice, if_neg h, if_neg hz]
      rw [← hprice]
      split
      next hlt => exact ⟨0, rfl, Nat.zero_le _, Nat.zero_le _, fun _ => by rw [total, total]; omega⟩
      next hge =>
        rcases ih hcur (seconds + 1) (funds - s.secondPrice c) (by omega) with
          ⟨k, hk, hle, htot, hmax⟩
        refine ⟨k + 1, ?_, by omega, ?_, ?_⟩
        · rw [show seconds + (left + 1) = seconds + 1 + left by omega, hk]
          omega
        · rw [total]
          omega
        · intro hlt
          rw [total]
          omega

/-- `SecondsRemaining` is the largest number of seconds, up to the maximum, whose
prices the funds cover. -/
theorem secondsRemaining_spec {maxSeconds funds r : ℕ} (hmax : maxSeconds ≤ maxUint64)
    (h : s.secondsRemaining c maxSeconds funds = some r) :
    r ≤ maxSeconds ∧ total c r s ≤ funds ∧ (r < maxSeconds → funds < total c (r + 1) s) := by
  unfold State.secondsRemaining at h
  split at h
  next hzero =>
    -- a minimum price of zero: nothing ever costs anything
    have hfree : ∀ k s, total c k s = 0 := by
      intro k
      induction k with
      | zero => exact fun _ => rfl
      | succ k ih =>
        intro s
        simp [total, State.secondPrice, hzero, calculatePrice_of_minPrice_zero, ih]
    rw [← Option.some.inj h, hfree]
    exact ⟨le_refl _, Nat.zero_le _, fun hlt => absurd hlt (Nat.lt_irrefl _)⟩
  next hmin =>
    split at h
    next htarget =>
      dsimp only at h
      split at h
      next => cases h
      next hprice =>
        have hpos := Nat.pos_of_ne_zero hprice
        rw [total_of_target htarget, total_of_target htarget, ← Option.some.inj h]
        generalize calculatePrice _ _ _ = price at *
        have hdiv := Nat.div_mul_le_self funds price
        have hlt := Nat.lt_mul_div_succ funds hpos
        refine ⟨Nat.min_le_right _ _, ?_, ?_⟩
        · exact (Nat.mul_le_mul_right _ (Nat.min_le_left _ _)).trans hdiv
        · intro hk
          have hmin' : min (funds / price) maxSeconds = funds / price := by omega
          rw [hmin', Nat.mul_comm]
          exact hlt
    next htarget =>
      rcases remainingLoop_spec hmin htarget maxSeconds 0 funds (by omega) with
        ⟨k, hk, hle, htot, hlast⟩
      rw [Nat.zero_add] at hk
      rw [hk, Nat.zero_add] at h
      rw [← Option.some.inj h]
      exact ⟨hle, htot, hlast⟩

/-- Funds that last for a time cover its cost. -/
theorem costOf_le_of_le_secondsRemaining {maxSeconds funds r k : ℕ} (hmax : maxSeconds ≤ maxUint64)
    (h : s.secondsRemaining c maxSeconds funds = some r) (hk : k ≤ r) : s.costOf c k ≤ funds := by
  have hspec := secondsRemaining_spec hmax h
  calc s.costOf c k = min (total c k s) maxUint64 := costOf_eq s c k
    _ ≤ total c k s := Nat.min_le_left _ _
    _ ≤ total c r s := total_mono c s hk
    _ ≤ funds := hspec.2.1

theorem costOf_one (s : State) (c : Config) : s.costOf c 1 = s.secondPrice c := by
  rw [costOf_eq, total, total, Nat.add_zero, Nat.min_eq_left (secondPrice_le_max s c)]

/-- Funds that cover a second last for one. -/
theorem one_le_secondsRemaining {maxSeconds funds r : ℕ} (hmax : maxSeconds ≤ maxUint64)
    (h : s.secondsRemaining c maxSeconds funds = some r) (hone : 1 ≤ maxSeconds)
    (hfunds : s.costOf c 1 ≤ funds) : 1 ≤ r := by
  have hspec := secondsRemaining_spec hmax h
  rw [costOf_one] at hfunds
  by_contra hr
  have hzero : r = 0 := by omega
  subst hzero
  have hlt := hspec.2.2 hone
  rw [total, total] at hlt
  omega

/-- With a positive conversion constant, the price of the next second is the price
at the excess after it. -/
theorem secondPrice_eq (hconst : 1 ≤ c.excessConversionConstant) (s : State) :
    s.secondPrice c =
      calculatePrice c.minPrice (s.advanceTime c.target 1).excess c.excessConversionConstant := by
  unfold State.secondPrice
  split
  next h => rw [advanceTime_of_target h]
  next =>
    split
    next hz => rw [hz, calculatePrice_zero c.minPrice_le hconst]
    next => rfl

/-- More active validators never make the next second cheaper. -/
theorem costOf_one_mono (hconst : 1 ≤ c.excessConversionConstant) {m n : ℕ} (h : m ≤ n) {excess : ℕ}
    (hexc : excess ≤ maxUint64) :
    (⟨m, excess⟩ : State).costOf c 1 ≤ (⟨n, excess⟩ : State).costOf c 1 := by
  rw [costOf_one, costOf_one, secondPrice_eq hconst, secondPrice_eq hconst]
  refine calculatePrice_mono ?_ _ _
  rw [advanceTime_excess hexc, advanceTime_excess hexc]
  dsimp only
  omega

/-- A second is never free. -/
theorem one_le_costOf_one (hmin : 1 ≤ c.minPrice) (hconst : 1 ≤ c.excessConversionConstant)
    (s : State) : 1 ≤ s.costOf c 1 := by
  rw [costOf_one, secondPrice_eq hconst]
  calc 1 ≤ c.minPrice := hmin
    _ = calculatePrice c.minPrice 0 c.excessConversionConstant :=
      (calculatePrice_zero c.minPrice_le hconst).symm
    _ ≤ _ := calculatePrice_mono (Nat.zero_le _) _ _

/-- With positive parameters `SecondsRemaining` does not divide by zero. -/
theorem secondsRemaining_isSome (hmin : 1 ≤ c.minPrice) (hconst : 1 ≤ c.excessConversionConstant)
    (s : State) (maxSeconds funds : ℕ) : ∃ r, s.secondsRemaining c maxSeconds funds = some r := by
  unfold State.secondsRemaining
  rw [if_neg (by omega)]
  split
  next =>
    have hprice : calculatePrice c.minPrice s.excess c.excessConversionConstant ≠ 0 := by
      have hle := calculatePrice_mono (Nat.zero_le s.excess) c.minPrice c.excessConversionConstant
      rw [calculatePrice_zero c.minPrice_le hconst] at hle
      omega
    exact ⟨_, if_neg hprice⟩
  next => exact ⟨_, rfl⟩

/-! ## Splitting a time -/

/-- Advancing twice is advancing once by the sum, whether or not the excess saturates. -/
theorem advanceTime_add (hs : s.excess ≤ maxUint64) (target a b : ℕ) :
    (s.advanceTime target a).advanceTime target b = s.advanceTime target (a + b) := by
  have hcur : (s.advanceTime target a).current = s.current := rfl
  have hexcess : ((s.advanceTime target a).advanceTime target b).excess = (s.advanceTime target (a + b)).excess := by
    rw [advanceTime_excess (advanceTime_excess_le hs target a), hcur, advanceTime_excess hs, advanceTime_excess hs,
      Nat.mul_add, Nat.mul_add]
    rcases Nat.le_total s.current target with hle | hle <;> rw [Nat.sub_eq_zero_of_le hle, Nat.zero_mul] <;> omega
  exact congrArg (State.mk s.current) hexcess

theorem total_add (hs : s.excess ≤ maxUint64) (a b : ℕ) :
    total c (a + b) s = total c a s + total c b (s.advanceTime c.target a) := by
  induction a generalizing s with
  | zero =>
    have hzero : s.advanceTime c.target 0 = s := by
      unfold State.advanceTime
      simp [subOverTime_eq hs, addOverTime_eq, hs]
    rw [Nat.zero_add, hzero, total, Nat.zero_add]
  | succ a ih =>
    rw [Nat.add_right_comm, total, total, ih (advanceTime_excess_le hs _ _), advanceTime_add hs,
      Nat.add_comm 1 a, Nat.add_assoc]

/-- The price of the second `i + 1` from now. -/
def State.priceAfter (s : State) (c : Config) (i : ℕ) : ℕ :=
  calculatePrice c.minPrice (s.advanceTime c.target (i + 1)).excess c.excessConversionConstant

theorem total_eq_sum (hconst : 1 ≤ c.excessConversionConstant) (hs : s.excess ≤ maxUint64)
    (seconds : ℕ) : total c seconds s = ∑ i ∈ Finset.range seconds, s.priceAfter c i := by
  induction seconds with
  | zero => rfl
  | succ n ih =>
    rw [total_add hs, ih, Finset.sum_range_succ, total, total, Nat.add_zero, secondPrice_eq hconst,
      advanceTime_add hs, State.priceAfter]

/-- `CostOf` is the saturated sum of the prices of the seconds, and splitting a time at any
point changes neither the excess nor what the time costs. -/
theorem costOf_composes {c : Config} (hconst : 1 ≤ c.excessConversionConstant) {s : State}
    (hs : s.excess ≤ maxUint64) (a b : ℕ) :
    s.costOf c a = min maxUint64 (∑ i ∈ Finset.range a, s.priceAfter c i) ∧
    (∀ target, (s.advanceTime target a).advanceTime target b = s.advanceTime target (a + b)) ∧
    s.costOf c (a + b) = min maxUint64 (s.costOf c a + (s.advanceTime c.target a).costOf c b) := by
  refine ⟨?_, fun target => advanceTime_add hs target a b, ?_⟩
  · rw [costOf_eq, total_eq_sum hconst hs, Nat.min_comm]
  · rw [costOf_eq, costOf_eq, costOf_eq, total_add hs]
    omega

/-- Two validators over a target of one: the price rises. -/
theorem costOf_composes_rising :
    (⟨2, 5⟩ : State).costOf ⟨10, 1, 1, 1, by decide⟩ (1 + 2) =
      min maxUint64 ((⟨2, 5⟩ : State).costOf ⟨10, 1, 1, 1, by decide⟩ 1 +
        ((⟨2, 5⟩ : State).advanceTime 1 1).costOf ⟨10, 1, 1, 1, by decide⟩ 2) :=
  (costOf_composes (c := ⟨10, 1, 1, 1, by decide⟩) (by decide) (s := ⟨2, 5⟩) (by decide) 1 2).2.2

/-! ## The longest affordable time -/

/-- Whether the loop of `SecondsRemaining` returns by the branch for an overflow. -/
def remainingOverflows (c : Config) : ℕ → State → ℕ → ℕ → Bool
  | 0, _, _, _ => false
  | left + 1, s, seconds, fundsRemaining =>
    let s := s.advanceTime c.target 1
    if s.excess = 0 then
      match checkedAdd () seconds (fundsRemaining / c.minPrice) with
      | .error _ => true
      | .ok _ => false
    else
      let price := calculatePrice c.minPrice s.excess c.excessConversionConstant
      if fundsRemaining < price then false
      else remainingOverflows c left s (seconds + 1) (fundsRemaining - price)

/-- Every second has cost at least 1: the seconds and the funds left never exceed the funds. -/
theorem remainingOverflows_eq_false (hmin : 1 ≤ c.minPrice)
    (hconst : 1 ≤ c.excessConversionConstant) (s : State) (left seconds funds : ℕ)
    (h : seconds + funds ≤ maxUint64) : remainingOverflows c left s seconds funds = false := by
  induction left generalizing s seconds funds with
  | zero => rfl
  | succ left ih =>
    unfold remainingOverflows
    dsimp only
    split
    next =>
      have hdiv := Nat.div_le_self funds c.minPrice
      rw [checkedAdd_of_le (by omega)]
    next =>
      have hprice := (calculatePrice_zero c.minPrice_le hconst).symm.trans_le
        (calculatePrice_mono (Nat.zero_le (s.advanceTime c.target 1).excess) _ _)
      split
      next => rfl
      next => exact ih _ _ _ (by omega)

/-- `SecondsRemaining` does not divide by zero, never takes its branch for an overflow, and
returns the largest number of seconds, up to the maximum, whose prices the funds cover. -/
theorem secondsRemaining_isGreatest {c : Config} (hmin : 1 ≤ c.minPrice)
    (hconst : 1 ≤ c.excessConversionConstant) {s : State} (hs : s.excess ≤ maxUint64)
    {maxSeconds funds : ℕ} (hmax : maxSeconds ≤ maxUint64) (hfunds : funds ≤ maxUint64) :
    remainingOverflows c maxSeconds s 0 funds = false ∧
    ∃ r, s.secondsRemaining c maxSeconds funds = some r ∧
      IsGreatest {n | n ≤ maxSeconds ∧ ∑ i ∈ Finset.range n, s.priceAfter c i ≤ funds} r := by
  refine ⟨remainingOverflows_eq_false hmin hconst s _ _ _ (by omega), ?_⟩
  obtain ⟨r, hr⟩ := secondsRemaining_isSome hmin hconst s maxSeconds funds
  obtain ⟨hle, hpaid, hlast⟩ := secondsRemaining_spec hmax hr
  refine ⟨r, hr, ⟨hle, ?_⟩, ?_⟩
  · rw [← total_eq_sum hconst hs]
    exact hpaid
  · rintro n ⟨hn, hcost⟩
    rw [← total_eq_sum hconst hs] at hcost
    by_contra hlt
    have hnext := total_mono c s (by omega : r + 1 ≤ n)
    omega

theorem secondsRemaining_isGreatest_rising :
    ∃ r, (⟨2, 5⟩ : State).secondsRemaining ⟨10, 1, 1, 1, by decide⟩ 9 100 = some r ∧ r ≤ 9 := by
  obtain ⟨-, r, hr, hgreatest⟩ := @secondsRemaining_isGreatest ⟨10, 1, 1, 1, by decide⟩ (by decide)
    (by decide) ⟨2, 5⟩ (by decide) 9 100 (by decide) (by decide)
  exact ⟨r, hr, hgreatest.1.1⟩

end Titan.PChain.ValidatorFee
