import Titan.Lib.Checked

/-!
# Titan.PChain.Gas — gas over time and its price

The saturating additions and subtractions of `gas.Gas` and `CalculatePrice`, an
integer approximation of `minPrice * e ^ (excess / excessConversionConstant)`
that is cut off at `MaxUint64`.

The price is computed in 256-bit words by the source. `priceStep_fits` shows
that no intermediate value of the loop leaves the word, so the loop is over ℕ.
What the fee mechanism needs of the price is that it grows with the excess
(`calculatePrice_mono`), starts at `minPrice` and fits in 64 bits.
-/

namespace Titan.PChain

open Lib

/-- `g + gasRate * duration`, or `MaxUint64` on overflow. -/
def addOverTime (g gasRate duration : ℕ) : ℕ :=
  match checkedMul () gasRate duration with
  | .error _ => maxUint64
  | .ok newGas =>
    match checkedAdd () g newGas with
    | .error _ => maxUint64
    | .ok totalGas => totalGas

/-- `g - gasRate * duration`, or 0 on underflow. -/
def subOverTime (g gasRate duration : ℕ) : ℕ :=
  match checkedMul () gasRate duration with
  | .error _ => 0
  | .ok gasToRemove =>
    match checkedSub () g gasToRemove with
    | .error _ => 0
    | .ok totalGas => totalGas

theorem addOverTime_eq (g gasRate duration : ℕ) :
    addOverTime g gasRate duration = min (g + gasRate * duration) maxUint64 := by
  unfold addOverTime
  rcases checkedMul_cases () gasRate duration with ⟨h, he⟩ | ⟨h, he⟩ <;> rw [he] <;> dsimp only
  · omega
  · rcases checkedAdd_cases () g (gasRate * duration) with ⟨h, he⟩ | ⟨h, he⟩ <;> rw [he] <;>
      dsimp only <;> omega

theorem subOverTime_eq {g : ℕ} (hg : g ≤ maxUint64) (gasRate duration : ℕ) :
    subOverTime g gasRate duration = g - gasRate * duration := by
  unfold subOverTime
  rcases checkedMul_cases () gasRate duration with ⟨h, he⟩ | ⟨h, he⟩ <;> rw [he] <;> dsimp only
  · omega
  · rcases checkedSub_cases () g (gasRate * duration) with ⟨h, he⟩ | ⟨h, he⟩ <;> rw [he] <;>
      dsimp only
    omega

/-! ## The price -/

/-- From `i > numerator` on, each term is smaller than the one before. -/
theorem term_decreases {numerator denominator i numeratorAccum : ℕ} (hpos : numeratorAccum ≠ 0) :
    Prod.Lex (· < ·) (· < ·)
      (numerator + 1 - (i + 1), numeratorAccum * numerator / denominator / i)
      (numerator + 1 - i, numeratorAccum) := by
  rcases Nat.lt_or_ge numerator i with hi | hi
  · have hle : numeratorAccum * numerator / denominator ≤ numeratorAccum * numerator :=
      Nat.div_le_self _ _
    have hlt : numeratorAccum * numerator < numeratorAccum * i :=
      Nat.mul_lt_mul_of_pos_left hi (Nat.pos_of_ne_zero hpos)
    have hdiv : numeratorAccum * numerator / denominator / i < numeratorAccum := by
      apply Nat.div_lt_of_lt_mul
      rw [Nat.mul_comm i]
      omega
    have hfst : numerator + 1 - (i + 1) = numerator + 1 - i := by omega
    rw [hfst]
    exact Prod.Lex.right _ hdiv
  · exact Prod.Lex.left _ _ (by omega)

/-- The loop of `CalculatePrice`. -/
def priceLoop (numerator denominator i output numeratorAccum : ℕ) : ℕ :=
  if numeratorAccum = 0 then output / denominator
  else if denominator * maxUint64 ≤ output + numeratorAccum then maxUint64
  else
    priceLoop numerator denominator (i + 1) (output + numeratorAccum)
      (numeratorAccum * numerator / denominator / i)
termination_by (numerator + 1 - i, numeratorAccum)
decreasing_by exact term_decreases ‹_›

/-- `CalculatePrice`. -/
def calculatePrice (minPrice excess excessConversionConstant : ℕ) : ℕ :=
  priceLoop excess excessConversionConstant 1 0 (minPrice * excessConversionConstant)

variable {numerator denominator i output accum : ℕ}

/-- One iteration on 64-bit inputs forms no value of 2 ^ 256 or more, and leaves
the bounds it started from. -/
theorem priceStep_fits
    (hn : numerator ≤ maxUint64) (hd : denominator ≤ maxUint64)
    (hout : output < 2 ^ 128) (hacc : accum < 2 ^ 192) :
    output + accum < 2 ^ 256 ∧ (output + accum < denominator * maxUint64 →
      accum * numerator < 2 ^ 256 ∧ output + accum < 2 ^ 128 ∧
        accum * numerator / denominator / i < 2 ^ 192) := by
  have hmax : denominator * maxUint64 ≤ maxUint64 * maxUint64 := Nat.mul_le_mul_right _ hd
  have hsq : maxUint64 * maxUint64 < 2 ^ 128 := by decide
  refine ⟨by omega, fun hlt => ?_⟩
  have hmul : accum * numerator ≤ 2 ^ 128 * maxUint64 := Nat.mul_le_mul (by omega) hn
  have hpow : 2 ^ 128 * maxUint64 < 2 ^ 192 := by decide
  refine ⟨by omega, by omega, ?_⟩
  calc accum * numerator / denominator / i
      ≤ accum * numerator / denominator := Nat.div_le_self _ _
    _ ≤ accum * numerator := Nat.div_le_self _ _
    _ < 2 ^ 192 := by omega

section Price

variable {n n' d i output output' accum accum' : ℕ}

theorem priceLoop_le_max (hout : output ≤ d * maxUint64) :
    priceLoop n d i output accum ≤ maxUint64 := by
  fun_induction priceLoop n d i output accum with
  | case1 i output =>
    exact Nat.div_le_of_le_mul hout
  | case2 => exact le_refl _
  | case3 i output accum hpos hlt ih => exact ih (by omega)

/-- What has been summed up so far is a lower bound of the price. -/
theorem div_le_priceLoop (hout : output ≤ d * maxUint64) :
    output / d ≤ priceLoop n d i output accum := by
  fun_induction priceLoop n d i output accum with
  | case1 i output => exact le_refl _
  | case2 i output accum hpos hge => exact Nat.div_le_of_le_mul hout
  | case3 i output accum hpos hlt ih =>
    exact (Nat.div_le_div_right (Nat.le_add_right _ _)).trans (ih (by omega))

theorem priceLoop_mono (hn : n ≤ n') (hacc : accum ≤ accum') (hout : output ≤ output')
    (hfit : output' ≤ d * maxUint64) :
    priceLoop n d i output accum ≤ priceLoop n' d i output' accum' := by
  fun_induction priceLoop n d i output accum generalizing output' accum' with
  | case1 i output =>
    exact (Nat.div_le_div_right hout).trans (div_le_priceLoop hfit)
  | case2 i output accum hpos hge =>
    -- the smaller sum is cut off, so the larger one is
    rw [priceLoop, if_neg (by omega), if_pos (by omega)]
  | case3 i output accum hpos hlt ih =>
    rw [priceLoop.eq_def n' d i output' accum', if_neg (by omega)]
    split
    next => exact priceLoop_le_max (by omega)
    next hlt' =>
      apply ih
      · exact Nat.div_le_div_right (Nat.div_le_div_right (Nat.mul_le_mul hacc hn))
      · omega
      · omega

end Price

theorem calculatePrice_le_max (minPrice excess d : ℕ) :
    calculatePrice minPrice excess d ≤ maxUint64 :=
  priceLoop_le_max (Nat.zero_le _)

/-- The price grows with the excess. -/
theorem calculatePrice_mono {excess excess' : ℕ} (h : excess ≤ excess') (minPrice d : ℕ) :
    calculatePrice minPrice excess d ≤ calculatePrice minPrice excess' d :=
  priceLoop_mono h (le_refl _) (le_refl _) (Nat.zero_le _)

/-- Without excess the price is the minimum price. -/
theorem calculatePrice_zero {minPrice d : ℕ} (hmin : minPrice ≤ maxUint64) (hd : 1 ≤ d) :
    calculatePrice minPrice 0 d = minPrice := by
  unfold calculatePrice
  rw [priceLoop]
  split
  next h =>
    rcases Nat.mul_eq_zero.mp h with rfl | rfl
    · simp
    · omega
  next h =>
    rw [Nat.zero_add, Nat.mul_comm minPrice d]
    split
    next hge =>
      have := Nat.le_of_mul_le_mul_left hge hd
      omega
    next => rw [Nat.mul_zero, Nat.zero_div, Nat.zero_div, priceLoop, if_pos rfl,
        Nat.mul_div_cancel_left _ hd]

theorem calculatePrice_of_minPrice_zero (excess d : ℕ) : calculatePrice 0 excess d = 0 := by
  rw [calculatePrice, Nat.zero_mul, priceLoop, if_pos rfl, Nat.zero_div]

/-! ## The words of the source -/

/-- The loop of `CalculatePrice` in 256-bit words, where `word` forms a word from a value. A
loop that does not end is `none`. -/
def priceLoopWord (word : ℕ → Option ℕ) (numerator denominator maxOutput i output
    numeratorAccum : ℕ) : Option ℕ :=
  if numeratorAccum = 0 then some (output / denominator % 2 ^ 64)
  else do
    let output ← word (output + numeratorAccum)
    if maxOutput ≤ output then some maxUint64
    else
      let product ← word (numeratorAccum * numerator)
      let next ← word (i + 1)
      by
        apply priceLoopWord
        exacts [word, numerator, denominator, maxOutput, next, output, product / denominator / i]
partial_fixpoint

def calculatePriceWord (word : ℕ → Option ℕ) (minPrice excess excessConversionConstant : ℕ) :
    Option ℕ := do
  let numeratorAccum ← word (minPrice * excessConversionConstant)
  let maxOutput ← word (excessConversionConstant * maxUint64)
  priceLoopWord word excess excessConversionConstant maxOutput 1 0 numeratorAccum

/-- The words of `uint256.Int`. -/
def wrapping (x : ℕ) : Option ℕ := some (x % 2 ^ 256)

/-- Words that must hold the value. -/
def fitting (x : ℕ) : Option ℕ := if x < 2 ^ 256 then some x else none

theorem priceLoopWord_eq {word : ℕ → Option ℕ} (hword : ∀ x < 2 ^ 256, word x = some x)
    (hn : numerator ≤ maxUint64)
    (hd : denominator ≤ maxUint64) (hout : output ≤ denominator * maxUint64)
    (hacc : accum < 2 ^ 192) (hi : i ≤ output + 1) :
    priceLoopWord word numerator denominator (denominator * maxUint64) i output accum =
      some (priceLoop numerator denominator i output accum) := by
  have hmax : denominator * maxUint64 ≤ maxUint64 * maxUint64 := Nat.mul_le_mul_right _ hd
  have hsq : maxUint64 * maxUint64 < 2 ^ 128 := by decide
  fun_induction priceLoop numerator denominator i output accum with
  | case1 i output =>
    have hfits : output / denominator < 2 ^ 64 :=
      Nat.lt_of_le_of_lt (Nat.div_le_of_le_mul hout) (by decide)
    rw [priceLoopWord, if_pos rfl, Nat.mod_eq_of_lt hfits]
  | case2 i output accum hpos hge =>
    obtain ⟨hsum, -⟩ := priceStep_fits (i := i) hn hd (by omega : output < 2 ^ 128) hacc
    rw [priceLoopWord, if_neg hpos, hword _ hsum, Option.bind_eq_bind, Option.bind_some, if_pos hge]
  | case3 i output accum hpos hlt ih =>
    obtain ⟨hsum, hstep⟩ := priceStep_fits (i := i) hn hd (by omega : output < 2 ^ 128) hacc
    obtain ⟨hprod, -, hnext⟩ := hstep (by omega)
    -- each iteration adds at least 1 to the output, so the counter stays below it
    have hcounter : i + 1 < 2 ^ 256 := by omega
    rw [priceLoopWord, if_neg hpos, hword _ hsum, Option.bind_eq_bind, Option.bind_some, if_neg hlt,
      hword _ hprod, Option.bind_some, hword _ hcounter, Option.bind_some]
    exact ih (by omega) hnext (by omega)

theorem calculatePriceWord_eq {word : ℕ → Option ℕ} (hword : ∀ x < 2 ^ 256, word x = some x)
    {minPrice excess d : ℕ} (hmin : minPrice ≤ maxUint64) (hexcess : excess ≤ maxUint64)
    (hd : d ≤ maxUint64) :
    calculatePriceWord word minPrice excess d = some (calculatePrice minPrice excess d) := by
  have hsq : maxUint64 * maxUint64 < 2 ^ 128 := by decide
  have haccum : minPrice * d ≤ maxUint64 * maxUint64 := Nat.mul_le_mul hmin hd
  have hmax : d * maxUint64 ≤ maxUint64 * maxUint64 := Nat.mul_le_mul_right _ hd
  simp only [calculatePriceWord, hword (minPrice * d) (by omega),
    hword (d * maxUint64) (by omega), Option.bind_eq_bind, Option.bind_some]
  exact priceLoopWord_eq hword hexcess hd (Nat.zero_le _) (by omega) (le_refl _)

/-! ## The series of the doc comment -/

/-- The loop of `fake_exponential`. -/
def fakeLoop (numerator denominator i output numeratorAccum : ℕ) : ℕ :=
  if numeratorAccum = 0 then output / denominator
  else
    fakeLoop numerator denominator (i + 1) (output + numeratorAccum)
      (numeratorAccum * numerator / (denominator * i))
termination_by (numerator + 1 - i, numeratorAccum)
decreasing_by
  rw [← Nat.div_div_eq_div_mul]
  exact term_decreases ‹_›

def fakeExponential (factor numerator denominator : ℕ) : ℕ :=
  fakeLoop numerator denominator 1 0 (factor * denominator)

theorem div_le_fakeLoop (n d i output accum : ℕ) : output / d ≤ fakeLoop n d i output accum := by
  fun_induction fakeLoop n d i output accum with
  | case1 => exact le_refl _
  | case2 i output accum hpos ih =>
    exact (Nat.div_le_div_right (Nat.le_add_right _ _)).trans ih

theorem priceLoop_eq_min {n d i output accum : ℕ} (hd : 1 ≤ d) (hout : output ≤ d * maxUint64) :
    priceLoop n d i output accum = min maxUint64 (fakeLoop n d i output accum) := by
  fun_induction priceLoop n d i output accum with
  | case1 i output =>
    rw [fakeLoop, if_pos rfl, Nat.min_eq_right (Nat.div_le_of_le_mul hout)]
  | case2 i output accum hpos hge =>
    -- the series only grows from here
    have hsum : maxUint64 ≤ (output + accum) / d := by
      rw [Nat.le_div_iff_mul_le hd, Nat.mul_comm]
      exact hge
    rw [fakeLoop, if_neg hpos, Nat.min_eq_left (hsum.trans (div_le_fakeLoop _ _ _ _ _))]
  | case3 i output accum hpos hlt ih =>
    rw [ih (by omega), fakeLoop.eq_def n d i, if_neg hpos, Nat.div_div_eq_div_mul]

/-- `CalculatePrice` ends, forms no value outside of a word, and returns the series of the doc
comment, cut off at `MaxUint64`. -/
theorem calculatePrice_exact {minPrice excess d : ℕ} (hmin : minPrice ≤ maxUint64)
    (hexcess : excess ≤ maxUint64) (hd : 1 ≤ d) (hd' : d ≤ maxUint64) :
    calculatePriceWord wrapping minPrice excess d = some (calculatePrice minPrice excess d) ∧
    calculatePriceWord fitting minPrice excess d = some (calculatePrice minPrice excess d) ∧
    calculatePrice minPrice excess d = min maxUint64 (fakeExponential minPrice excess d) ∧
    minPrice ≤ calculatePrice minPrice excess d ∧ calculatePrice minPrice 0 d = minPrice ∧
    (∀ excess', excess ≤ excess' →
      calculatePrice minPrice excess d ≤ calculatePrice minPrice excess' d) ∧
    ∀ minPrice', minPrice ≤ minPrice' →
      calculatePrice minPrice excess d ≤ calculatePrice minPrice' excess d := by
  have hwrapping : ∀ x < 2 ^ 256, wrapping x = some x := by
    intro x hx
    rw [wrapping, Nat.mod_eq_of_lt hx]
  have hfitting : ∀ x < 2 ^ 256, fitting x = some x := by
    intro x hx
    rw [fitting, if_pos hx]
  have hzero := calculatePrice_zero hmin hd
  refine ⟨calculatePriceWord_eq hwrapping hmin hexcess hd',
    calculatePriceWord_eq hfitting hmin hexcess hd', priceLoop_eq_min hd (Nat.zero_le _), ?_, hzero,
    ?_, ?_⟩
  · calc minPrice = calculatePrice minPrice 0 d := hzero.symm
      _ ≤ calculatePrice minPrice excess d := calculatePrice_mono (Nat.zero_le _) _ _
  · intro excess' hle
    exact calculatePrice_mono hle _ _
  · intro minPrice' hle
    exact priceLoop_mono (le_refl _) (Nat.mul_le_mul_right _ hle) (le_refl _) (Nat.zero_le _)

theorem calculatePrice_exact_two :
    calculatePriceWord wrapping 2 3 1 = some (calculatePrice 2 3 1) ∧
      calculatePrice 2 3 1 = min maxUint64 (fakeExponential 2 3 1) :=
  have h := @calculatePrice_exact 2 3 1 (by decide) (by decide) (by decide) (by decide)
  ⟨h.1, h.2.2.1⟩

end Titan.PChain
