import Titan.Lib.Checked

/-!
# Titan.PChain.Reward — how a reward is split

`reward.Split` gives a delegator its reward less the validator's shares. It multiplies before
it divides if the product fits into 64 bits, and divides first otherwise. `split_eq` says that
no operation wraps.
-/

namespace Titan.PChain.Reward

open Lib

def percentDenominator : ℕ := 1000000

/-- `Split`: the amount from the shares, and the remainder. -/
def split (totalAmount shares : ℕ) : ℕ × ℕ :=
  let remainderShares := (percentDenominator + 2 ^ 64 - shares) % 2 ^ 64
  let remainderAmount :=
    match checkedMul () remainderShares totalAmount with
    | .ok optimisticReward => optimisticReward / percentDenominator
    | .error _ => remainderShares * (totalAmount / percentDenominator) % 2 ^ 64
  ((totalAmount + 2 ^ 64 - remainderAmount) % 2 ^ 64, remainderAmount)

/-- The remainder for `r` of the shares, without a bound on the numbers. -/
def remainder (total r : ℕ) : ℕ :=
  if r * total < 2 ^ 64 then r * total / percentDenominator else r * (total / percentDenominator)

variable {r r' shares : ℕ} (total : ℕ)

/-- What the coarse formula loses is a part of the last, incomplete unit. -/
theorem mul_div_eq (r : ℕ) : r * total / percentDenominator =
    r * (total / percentDenominator) + r * (total % percentDenominator) / percentDenominator := by
  have hsplit : r * total =
      r * (total % percentDenominator) + r * (total / percentDenominator) * percentDenominator := by
    rw [Nat.mul_assoc, ← Nat.mul_add, Nat.mod_add_div']
  rw [hsplit, Nat.add_mul_div_right _ _ (by decide), Nat.add_comm]

theorem lost_lt (hr : r ≤ percentDenominator) :
    r * (total % percentDenominator) / percentDenominator < percentDenominator := by
  have hle : r * (total % percentDenominator) / percentDenominator ≤ total % percentDenominator :=
    Nat.div_le_of_le_mul (Nat.mul_le_mul_right _ hr)
  exact hle.trans_lt (Nat.mod_lt _ (by decide))

theorem remainder_bounds (hr : r ≤ percentDenominator) :
    remainder total r ≤ r * total / percentDenominator ∧
      r * total / percentDenominator < remainder total r + percentDenominator := by
  have hlost := lost_lt total hr
  have heq := mul_div_eq total r
  unfold remainder
  unfold percentDenominator at *
  constructor
  · split <;> omega
  · split <;> omega

theorem remainder_le (hr : r ≤ percentDenominator) : remainder total r ≤ total :=
  (remainder_bounds total hr).1.trans (Nat.div_le_of_le_mul (Nat.mul_le_mul_right _ hr))

theorem remainder_mono (hr : r ≤ percentDenominator) (hle : r' ≤ r) :
    remainder total r' ≤ remainder total r := by
  have hproduct : r' * total ≤ r * total := Nat.mul_le_mul_right _ hle
  by_cases hfits : r * total < 2 ^ 64
  · rw [remainder, remainder, if_pos hfits, if_pos (hproduct.trans_lt hfits)]
    exact Nat.div_le_div_right hproduct
  rw [remainder, remainder, if_neg hfits]
  split
  next hfits' =>
    -- one more share is worth more than all that rounding can lose, since the total is large
    have hlt : r' < r := hle.lt_of_ne fun heq => hfits (heq ▸ hfits')
    have htotal : 2 ^ 64 ≤ percentDenominator * total :=
      (Nat.not_lt.mp hfits).trans (Nat.mul_le_mul_right _ hr)
    have hlost := lost_lt total (hle.trans hr)
    have hshare : (r' + 1) * (total / percentDenominator) ≤ r * (total / percentDenominator) :=
      Nat.mul_le_mul_right _ hlt
    rw [Nat.succ_mul] at hshare
    rw [mul_div_eq]
    unfold percentDenominator at *
    omega
  next => exact Nat.mul_le_mul_right _ hle

variable {total}

/-- Nothing wraps. -/
theorem split_eq (htotal : total < 2 ^ 64) (h : shares ≤ percentDenominator) :
    split total shares = (total - remainder total (percentDenominator - shares),
      remainder total (percentDenominator - shares)) := by
  have hr : percentDenominator - shares ≤ percentDenominator := Nat.sub_le _ _
  have hshares : (percentDenominator + 2 ^ 64 - shares) % 2 ^ 64 = percentDenominator - shares := by
    unfold percentDenominator at *
    omega
  have hcoarse : (percentDenominator - shares) * (total / percentDenominator) < 2 ^ 64 :=
    ((Nat.mul_le_mul_right _ hr).trans (Nat.mul_div_le _ _)).trans_lt htotal
  have hle := remainder_le total hr
  have hamount : (split total shares).2 = remainder total (percentDenominator - shares) := by
    unfold split remainder
    dsimp only
    rw [hshares]
    rcases checkedMul_cases () (percentDenominator - shares) total with ⟨hlarge, hmul⟩ | ⟨hfits, hmul⟩
    · rw [hmul, if_neg (by unfold maxUint64 at hlarge; omega)]
      exact Nat.mod_eq_of_lt hcoarse
    · rw [hmul, if_pos (by unfold maxUint64 at hfits; omega)]
  have hfirst : (split total shares).1 = (total + 2 ^ 64 - (split total shares).2) % 2 ^ 64 := rfl
  refine Prod.ext ?_ hamount
  rw [hfirst, hamount]
  omega

/-- **`Split` is exact in total, fair and monotone.** -/
theorem split_exact_fair_monotone (htotal : total < 2 ^ 64) (h : shares ≤ percentDenominator) :
    split total shares = (total - remainder total (percentDenominator - shares),
      remainder total (percentDenominator - shares)) ∧
    (split total shares).1 + (split total shares).2 = total ∧
    (split total shares).2 ≤ total * (percentDenominator - shares) / percentDenominator ∧
    total * (percentDenominator - shares) / percentDenominator < (split total shares).2 + percentDenominator ∧
    ∀ shares' ≤ shares, (split total shares').1 ≤ (split total shares).1 := by
  have hr : percentDenominator - shares ≤ percentDenominator := Nat.sub_le _ _
  have heq := split_eq htotal h
  obtain ⟨hle, hlt⟩ := remainder_bounds total hr
  rw [Nat.mul_comm] at hle hlt
  refine ⟨heq, ?_, ?_, ?_, ?_⟩
  · rw [heq]
    exact Nat.sub_add_cancel (remainder_le total hr)
  · rw [heq]
    exact hle
  · rw [heq]
    exact hlt
  · intro shares' hshares
    rw [heq, split_eq htotal (hshares.trans h)]
    exact Nat.sub_le_sub_left (remainder_mono total (Nat.sub_le _ _) (Nat.sub_le_sub_left hshares _)) total

/-- The product overflows for 2 % and not for 90 %. -/
theorem split_exact_fair_monotone_large : (split 20000000000000 20000).1 ≤ (split 20000000000000 900000).1 :=
  (split_exact_fair_monotone (by decide) (by decide)).2.2.2.2 20000 (by decide)

end Titan.PChain.Reward
