import Titan.Lib.Search
import Titan.PChain.Gas

/-!
# Titan.CChain.ACP176 — the gas target of ACP-176 and the block delay of ACP-226

The gas target grows exponentially with the target excess, and the minimum delay of blocks
with the delay excess (`vms/evm/acp176`, `vms/evm/acp226`). Both are prices of
`CalculatePrice`. What excess gives a desired target or delay is found by a binary search up
to a fixed bound, at which the price is `MaxUint64`.
-/

namespace Titan.CChain.ACP176

open Lib PChain

/-! ## The target -/

/-- `Params`, without those of the gas price. -/
structure Params where
  minTargetPerSecond : ℕ
  targetConversion : ℕ
  maxTargetExcessDiff : ℕ
  timeToFillCapacity : ℕ
  targetToMax : ℕ
  fits : minTargetPerSecond ≤ Lib.maxUint64

/-- `acp176.DefaultParams`. -/
def defaultParams : Params := ⟨1000000, 1024 * 2 ^ 15, 2 ^ 15, 5, 2, by decide⟩

/-- `granite.DefaultParams`. -/
def graniteParams : Params := ⟨1000000, 1024 * 32768, 2 ^ 15, 4, 2, by decide⟩

/-- `gas.State`. -/
structure GasState where
  capacity : ℕ
  excess : ℕ
deriving DecidableEq, Repr

structure State where
  gas : GasState
  targetExcess : ℕ
deriving DecidableEq, Repr

def State.targetWith (p : Params) (s : State) : ℕ :=
  calculatePrice p.minTargetPerSecond s.targetExcess p.targetConversion

/-! ## The excess of a desired target -/

def maxTargetExcess : ℕ := 1024950627

def desiredTargetExcessWith (p : Params) (desiredTarget : ℕ) : ℕ :=
  search (fun targetExcessGuess => desiredTarget ≤ State.targetWith p ⟨⟨0, 0⟩, targetExcessGuess⟩) 0 maxTargetExcess

/-! ## Block delays -/

def minDelayMilliseconds : ℕ := 1

def conversionRate : ℕ := 2 ^ 20

def maxDelayExcess : ℕ := 46516320

def delay (delayExcess : ℕ) : ℕ := calculatePrice minDelayMilliseconds delayExcess conversionRate

def desiredDelayExcess (desiredDelay : ℕ) : ℕ :=
  search (fun delayExcessGuess => desiredDelay ≤ delay delayExcessGuess) 0 maxDelayExcess

/-! ## The least excess -/

/-- A search up to an excess whose price is `MaxUint64`. -/
theorem search_price {minPrice conversion bound : ℕ}
    (hbound : calculatePrice minPrice bound conversion = Lib.maxUint64) (desired : UInt64) :
    IsLeast {e | desired.toNat ≤ calculatePrice minPrice e conversion}
      (search (fun e => desired.toNat ≤ calculatePrice minPrice e conversion) 0 bound) := by
  have hleast := search_isLeast (f := fun e => desired.toNat ≤ calculatePrice minPrice e conversion) (j := bound)
    (fun a b hab ha => ?_) (Nat.zero_le _) (fun k hk => ?_) ?_
  · simpa only [decide_eq_true_eq] using hleast
  · rw [decide_eq_true_eq] at ha ⊢
    exact ha.trans (calculatePrice_mono hab _ _)
  · cases hk
  · rw [decide_eq_true_eq, hbound]
    exact Nat.le_pred_of_lt desired.toNat_lt

/-- The bounds of the searches are large enough. -/
theorem desired_excess_least (desired : UInt64) :
    IsLeast {e | desired.toNat ≤ State.targetWith defaultParams ⟨⟨0, 0⟩, e⟩}
        (desiredTargetExcessWith defaultParams desired.toNat) ∧
      IsLeast {e | desired.toNat ≤ State.targetWith graniteParams ⟨⟨0, 0⟩, e⟩}
        (desiredTargetExcessWith graniteParams desired.toNat) ∧
      IsLeast {e | desired.toNat ≤ delay e} (desiredDelayExcess desired.toNat) := by
  have htarget : calculatePrice 1000000 maxTargetExcess (1024 * 2 ^ 15) = Lib.maxUint64 := by
    simp [calculatePrice, priceLoop, Lib.maxUint64, maxTargetExcess]
  have hdelay : calculatePrice minDelayMilliseconds maxDelayExcess conversionRate = Lib.maxUint64 := by
    simp [calculatePrice, priceLoop, Lib.maxUint64, minDelayMilliseconds, maxDelayExcess, conversionRate]
  exact ⟨search_price htarget desired, search_price htarget desired, search_price hdelay desired⟩

end Titan.CChain.ACP176
