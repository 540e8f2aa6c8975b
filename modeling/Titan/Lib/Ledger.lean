import Mathlib

/-!
# Titan.Lib.Ledger — totals of a finite ledger of fixed-width balances

A ledger maps every account of a finite type to a `w`-bit balance. The credit
and debit operations are the machine ones, so they wrap; the lemmas below say
how they move the total and when the wrap does not happen. Nothing here knows
which program keeps the ledger.
-/

namespace Titan.Lib

variable {ι : Type*} {w : ℕ}

section Operations

variable [DecidableEq ι]

/-- Add `v` to the balance of `a`, modulo `2 ^ w`. -/
def credit (b : ι → BitVec w) (a : ι) (v : BitVec w) : ι → BitVec w :=
  Function.update b a (b a + v)

/-- Subtract `v` from the balance of `a`, modulo `2 ^ w`. -/
def debit (b : ι → BitVec w) (a : ι) (v : BitVec w) : ι → BitVec w :=
  Function.update b a (b a - v)

@[simp] theorem credit_self (b : ι → BitVec w) (a : ι) (v : BitVec w) :
    credit b a v a = b a + v := by
  simp [credit]

end Operations

section Totals

variable [Fintype ι]

/-- The sum of all balances, as a natural number. -/
def total (b : ι → BitVec w) : ℕ := ∑ a, (b a).toNat

/-- No balance exceeds the total. -/
theorem toNat_le_total (b : ι → BitVec w) (a : ι) : (b a).toNat ≤ total b :=
  Finset.single_le_sum (f := fun a => (b a).toNat) (fun _ _ => Nat.zero_le _)
    (Finset.mem_univ a)

theorem total_zero : total (fun _ : ι => (0 : BitVec w)) = 0 := by
  simp [total]

variable [DecidableEq ι]

/-- Overwriting one balance moves the total by the difference. -/
theorem total_update (b : ι → BitVec w) (a : ι) (v : BitVec w) :
    total (Function.update b a v) + (b a).toNat = total b + v.toNat := by
  have hsplit : ∀ c : ι → BitVec w,
      total c = (c a).toNat + ∑ x ∈ Finset.univ.erase a, (c x).toNat := by
    intro c
    exact (Finset.add_sum_erase Finset.univ (fun x => (c x).toNat) (Finset.mem_univ a)).symm
  have hrest : ∑ x ∈ Finset.univ.erase a, (Function.update b a v x).toNat
      = ∑ x ∈ Finset.univ.erase a, (b x).toNat := by
    apply Finset.sum_congr rfl
    intro x hx
    rw [Function.update_of_ne (Finset.ne_of_mem_erase hx)]
  rw [hsplit (Function.update b a v), hsplit b, hrest, Function.update_self]
  omega

variable {b : ι → BitVec w} {a : ι} {v : BitVec w}

/-- A credit that keeps the total below `2 ^ w` does not wrap. -/
theorem total_credit (h : total b + v.toNat < 2 ^ w) :
    total (credit b a v) = total b + v.toNat := by
  have hle : (b a).toNat ≤ total b := toNat_le_total b a
  have hadd : (b a + v).toNat = (b a).toNat + v.toNat := by
    rw [BitVec.toNat_add, Nat.mod_eq_of_lt (by omega)]
  have hupd := total_update b a (b a + v)
  unfold credit
  omega

/-- A credit that wraps around takes a full `2 ^ w` out of the total. -/
theorem total_credit_wrap (h : 2 ^ w ≤ (b a).toNat + v.toNat) :
    total (credit b a v) + 2 ^ w = total b + v.toNat := by
  have hadd : (b a + v).toNat + 2 ^ w = (b a).toNat + v.toNat := by
    rw [BitVec.toNat_add, Nat.mod_eq_sub_mod h, Nat.mod_eq_of_lt (by omega)]
    omega
  have hupd : total (credit b a v) + (b a).toNat = total b + (b a + v).toNat :=
    total_update b a (b a + v)
  omega

/-- A debit covered by the balance does not wrap. -/
theorem total_debit (h : v.toNat ≤ (b a).toNat) :
    total (debit b a v) + v.toNat = total b := by
  have hsub : (b a - v).toNat = (b a).toNat - v.toNat :=
    BitVec.toNat_sub_of_le (by simpa [BitVec.le_def] using h)
  have hupd := total_update b a (b a - v)
  unfold debit
  omega

/-- Moving the whole balance of `a` to another account keeps a total below
`2 ^ w`. -/
theorem total_credit_debit {c : ι} (h : total b < 2 ^ w) :
    total (credit (debit b a (b a)) c (b a)) = total b := by
  have hdebit : total (debit b a (b a)) + (b a).toNat = total b := total_debit (Nat.le_refl _)
  rw [total_credit (by omega), hdebit]

omit [DecidableEq ι] in
/-- If every balance moves by what is credited and debited there, so does the total. -/
theorem total_shift {b' : ι → BitVec w} {credited debited : ι → ℕ}
    (h : ∀ a, (b' a).toNat + debited a = (b a).toNat + credited a) :
    total b' + ∑ a, debited a = total b + ∑ a, credited a := by
  unfold total
  rw [← Finset.sum_add_distrib, ← Finset.sum_add_distrib]
  exact Finset.sum_congr rfl (fun a _ => h a)

-- the lemmas above are all a client needs; a total over a large index type must
-- never be evaluated
attribute [irreducible] total

end Totals

end Titan.Lib
