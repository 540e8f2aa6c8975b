import Mathlib

/-!
# Titan.Lib.Search — binary search

The search of Go's `sort.Search` halves the numbers from `i` to `j` until one is left. Where a
test stays true once it is, the search finds the least number that passes it.
-/

namespace Titan.Lib

/-- The loop of `sort.Search`. -/
def search (f : ℕ → Bool) (i j : ℕ) : ℕ :=
  if i < j then
    let h := (i + j) / 2
    if f h then search f i h else search f (h + 1) j
  else i
termination_by j - i

variable {f : ℕ → Bool} {i j : ℕ}

/-- What is below `i` fails the test and `j` passes it. -/
theorem search_isLeast (hmono : ∀ a b, a ≤ b → f a = true → f b = true) (hij : i ≤ j)
    (hbelow : ∀ k < i, f k = false) (hend : f j = true) : IsLeast {k | f k = true} (search f i j) := by
  fun_induction search f i j with
  | case1 i j hlt h hpass ih => exact ih (by omega) hbelow hpass
  | case2 i j hlt h hfail ih =>
    refine ih (by omega) (fun k hk => ?_) hend
    by_contra hpass
    rw [Bool.not_eq_false] at hpass
    exact hfail (hmono k h (by omega) hpass)
  | case3 i j hge =>
    -- the two ends have met
    obtain rfl : i = j := by omega
    refine ⟨hend, fun k (hpass : f k = true) => ?_⟩
    by_contra hlt
    rw [hbelow k (by omega)] at hpass
    cases hpass

end Titan.Lib
