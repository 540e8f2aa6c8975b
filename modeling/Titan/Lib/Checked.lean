import Mathlib

/-!
# Titan.Lib.Checked — rules for fallible computations

A computation that may stop with an error is an `Except`. A successful bind
splits into a successful head and a successful continuation, which is how a
function made of fallible stages is taken apart, stage by stage.

Unsigned 64-bit arithmetic is over ℕ: the checked operations return the error
they are given where the exact result does not fit.
-/

namespace Titan.Lib

variable {α β : Type}

variable {ε : Type} {f : α → Except ε β}

/-- A successful bind: its head succeeded, and so did the rest. -/
theorem bind_ok {x : Except ε α} {b : β} (h : (x >>= f) = .ok b) :
    ∃ a, x = .ok a ∧ f a = .ok b := by
  cases x with
  | error e => cases h
  | ok a => exact ⟨a, rfl, h⟩

/-- A check that fails with an error was passed. -/
theorem guard_ok {p : Prop} [Decidable p] {e : ε} {x : Except ε α} {a : α}
    (h : (if p then .error e else x) = .ok a) : ¬ p ∧ x = .ok a := by
  split at h
  next => cases h
  next hp => exact ⟨hp, h⟩

theorem ok_bind (a : α) (f : α → Except ε β) : (Except.ok a >>= f) = f a := rfl

/-- A check: fail with the error unless the condition holds. -/
def ensure {ε : Type} (p : Prop) [Decidable p] (e : ε) : Except ε Unit :=
  if p then .ok () else .error e

theorem ensure_ok {p : Prop} [Decidable p] {e : ε} {u : Unit} (h : ensure p e = .ok u) : p := by
  unfold ensure at h
  split at h
  next hp => exact hp
  next => cases h

variable {l : List α}

/-- A loop of checks that ends without an error checked every element. -/
theorem forM_ok {f : α → Except ε Unit} {u : Unit} (h : l.forM f = .ok u) :
    ∀ a ∈ l, f a = .ok () := by
  induction l with
  | nil => simp
  | cons a l ih =>
    rcases bind_ok (show (f a >>= fun _ => l.forM f) = .ok u from h) with ⟨⟨⟩, ha, hl⟩
    intro b hb
    rcases List.mem_cons.mp hb with rfl | hb
    · exact ha
    · exact ih hl b hb

theorem forM_ok_iff {f : α → Except ε Unit} : l.forM f = .ok () ↔ ∀ a ∈ l, f a = .ok () := by
  constructor
  · exact forM_ok
  · intro h
    induction l with
    | nil => rfl
    | cons a l ih =>
      show (f a >>= fun _ => l.forM f) = .ok ()
      rw [h a List.mem_cons_self]
      exact ih fun b hb => h b (List.mem_cons_of_mem _ hb)

/-- A loop that computes a value for each element. -/
theorem mapM_ok {l' : List β} :
    l.mapM f = .ok l' ↔ List.Forall₂ (fun x y => f x = .ok y) l l' := by
  induction l generalizing l' with
  | nil =>
    constructor
    · intro h
      cases h
      exact .nil
    · intro h
      cases h
      rfl
  | cons x l ih =>
    rw [List.mapM_cons]
    constructor
    · intro h
      rcases bind_ok h with ⟨y, hy, h⟩
      rcases bind_ok h with ⟨ys, hys, h⟩
      cases h
      exact .cons hy (ih.mp hys)
    · intro h
      cases h with
      | cons hy hys =>
        rw [hy, ih.mpr hys]
        rfl

theorem exists_mapM_ok (h : ∀ x ∈ l, ∃ y, f x = .ok y) :
    ∃ l', l.mapM f = .ok l' := by
  induction l with
  | nil => exact ⟨[], rfl⟩
  | cons x l ih =>
    rcases h x List.mem_cons_self with ⟨y, hy⟩
    rcases ih fun x' hx' => h x' (List.mem_cons_of_mem _ hx') with ⟨l', hl'⟩
    exact ⟨y :: l', mapM_ok.mpr (.cons hy (mapM_ok.mp hl'))⟩

/-! ## Widths -/

instance neZero_two_pow_256 : NeZero (2 ^ 256 : ℕ) := inferInstance

instance neZero_two_pow_160 : NeZero (2 ^ 160 : ℕ) := inferInstance

instance neZero_two_pow_32 : NeZero (2 ^ 32 : ℕ) := inferInstance

instance neZero_256 : NeZero (256 : ℕ) := inferInstance

/-! ## Checked unsigned 64-bit arithmetic -/

/-- The largest unsigned 64-bit integer. -/
def maxUint64 : ℕ := 2 ^ 64 - 1

section Arithmetic

variable {ε : Type} (overflow : ε)

/-- Addition that fails above `maxUint64`. -/
def checkedAdd (a b : ℕ) : Except ε ℕ :=
  if maxUint64 < a + b then .error overflow else .ok (a + b)

/-- Subtraction that fails below zero. -/
def checkedSub (underflow : ε) (a b : ℕ) : Except ε ℕ :=
  if a < b then .error underflow else .ok (a - b)

/-- Multiplication that fails above `maxUint64`. -/
def checkedMul (a b : ℕ) : Except ε ℕ :=
  if maxUint64 < a * b then .error overflow else .ok (a * b)

theorem guard_cases {p q : Prop} [Decidable p] (h : ¬ p ↔ q) (c : ℕ) :
    p ∧ (if p then .error overflow else .ok c) = (.error overflow : Except ε ℕ) ∨
      q ∧ (if p then .error overflow else .ok c) = (.ok c : Except ε ℕ) := by
  split
  next hp => exact .inl ⟨hp, rfl⟩
  next hp => exact .inr ⟨h.mp hp, rfl⟩

theorem checkedAdd_cases (a b : ℕ) :
    maxUint64 < a + b ∧ checkedAdd overflow a b = .error overflow ∨
      a + b ≤ maxUint64 ∧ checkedAdd overflow a b = .ok (a + b) := guard_cases overflow Nat.not_lt _

theorem checkedSub_cases (a b : ℕ) :
    a < b ∧ checkedSub overflow a b = .error overflow ∨
      b ≤ a ∧ checkedSub overflow a b = .ok (a - b) := guard_cases overflow Nat.not_lt _

theorem checkedMul_cases (a b : ℕ) :
    maxUint64 < a * b ∧ checkedMul overflow a b = .error overflow ∨
      a * b ≤ maxUint64 ∧ checkedMul overflow a b = .ok (a * b) := guard_cases overflow Nat.not_lt _

variable {a : ℕ} {overflow : ε}

theorem checkedAdd_of_le {b : ℕ} (h : a + b ≤ maxUint64) : checkedAdd overflow a b = .ok (a + b) :=
  if_neg (Nat.not_lt.mpr h)

theorem checkedAdd_ok {b c : ℕ} (h : checkedAdd overflow a b = .ok c) :
    a + b ≤ maxUint64 ∧ c = a + b := by
  rcases guard_ok h with ⟨hle, hc⟩
  exact ⟨Nat.not_lt.mp hle, (Except.ok.inj hc).symm⟩

theorem checkedSub_ok {underflow : ε} {b c : ℕ} (h : checkedSub underflow a b = .ok c) :
    b ≤ a ∧ c = a - b := by
  rcases guard_ok h with ⟨hle, hc⟩
  exact ⟨Nat.not_lt.mp hle, (Except.ok.inj hc).symm⟩

/-- A loop of additions that fits. -/
theorem foldlM_checkedAdd (f : α → ℕ) (l : List α) (h : a + (l.map f).sum ≤ maxUint64) :
    l.foldlM (fun s x => checkedAdd overflow s (f x)) a = .ok (a + (l.map f).sum) := by
  induction l generalizing a with
  | nil => rfl
  | cons x l ih =>
    rw [List.map_cons, List.sum_cons, ← Nat.add_assoc] at h ⊢
    rw [List.foldlM_cons, checkedAdd_of_le (by omega), ok_bind]
    exact ih h

theorem foldlM_checkedAdd_ok {f : α → ℕ} {b : ℕ} (ha : a ≤ maxUint64)
    (h : l.foldlM (fun s x => checkedAdd overflow s (f x)) a = .ok b) :
    b = a + (l.map f).sum ∧ b ≤ maxUint64 := by
  induction l generalizing a with
  | nil =>
    cases h
    exact ⟨rfl, ha⟩
  | cons x l ih =>
    rcases bind_ok h with ⟨c, hc, h⟩
    rcases checkedAdd_ok hc with ⟨hle, rfl⟩
    rw [List.map_cons, List.sum_cons, ← Nat.add_assoc]
    exact ih hle h

end Arithmetic

end Titan.Lib
