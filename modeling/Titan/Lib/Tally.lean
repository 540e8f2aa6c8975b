import Titan.Lib.Checked

/-!
# Titan.Lib.Tally — amounts under keys

A tally is a state that holds an amount under each key. `Tally` has checked additions and
`Purse` has withdrawals; a loop of either over a list of keyed amounts succeeds just if the
total under each key allows it, whatever the order of the list.
-/

namespace Titan.Lib

variable {S K ε : Type} [DecidableEq K]

/-- The total of the amounts under a key. -/
def totalAt (l : List (K × ℕ)) (k : K) : ℕ := (l.map fun e => if e.1 = k then e.2 else 0).sum

@[simp] theorem totalAt_nil (k : K) : totalAt [] k = 0 := rfl

@[simp] theorem totalAt_cons (e : K × ℕ) (l : List (K × ℕ)) (k : K) :
    totalAt (e :: l) k = (if e.1 = k then e.2 else 0) + totalAt l k := rfl

theorem totalAt_perm {l l' : List (K × ℕ)} (h : l.Perm l') (k : K) : totalAt l k = totalAt l' k :=
  (h.map _).sum_eq

theorem totalAt_eq_zero {l : List (K × ℕ)} {k : K} (h : ∀ e ∈ l, e.1 ≠ k) : totalAt l k = 0 := by
  induction l with
  | nil => rfl
  | cons e l ih =>
    rw [totalAt_cons, if_neg (h e List.mem_cons_self), ih fun e' he' => h e' (List.mem_cons_of_mem _ he')]

/-- Under keys that differ, a total is the sum over the keys. -/
theorem totalAt_map_of_nodup {A : Type} [DecidableEq A] {l : List A} (hnodup : l.Nodup) (f : A → K) (g : A → ℕ) (k : K) :
    totalAt (l.map fun a => (f a, g a)) k = ∑ a ∈ l.toFinset with f a = k, g a := by
  rw [totalAt, List.map_map, Finset.sum_filter, List.sum_toFinset _ hnodup]
  rfl

/-! ## Additions -/

/-- A state with amounts to which checked additions are made. -/
structure Tally (S K ε : Type) [DecidableEq K] where
  amount : S → K → ℕ
  add : S → K → ℕ → Except ε S
  add_ok : ∀ s k n, amount s k + n ≤ maxUint64 →
    ∃ s', add s k n = .ok s' ∧ ∀ k', amount s' k' = amount s k' + if k = k' then n else 0
  add_error : ∀ s k n, maxUint64 < amount s k + n → ∃ e, add s k n = .error e

namespace Tally

variable (T : Tally S K ε) {s s' : S} {l : List (K × ℕ)}

theorem amount_of_add {k : K} {n : ℕ} (h : T.add s k n = .ok s') :
    T.amount s k + n ≤ maxUint64 ∧ ∀ k', T.amount s' k' = T.amount s k' + if k = k' then n else 0 := by
  rcases le_or_gt (T.amount s k + n) maxUint64 with hle | hgt
  · rcases T.add_ok s k n hle with ⟨s₁, hok, hamount⟩
    rw [hok] at h
    cases h
    exact ⟨hle, hamount⟩
  · rcases T.add_error s k n hgt with ⟨err, herr⟩
    rw [herr] at h
    cases h

/-- A loop of additions ends with the totals. -/
theorem amount_of_foldlM (h : l.foldlM (fun s e => T.add s e.1 e.2) s = .ok s') (k : K) :
    T.amount s' k = T.amount s k + totalAt l k := by
  induction l generalizing s with
  | nil =>
    cases h
    rfl
  | cons e l ih =>
    rcases bind_ok h with ⟨s₁, hadd, h⟩
    rw [ih h, (T.amount_of_add hadd).2, totalAt_cons, Nat.add_assoc]

/-- It succeeds if the totals fit. -/
theorem exists_foldlM (hfits : ∀ k, T.amount s k + totalAt l k ≤ maxUint64) :
    ∃ s', l.foldlM (fun s e => T.add s e.1 e.2) s = .ok s' := by
  induction l generalizing s with
  | nil => exact ⟨s, rfl⟩
  | cons e l ih =>
    have hhead : T.amount s e.1 + e.2 ≤ maxUint64 := by
      have := hfits e.1
      rw [totalAt_cons, if_pos rfl] at this
      omega
    rcases T.add_ok s e.1 e.2 hhead with ⟨s₁, hok, hamount⟩
    rw [List.foldlM_cons, hok]
    refine ih fun k => ?_
    rw [hamount, Nat.add_assoc]
    exact hfits k

/-- And only then, if the amounts fit at first. -/
theorem foldlM_le (hs : ∀ k, T.amount s k ≤ maxUint64)
    (h : l.foldlM (fun s e => T.add s e.1 e.2) s = .ok s') (k : K) : T.amount s' k ≤ maxUint64 := by
  induction l generalizing s with
  | nil =>
    cases h
    exact hs k
  | cons e l ih =>
    rcases bind_ok h with ⟨s₁, hadd, h⟩
    rcases T.amount_of_add hadd with ⟨hle, hamount⟩
    refine ih (fun k' => ?_) h
    rw [hamount]
    split
    next heq =>
      subst heq
      exact hle
    next => exact hs k'

/-- A loop that finds out the key and the amount of each item before it adds them. -/
theorem foldlM_items {X : Type} {c : X → Except ε (K × ℕ)} {items : List X} :
    (items.foldlM (fun s x => do let e ← c x; T.add s e.1 e.2) s = .ok s') ↔
      (∀ x ∈ items, ∃ e, c x = .ok e) ∧
        (items.filterMap fun x => (c x).toOption).foldlM (fun s e => T.add s e.1 e.2) s = .ok s' := by
  induction items generalizing s with
  | nil => simp
  | cons x items ih =>
    have hhead : ∀ e, c x = .ok e → (x :: items).filterMap (fun x => (c x).toOption) =
        e :: items.filterMap fun x => (c x).toOption := by
      intro e he
      simp [he, Except.toOption]
    rw [List.foldlM_cons, List.forall_mem_cons]
    constructor
    · intro h
      rcases bind_ok h with ⟨s₁, hone, h⟩
      rcases bind_ok hone with ⟨e, he, hadd⟩
      rcases ih.mp h with ⟨hrest, h⟩
      refine ⟨⟨⟨e, he⟩, hrest⟩, ?_⟩
      rw [hhead e he, List.foldlM_cons, hadd]
      exact h
    · rintro ⟨⟨⟨e, he⟩, hrest⟩, h⟩
      rw [hhead e he, List.foldlM_cons] at h
      rcases bind_ok h with ⟨s₁, hadd, h⟩
      rw [he]
      show (T.add s e.1 e.2 >>= _) = _
      rw [hadd]
      exact ih.mpr ⟨hrest, h⟩

end Tally

/-! ## Withdrawals -/

/-- A state with amounts from which others are taken, as far as they suffice. -/
structure Purse (S K ε : Type) [DecidableEq K] where
  amount : S → K → ℕ
  take : S → K → ℕ → Except ε S
  take_ok : ∀ s k n, n ≤ amount s k →
    ∃ s', take s k n = .ok s' ∧ ∀ k', amount s' k' = amount s k' - if k = k' then n else 0
  take_error : ∀ s k n, amount s k < n → ∃ e, take s k n = .error e

namespace Purse

variable (P : Purse S K ε) {s s' : S} {l : List (K × ℕ)}

theorem amount_of_foldlM (h : l.foldlM (fun s e => P.take s e.1 e.2) s = .ok s') (k : K) :
    totalAt l k ≤ P.amount s k ∧ P.amount s' k = P.amount s k - totalAt l k := by
  induction l generalizing s with
  | nil =>
    cases h
    exact ⟨Nat.zero_le _, rfl⟩
  | cons e l ih =>
    rw [List.foldlM_cons] at h
    rcases bind_ok h with ⟨s₁, htake, h⟩
    rcases le_or_gt e.2 (P.amount s e.1) with hle | hgt
    · rcases P.take_ok s e.1 e.2 hle with ⟨s₂, hok, hamount⟩
      rw [hok] at htake
      cases htake
      rcases ih h with ⟨hrest, hs'⟩
      rw [hs', hamount k, totalAt_cons]
      rw [hamount k] at hrest
      split at hrest
      next heq =>
        subst heq
        rw [if_pos rfl]
        omega
      next hne =>
        rw [if_neg hne]
        omega
    · rcases P.take_error s e.1 e.2 hgt with ⟨err, herr⟩
      rw [herr] at htake
      cases htake

theorem exists_foldlM (henough : ∀ k, totalAt l k ≤ P.amount s k) :
    ∃ s', l.foldlM (fun s e => P.take s e.1 e.2) s = .ok s' := by
  induction l generalizing s with
  | nil => exact ⟨s, rfl⟩
  | cons e l ih =>
    have hhead : e.2 ≤ P.amount s e.1 := by
      have := henough e.1
      rw [totalAt_cons, if_pos rfl] at this
      omega
    rcases P.take_ok s e.1 e.2 hhead with ⟨s₁, hok, hamount⟩
    rw [List.foldlM_cons, hok]
    refine ih fun k => ?_
    have hk := henough k
    rw [totalAt_cons] at hk
    rw [hamount]
    omega

end Purse

end Titan.Lib
