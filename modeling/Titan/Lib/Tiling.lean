import Mathlib

/-!
# Titan.Lib.Tiling — ranges that cover all keys and only touch

A `Span a rs` leads from the start `a` to the end of all keys: each of the ranges `rs`
starts where the one before it stops. A `Tiling` is a span of all keys in any order.

Ranges can be split at a key inside and joined at a common bound (`Tiling.split`,
`Tiling.join`). What a user of a tiling sees is that every key is in a range
(`Tiling.covers`) and that two ranges share at most a bound (`Tiling.apart`).
-/

namespace Titan.Lib

variable {K : Type}

/-- The keys from `start` to `stop`, where `none` is no bound. -/
structure KeyRange (K : Type) where
  start : Option K
  stop : Option K
deriving DecidableEq, Repr

/-- A start is below another one; `none` is the least. -/
def StartLT [LT K] (a b : Option K) : Prop := ∃ y, b = some y ∧ ∀ x, a = some x → x < y

section Starts

variable [LinearOrder K] {a b c : Option K}

theorem StartLT.irrefl (a : Option K) : ¬ StartLT a a := by
  rintro ⟨y, hy, hlt⟩
  exact lt_irrefl y (hlt y hy)

theorem StartLT.ne (h : StartLT a b) : a ≠ b := by
  rintro rfl
  exact StartLT.irrefl a h

theorem StartLT.trans (h : StartLT a b) (h' : StartLT b c) : StartLT a c := by
  rcases h with ⟨y, rfl, hy⟩
  rcases h' with ⟨z, rfl, hz⟩
  exact ⟨z, rfl, fun x hx => (hy x hx).trans (hz y rfl)⟩

theorem StartLT.of_not (hne : a ≠ b) (h : ¬ StartLT b a) : StartLT a b := by
  rcases b with _ | y
  · rcases a with _ | x
    · exact absurd rfl hne
    · exact absurd ⟨x, rfl, nofun⟩ h
  · refine ⟨y, rfl, fun x hx => lt_of_le_of_ne (not_lt.mp fun hlt => h ⟨x, hx, ?_⟩) fun heq => hne (heq ▸ hx)⟩
    intro z hz
    exact Option.some.inj hz ▸ hlt

end Starts

namespace KeyRange

section

variable [LinearOrder K]

def Contains (r : KeyRange K) (k : K) : Prop := (∀ x, r.start = some x → x ≤ k) ∧ ∀ y, r.stop = some y → k ≤ y

/-- The key is strictly between the bounds. -/
def Inside (r : KeyRange K) (k : K) : Prop := (∀ x, r.start = some x → x < k) ∧ ∀ y, r.stop = some y → k < y

/-- The start is below the end. -/
def Proper (r : KeyRange K) : Prop := ∀ x y, r.start = some x → r.stop = some y → x < y

/-- The range stops where the other one starts or before. -/
def Before (r r' : KeyRange K) : Prop := ∃ y x, r.stop = some y ∧ r'.start = some x ∧ y ≤ x

end

end KeyRange

variable [LinearOrder K]

/-! ## Spans -/

inductive Span : Option K → List (KeyRange K) → Prop
  | last (a : Option K) : Span a [⟨a, none⟩]
  | cons {a : Option K} {k : K} {rs : List (KeyRange K)} (hlt : ∀ x, a = some x → x < k)
      (hrest : Span (some k) rs) : Span a (⟨a, some k⟩ :: rs)

namespace Span

variable {a : Option K} {rs : List (KeyRange K)}

variable (h : Span a rs)
include h

variable {r : KeyRange K}

/-- Ranges start at the start of the span or above it. -/
theorem start_le (hr : r ∈ rs) : r.start = a ∨ StartLT a r.start := by
  induction h with
  | last a =>
    rw [List.mem_singleton.mp hr]
    exact .inl rfl
  | @cons a k rs hlt hrest ih =>
    rcases List.mem_cons.mp hr with rfl | hr
    · exact .inl rfl
    · right
      rcases ih hr with heq | ⟨y, hy, hk⟩
      · exact ⟨k, heq, hlt⟩
      · exact ⟨y, hy, fun x hx => (hlt x hx).trans (hk k rfl)⟩

theorem proper (hr : r ∈ rs) : r.Proper := by
  induction h with
  | last a =>
    rw [List.mem_singleton.mp hr]
    exact nofun
  | @cons a k rs hlt hrest ih =>
    rcases List.mem_cons.mp hr with rfl | hr
    · intro x y hx hy
      exact Option.some.inj hy ▸ hlt x hx
    · exact ih hr

theorem covers {k : K} (hk : ∀ x, a = some x → x ≤ k) : ∃ r ∈ rs, r.Contains k := by
  induction h with
  | last a => exact ⟨_, List.mem_singleton_self _, hk, nofun⟩
  | @cons a k' rs hlt hrest ih =>
    rcases le_total k k' with hle | hle
    · exact ⟨_, List.mem_cons_self, hk, fun y hy => Option.some.inj hy ▸ hle⟩
    · rcases ih fun x hx => Option.some.inj hx ▸ hle with ⟨r, hr, hcontains⟩
      exact ⟨r, List.mem_cons_of_mem _ hr, hcontains⟩

theorem pairwise : rs.Pairwise fun r r' => StartLT r.start r'.start ∧ r.Before r' := by
  induction h with
  | last a => exact List.pairwise_singleton _ _
  | @cons a k rs hlt hrest ih =>
    refine List.pairwise_cons.mpr ⟨fun r hr => ?_, ih⟩
    rcases hrest.start_le hr with heq | ⟨y, hy, hk⟩
    · exact ⟨⟨k, heq, hlt⟩, k, k, rfl, heq, le_refl k⟩
    · exact ⟨⟨y, hy, fun x hx => (hlt x hx).trans (hk k rfl)⟩, k, y, rfl, hy, le_of_lt (hk k rfl)⟩

theorem split (hr : r ∈ rs) {m : K} (hm : r.Inside m) :
    ∃ l l', rs = l ++ r :: l' ∧ Span a (l ++ ⟨r.start, some m⟩ :: ⟨some m, r.stop⟩ :: l') := by
  induction h with
  | last a =>
    cases List.mem_singleton.mp hr
    exact ⟨[], [], rfl, .cons hm.1 (.last _)⟩
  | @cons a k rs hlt hrest ih =>
    rcases List.mem_cons.mp hr with rfl | hr
    · refine ⟨[], rs, rfl, .cons hm.1 (.cons (fun x hx => ?_) hrest)⟩
      exact Option.some.inj hx ▸ hm.2 k rfl
    · rcases ih hr with ⟨l, l', rfl, hspan⟩
      exact ⟨_ :: l, l', rfl, .cons hlt hspan⟩

/-- Where a range stops, the next one starts. -/
theorem join {p q : Option K} {m : K} (hp : ⟨p, some m⟩ ∈ rs) (hq : ⟨some m, q⟩ ∈ rs) :
    ∃ l l', rs = l ++ ⟨p, some m⟩ :: ⟨some m, q⟩ :: l' ∧ Span a (l ++ ⟨p, q⟩ :: l') := by
  induction h with
  | last a =>
    cases List.mem_singleton.mp hp
  | @cons a k rs hlt hrest ih =>
    rcases List.mem_cons.mp hp with heq | hp'
    · -- the first range, and the one after it
      cases heq
      rcases List.mem_cons.mp hq with heq | hq
      · cases heq
        exact absurd (hlt m rfl) (lt_irrefl m)
      · cases hrest with
        | last =>
          cases List.mem_singleton.mp hq
          exact ⟨[], [], rfl, .last _⟩
        | @cons _ k' rs' hlt' hrest' =>
          rcases List.mem_cons.mp hq with heq | hq
          · cases heq
            exact ⟨[], rs', rfl, .cons (fun x hx => (hlt x hx).trans (hlt' m rfl)) hrest'⟩
          · -- only one range starts at a key
            rcases hrest'.start_le hq with heq | ⟨y, hy, hk⟩
            · exact absurd (hlt' m rfl) (by rw [Option.some.inj heq]; exact lt_irrefl _)
            · exact absurd (hlt' m rfl) (by rw [Option.some.inj hy]; exact lt_asymm (hk k' rfl))
    · rcases List.mem_cons.mp hq with heq | hq
      · -- no range stops where the first one starts
        cases heq
        have hproper := hrest.proper hp'
        rcases hrest.start_le hp' with heq | ⟨y, hy, hk⟩
        · exact absurd (hproper k m heq rfl) (lt_asymm (hlt m rfl))
        · exact absurd ((hk k rfl).trans (hproper y m hy rfl)) (lt_asymm (hlt m rfl))
      · rcases ih hp' hq with ⟨l, l', rfl, hspan⟩
        exact ⟨_ :: l, l', rfl, .cons hlt hspan⟩

end Span

/-! ## Tilings -/

/-- Ranges that span all keys, in any order. -/
def Tiling (l : List (KeyRange K)) : Prop := ∃ rs, Span none rs ∧ l.Perm rs

namespace Tiling

variable {l l' : List (KeyRange K)} {r : KeyRange K}

theorem whole : Tiling [(⟨none, none⟩ : KeyRange K)] := ⟨_, .last none, List.Perm.refl _⟩

theorem perm (h : Tiling l) (hperm : l'.Perm l) : Tiling l' := by
  rcases h with ⟨rs, hspan, hrs⟩
  exact ⟨rs, hspan, hperm.trans hrs⟩

theorem proper (h : Tiling l) (hr : r ∈ l) : r.Proper := by
  rcases h with ⟨rs, hspan, hrs⟩
  exact hspan.proper (hrs.mem_iff.mp hr)

theorem split (h : Tiling (r :: l)) {m : K} (hm : r.Inside m) :
    Tiling (⟨r.start, some m⟩ :: ⟨some m, r.stop⟩ :: l) := by
  rcases h with ⟨rs, hspan, hrs⟩
  rcases hspan.split (hrs.mem_iff.mp List.mem_cons_self) hm with ⟨p, q, rfl, hspan'⟩
  refine ⟨_, hspan', ?_⟩
  have hrest : l.Perm (p ++ q) := (hrs.trans List.perm_middle).cons_inv
  have hsecond : (⟨some m, r.stop⟩ :: l : List (KeyRange K)).Perm (p ++ ⟨some m, r.stop⟩ :: q) :=
    (hrest.cons _).trans List.perm_middle.symm
  exact (hsecond.cons _).trans List.perm_middle.symm

theorem join {p q : Option K} {m : K} (h : Tiling (⟨p, some m⟩ :: ⟨some m, q⟩ :: l)) : Tiling (⟨p, q⟩ :: l) := by
  rcases h with ⟨rs, hspan, hrs⟩
  rcases hspan.join (hrs.mem_iff.mp List.mem_cons_self)
    (hrs.mem_iff.mp (List.mem_cons_of_mem _ List.mem_cons_self)) with ⟨u, v, rfl, hspan'⟩
  refine ⟨_, hspan', ?_⟩
  have hrest : (⟨some m, q⟩ :: l).Perm (u ++ ⟨some m, q⟩ :: v) := (hrs.trans List.perm_middle).cons_inv
  have hrest' : l.Perm (u ++ v) := (hrest.trans List.perm_middle).cons_inv
  exact (hrest'.cons _).trans List.perm_middle.symm

/-- Every key is in a range. -/
theorem covers (h : Tiling l) (k : K) : ∃ r ∈ l, r.Contains k := by
  rcases h with ⟨rs, hspan, hrs⟩
  rcases hspan.covers (k := k) nofun with ⟨r, hr, hcontains⟩
  exact ⟨r, hrs.mem_iff.mpr hr, hcontains⟩

/-- Two ranges start at different keys, and one stops where the other one starts or before. -/
theorem apart (h : Tiling l) :
    l.Pairwise fun r r' => (StartLT r.start r'.start ∧ r.Before r') ∨ (StartLT r'.start r.start ∧ r'.Before r) := by
  rcases h with ⟨rs, hspan, hrs⟩
  refine (hrs.symm.pairwise_iff ?_).mp (hspan.pairwise.imp fun {r r'} hr => .inl hr)
  exact fun {r r'} hr => hr.symm

end Tiling

end Titan.Lib
