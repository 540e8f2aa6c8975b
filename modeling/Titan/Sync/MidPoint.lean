import Titan.Database.MemDB
import Titan.Lib.Tiling

/-!
# Titan.Sync.MidPoint — the middle of a key range

`midPoint` of `x/sync/manager.go` adds two keys as numbers in base 256 and halves the sum,
digit by digit. For a range whose start is below its end the result is strictly inside, or
it is one of the two bounds and the range is too small (`midPoint_spec`).
-/

namespace Titan.Sync

open Lib
open Database (Byte Bytes)

/-! ## The code -/

/-- Carry one over to the digits before, the last one first. The first digit is not full. -/
def carry : Bytes → Bytes
  | [] => []
  | [d] => [d + 1]
  | d :: d' :: ds => if d = 255 then 0 :: carry (d' :: ds) else (d + 1) :: d' :: ds

/-- One round of the loop: the digits so far, the last one first, and what is left over. -/
def midStep (acc : Bytes × ℕ) (startVal endVal : Byte) : Bytes × ℕ :=
  let total := startVal.val + endVal.val + acc.2
  -- the half that is lost is recorded for the next digit
  let leftover := if total % 2 = 1 then 256 else 0
  let total := total / 2
  if 256 ≤ total then (Fin.ofNat 256 (total - 256) :: carry acc.1, leftover)
  else (Fin.ofNat 256 total :: acc.1, leftover)

/-- The number of digits. A start that ends in 255 needs one more below such an end. -/
def midLength (start stop : Bytes) : ℕ :=
  let length := max stop.length start.length
  if start.getLast? = some 255 ∧ (stop.length = 0 ∨ stop.getLast? = some 255) then length + 1 else length

def midPoint (startMaybe endMaybe : Option Bytes) : Option Bytes :=
  let start := startMaybe.getD []
  let stop := endMaybe.getD []
  if max stop.length start.length = 0 then
    if endMaybe.isNone then some [127] else none
  else
    let acc := (List.range (midLength start stop)).foldl (fun acc i =>
      midStep acc (start.getD i 0) (stop.getD i (if endMaybe.isNone then 255 else 0))) ([], 0)
    if 0 < acc.2 then some (acc.1.reverse ++ [127]) else some acc.1.reverse

/-! ## Numbers -/

/-- The number that bytes spell, the first one most significant. -/
def number : Bytes → ℕ
  | [] => 0
  | d :: ds => d.val * 256 ^ ds.length + number ds

theorem number_lt (ds : Bytes) : number ds < 256 ^ ds.length := by
  induction ds with
  | nil => exact Nat.one_pos
  | cons d ds ih =>
    have hd : (d.val + 1) * 256 ^ ds.length ≤ 256 * 256 ^ ds.length := Nat.mul_le_mul_right _ d.isLt
    rw [number, List.length_cons, Nat.pow_succ, Nat.mul_comm (256 ^ ds.length)]
    linarith

theorem number_append_singleton (ds : Bytes) (d : Byte) : number (ds ++ [d]) = 256 * number ds + d.val := by
  induction ds with
  | nil => simp [number]
  | cons c ds ih =>
    rw [List.cons_append, number, ih, number, List.length_append, List.length_singleton, Nat.pow_succ]
    ring

theorem number_reverse_cons (d : Byte) (ds : Bytes) :
    number (d :: ds).reverse = 256 * number ds.reverse + d.val := by
  rw [List.reverse_cons, number_append_singleton]

variable {u v : Bytes}

section

variable (hlength : u.length = v.length)
include hlength

/-- The first digit decides. -/
theorem number_cons_lt {d c : Byte} (h : d < c) :
    number (d :: u) < number (c :: v) := by
  have hdigit : (d.val + 1) * 256 ^ v.length ≤ c.val * 256 ^ v.length :=
    Nat.mul_le_mul_right _ (Fin.lt_def.mp h)
  have hu := number_lt u
  rw [hlength] at hu
  rw [number, number, hlength]
  linarith

/-- Among keys of one length the order of keys is the one of numbers. -/
theorem number_strictMono (h : u < v) : number u < number v := by
  induction u generalizing v with
  | nil =>
    rw [List.length_eq_zero_iff.mp hlength.symm] at h
    exact absurd h (lt_irrefl _)
  | cons d u ih =>
    rcases v with _ | ⟨c, v⟩
    · cases hlength
    · have hlength' : u.length = v.length := Nat.succ.inj hlength
      rcases List.cons_lt_cons_iff.mp h with hlt | ⟨rfl, hlt⟩
      · exact number_cons_lt hlength' hlt
      · have hrest := ih hlength' hlt
        rw [number, number, hlength']
        omega

theorem lt_of_number_lt (h : number u < number v) : u < v := by
  rcases lt_trichotomy u v with hlt | rfl | hgt
  · exact hlt
  · exact absurd h (lt_irrefl _)
  · exact absurd h (lt_asymm (number_strictMono hlength.symm hgt))

theorem number_injective (h : number u = number v) : u = v := by
  rcases lt_trichotomy u v with hlt | heq | hgt
  · exact absurd h (ne_of_lt (number_strictMono hlength hlt))
  · exact heq
  · exact absurd h (ne_of_gt (number_strictMono hlength.symm hgt))

end

/-! ## Padded keys -/

/-- The digits that the loop reads. -/
def padded (ds : Bytes) (c : Byte) (n : ℕ) : Bytes := (List.range n).map fun i => ds.getD i c

theorem length_padded (ds : Bytes) (c : Byte) (n : ℕ) : (padded ds c n).length = n := by
  rw [padded, List.length_map, List.length_range]

theorem padded_succ (ds : Bytes) (c : Byte) (n : ℕ) : padded ds c (n + 1) = padded ds c n ++ [ds.getD n c] := by
  unfold padded
  rw [List.range_succ, List.map_append, List.map_singleton]

variable {n : ℕ}

theorem padded_eq (ds : Bytes) (c : Byte) (hn : ds.length ≤ n) :
    padded ds c n = ds ++ List.replicate (n - ds.length) c := by
  unfold padded
  refine List.ext_getElem ?_ fun i hi hi' => ?_
  · rw [List.length_map, List.length_range, List.length_append, List.length_replicate]
    omega
  · rw [List.getElem_map, List.getElem_range, List.getElem_append]
    split
    next hlt => rw [List.getD_eq_getElem _ _ hlt]
    next hge => rw [List.getElem_replicate, List.getD_eq_default _ _ (by omega)]

theorem not_lt_zeros (hlength : u.length = n) : ¬ u < List.replicate n 0 := by
  induction n generalizing u with
  | zero =>
    rw [List.length_eq_zero_iff.mp hlength]
    exact lt_irrefl _
  | succ n ih =>
    rcases u with _ | ⟨d, u⟩
    · exact absurd hlength.symm (Nat.succ_ne_zero _)
    · rw [List.replicate_succ, List.cons_lt_cons_iff]
      rintro (hlt | ⟨-, hlt⟩)
      · cases hlt
      · exact ih (Nat.succ.inj hlength) hlt

/-- What is below a key padded with zeros, as long as it is, is below the key. -/
theorem append_lt_of_lt_padded (w : Bytes)
    (hlength : u.length = (v ++ List.replicate n (0 : Byte)).length)
    (h : u < v ++ List.replicate n 0) : u ++ w < v := by
  induction v generalizing u with
  | nil =>
    rw [List.nil_append] at h hlength
    rw [List.length_replicate] at hlength
    exact absurd h (not_lt_zeros hlength)
  | cons c v ih =>
    rcases u with _ | ⟨d, u⟩
    · exact absurd hlength.symm (Nat.succ_ne_zero _)
    · rw [List.cons_append, List.cons_lt_cons_iff] at h
      rw [List.cons_append, List.cons_lt_cons_iff]
      rcases h with hlt | ⟨rfl, hlt⟩
      · exact .inl hlt
      · exact .inr ⟨rfl, ih (Nat.succ.inj hlength) hlt⟩

theorem le_append (u w : Bytes) : u ≤ u ++ w := not_lt.mp List.le_append_left

/-! ## The loop -/

theorem length_carry (ds : Bytes) : (carry ds).length = ds.length := by
  fun_induction carry ds with
  | case1 => rfl
  | case2 => rfl
  | case3 d ds ih =>
    rw [List.length_cons, ih]
    rfl
  | case4 => rfl

/-- A digit that is not full can grow. -/
theorem val_succ {d : Byte} (h : d.val + 1 < 256) : (d + 1).val = d.val + 1 := by
  exact Nat.mod_eq_of_lt h

theorem number_carry (ds : Bytes) (h : number ds.reverse + 1 < 256 ^ ds.length) :
    number (carry ds).reverse = number ds.reverse + 1 := by
  fun_induction carry ds with
  | case1 => exact absurd h (by decide)
  | case2 d =>
    rw [number_reverse_cons, number_reverse_cons, val_succ (by simpa [number] using h), Nat.add_assoc]
  | case3 d ds ih =>
    rw [number_reverse_cons, List.length_cons, Nat.pow_succ] at h
    rw [number_reverse_cons, ih ?_, number_reverse_cons 255]
    · omega
    · omega
  | case4 d d' ds hne =>
    have hd : d.val + 1 < 256 := by
      have hne' : d.val ≠ 255 := fun heq => hne (Fin.ext heq)
      omega
    rw [number_reverse_cons (d + 1), number_reverse_cons d, val_succ hd, Nat.add_assoc]

/-- The sum of two keys as the digits so far and what is left over say. -/
structure Halved (acc : Bytes × ℕ) (n s : ℕ) : Prop where
  length : acc.1.length = n
  leftover : acc.2 = 0 ∨ acc.2 = 256
  sum : 2 * number acc.1.reverse + acc.2 / 256 = s

theorem Halved.step {acc : Bytes × ℕ} {s : ℕ} (h : Halved acc n s) (hs : s + 2 ≤ 2 * 256 ^ n)
    (d c : Byte) : Halved (midStep acc d c) (n + 1) (256 * s + d.val + c.val) := by
  have hsum := h.sum
  have hleftover : ∀ total : ℕ, (if total % 2 = 1 then 256 else 0) / 256 = total % 2 := by
    intro total
    split
    · omega
    · omega
  unfold midStep
  dsimp only
  split
  next hcarry =>
    -- a half was left over, so there is room for the carry
    have heq : acc.2 = 256 := by
      rcases h.leftover with heq | heq
      · omega
      · exact heq
    have hroom : number acc.1.reverse + 1 < 256 ^ acc.1.length := by
      rw [h.length]
      omega
    refine ⟨?_, (ite_eq_or_eq _ _ _).symm, ?_⟩
    · rw [List.length_cons, length_carry, h.length]
    · rw [number_reverse_cons, number_carry _ hroom, hleftover, Fin.val_ofNat]
      omega
  next hfits =>
    refine ⟨?_, (ite_eq_or_eq _ _ _).symm, ?_⟩
    · rw [List.length_cons, h.length]
    · rw [number_reverse_cons, hleftover, Fin.val_ofNat]
      rcases h.leftover with heq | heq
      · omega
      · omega

/-- What the loop computes of two padded keys. -/
theorem halved_loop (s t : Bytes) (c : Byte) (n : ℕ) :
    Halved ((List.range n).foldl (fun acc i => midStep acc (s.getD i 0) (t.getD i c)) ([], 0)) n
      (number (padded s 0 n) + number (padded t c n)) := by
  induction n with
  | zero => exact ⟨rfl, .inl rfl, by simp [padded, number]⟩
  | succ n ih =>
    have hs := number_lt (padded s 0 n)
    have ht := number_lt (padded t c n)
    rw [length_padded] at hs ht
    have hstep := ih.step (by omega) (s.getD n 0) (t.getD n c)
    rw [List.range_succ, List.foldl_append, List.foldl_cons, List.foldl_nil, padded_succ, padded_succ,
      number_append_singleton, number_append_singleton]
    convert hstep using 1
    ring

/-! ## The middle -/

/-- The key `s` is not above the middle of padded keys. -/
theorem le_mid {s m w : Bytes} (hn : s.length ≤ n) (hm : m.length = n)
    (h : number (padded s 0 n) ≤ number m) : s ≤ m ++ w := by
  have hpadded : padded s 0 n ≤ m := by
    rcases h.lt_or_eq with hlt | heq
    · exact le_of_lt (lt_of_number_lt (by rw [length_padded, hm]) hlt)
    · rw [number_injective (by rw [length_padded, hm]) heq]
  rw [padded_eq s 0 hn] at hpadded
  exact (le_append s _).trans (hpadded.trans (le_append m w))

/-- The middle of padded keys is below the key `t`. -/
theorem mid_lt {t m : Bytes} (w : Bytes) (hn : t.length ≤ n) (hm : m.length = n)
    (h : number m < number (padded t 0 n)) : m ++ w < t := by
  have hlt := lt_of_number_lt (by rw [length_padded, hm]) h
  rw [padded_eq t 0 hn] at hlt
  refine append_lt_of_lt_padded w ?_ hlt
  rw [List.length_append, List.length_replicate, hm]
  omega

theorem number_padded_le {s t : Bytes} (hs : s.length ≤ n) (ht : t.length ≤ n) (h : s ≤ t) :
    number (padded s 0 n) ≤ number (padded t 0 n) := by
  by_contra hlt
  have hbelow := mid_lt [] hs (length_padded t 0 n) (not_le.mp hlt)
  rw [List.append_nil, padded_eq t 0 ht] at hbelow
  exact absurd ((le_append t _).trans_lt hbelow) (not_lt.mpr h)

/-- The length is enough for both keys. -/
theorem le_midLength (s t : Bytes) : s.length ≤ midLength s t ∧ t.length ≤ midLength s t := by
  unfold midLength
  dsimp only
  split
  · omega
  · omega

/-- Keys that are equal up to padding: the middle is as long as the greater one. -/
theorem midLength_of_padded_eq {s t : Bytes} (hlt : s < t)
    (h : padded s 0 (midLength s t) = padded t 0 (midLength s t)) : midLength s t = t.length := by
  have hle := le_midLength s t
  rw [padded_eq s 0 hle.1, padded_eq t 0 hle.2] at h
  have hlength : s.length < t.length := by
    by_contra hge
    -- then the greater key is the first part of the other one
    have htake := congrArg (List.take s.length) h
    rw [List.take_left', List.take_append, List.take_of_length_le (by omega)] at htake
    · exact absurd (htake ▸ le_append t _) (not_le.mpr hlt)
    · rfl
  have ht : t = s ++ List.replicate (t.length - s.length) 0 := by
    have htake := congrArg (List.take t.length) h
    rw [List.take_left' rfl, List.take_append, List.take_of_length_le (by omega), List.take_replicate] at htake
    rw [← htake]
    congr 2
    rw [List.length_append, List.length_replicate]
    omega
  have hlast : t.getLast? = some 0 := by
    rw [ht, List.getLast?_append, List.getLast?_replicate, if_neg (by omega)]
    rfl
  unfold midLength
  rw [if_neg]
  · omega
  · rintro ⟨-, hzero | hfull⟩
    · omega
    · rw [hlast] at hfull
      exact absurd (Option.some.inj hfull) (by decide)

/-- The greatest number with some digits. -/
theorem number_full (n : ℕ) : number (List.replicate n (255 : Byte)) + 1 = 256 ^ n := by
  induction n with
  | zero => rfl
  | succ n ih =>
    rw [List.replicate_succ, number, List.length_replicate, Nat.add_assoc, ih, Nat.pow_succ]
    omega

/-- The middle of a range is strictly inside, or it is one of its bounds. -/
theorem midPoint_spec {r : KeyRange Bytes} (hr : r.Proper) :
    midPoint r.start r.stop = r.start ∨ midPoint r.start r.stop = r.stop ∨
      ∃ m, midPoint r.start r.stop = some m ∧ r.Inside m := by
  rcases r with ⟨a, b⟩
  unfold midPoint
  by_cases hzero : max (b.getD []).length (a.getD []).length = 0
  · rw [if_pos hzero]
    have hs : a.getD [] = [] := List.length_eq_zero_iff.mp (by omega)
    have ht : b.getD [] = [] := List.length_eq_zero_iff.mp (by omega)
    rcases b with _ | t
    · right
      right
      refine ⟨[127], rfl, fun x hx => ?_, nofun⟩
      cases hx
      rw [Option.getD_some] at hs
      rw [hs]
      exact List.nil_lt_cons _ _
    · left
      rcases a with _ | s
      · rfl
      · exfalso
        rw [Option.getD_some] at hs ht
        have := hr s t rfl rfl
        rw [hs, ht] at this
        exact lt_irrefl _ this
  · rw [if_neg hzero]
    have hlength := le_midLength (a.getD []) (b.getD [])
    have hhalved := halved_loop (a.getD []) (b.getD []) (if b.isNone then 255 else 0)
      (midLength (a.getD []) (b.getD []))
    set acc := (List.range (midLength (a.getD []) (b.getD []))).foldl (fun acc i =>
      midStep acc ((a.getD []).getD i 0) ((b.getD []).getD i (if b.isNone then 255 else 0))) ([], 0)
    have hmid : acc.1.reverse.length = midLength (a.getD []) (b.getD []) := by
      rw [List.length_reverse, hhalved.length]
    have hsum := hhalved.sum
    have hhalf : acc.2 / 256 ≤ 1 := by
      rcases hhalved.leftover with heq | heq
      · rw [heq]
        exact Nat.zero_le 1
      · rw [heq]
    -- the digits of the middle and what follows them
    set w : Bytes := if 0 < acc.2 then [127] else [] with hw
    have hresult : (if 0 < acc.2 then some (acc.1.reverse ++ [127]) else some acc.1.reverse) =
        some (acc.1.reverse ++ w) := by
      rw [hw]
      split
      · rfl
      · rw [List.append_nil]
    rw [hresult]
    have hlower : number (padded (a.getD []) 0 (midLength (a.getD []) (b.getD []))) ≤ number acc.1.reverse →
        a = some (acc.1.reverse ++ w) ∨ ∀ x, a = some x → x < acc.1.reverse ++ w := by
      intro hle
      have hstart := le_mid (w := w) hlength.1 hmid hle
      rcases a with _ | x
      · exact .inr nofun
      · rcases hstart.lt_or_eq with hlt | heq
        · exact .inr fun y hy => Option.some.inj hy ▸ hlt
        · exact .inl (congrArg some heq)
    rcases b with _ | t
    · -- the end is all 255s, and no bound
      rw [Option.getD_none, Option.isNone_none, if_pos rfl, padded_eq [] 255 (Nat.zero_le _)] at hsum
      have hfull := number_full (midLength (a.getD []) [])
      have hs := number_lt (padded (a.getD []) 0 (midLength (a.getD []) []))
      rw [length_padded] at hs
      rw [List.nil_append, List.length_nil, Nat.sub_zero] at hsum
      rcases hlower (by rw [Option.getD_none]; omega) with heq | hlt
      · exact .inl heq.symm
      · exact .inr (.inr ⟨_, rfl, hlt, nofun⟩)
    · rw [Option.getD_some] at hsum hzero hlength hmid hlower
      rw [Option.isNone_some, if_neg Bool.false_ne_true] at hsum
      have hstart : a.getD [] < t := by
        rcases a with _ | x
        · rcases t with _ | ⟨d, t⟩
          · exact absurd rfl hzero
          · exact List.nil_lt_cons d t
        · exact hr x t rfl rfl
      have hle := number_padded_le hlength.1 hlength.2 (le_of_lt hstart)
      by_cases hbelow : number acc.1.reverse < number (padded t 0 (midLength (a.getD []) t))
      · have hend := mid_lt w hlength.2 hmid hbelow
        rcases hlower (by omega) with heq | hlt
        · exact .inl heq.symm
        · exact .inr (.inr ⟨_, rfl, hlt, fun y hy => Option.some.inj hy ▸ hend⟩)
      · -- the keys are the same numbers, and the middle is the end
        right
        left
        have hzero' : acc.2 / 256 = 0 := by omega
        have hacc : acc.2 = 0 := by
          rcases hhalved.leftover with heq | heq
          · exact heq
          · rw [heq] at hzero'
            exact absurd hzero' (by decide)
        have hnil : w = [] := by rw [hw, hacc, if_neg (lt_irrefl 0)]
        have hsame : padded (a.getD []) 0 (midLength (a.getD []) t) = padded t 0 (midLength (a.getD []) t) :=
          number_injective (by rw [length_padded, length_padded]) (by omega)
        have hmidEq : acc.1.reverse = padded t 0 (midLength (a.getD []) t) :=
          number_injective (by rw [length_padded, hmid]) (by omega)
        rw [hnil, List.append_nil, hmidEq, midLength_of_padded_eq hstart hsame, padded_eq t 0 (le_refl _),
          Nat.sub_self, List.replicate_zero, List.append_nil]

end Titan.Sync
