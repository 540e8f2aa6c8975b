import Titan.Lib.Wire

/-!
# Titan.Lib.Varint — integers of variable length, and the order of big-endian integers

`putUvarint` and `uvarint` are the functions of `encoding/binary`: seven bits per byte, the
least significant ones first, with a bit that says whether more follow. No encoding is a
prefix of another one (`putUvarint_append_inj`).

Integers of one width in big-endian order compare like their bytes (`writeBE_map_lt`).
-/

namespace Titan.Lib

/-! ## Variable length -/

/-- `binary.PutUvarint`. -/
def putUvarint (x : ℕ) : List UInt8 :=
  if x < 128 then [UInt8.ofNat x] else UInt8.ofNat (x % 128 + 128) :: putUvarint (x / 128)
termination_by x
decreasing_by omega

/-- The loop of `binary.Uvarint` at the byte number `i`, with what was read so far. Ten bytes
are the most that it reads, and the tenth one has a single bit. -/
def uvarintLoop : List UInt8 → (i x : ℕ) → Option (ℕ × ℕ)
  | [], _, _ => none
  | b :: rest, i, x =>
    if i = 10 then none
    else if b.toNat < 128 then
      if i = 9 ∧ 1 < b.toNat then none else some (x + b.toNat * 128 ^ i, i + 1)
    else uvarintLoop rest (i + 1) (x + b.toNat % 128 * 128 ^ i)

/-- `binary.Uvarint`: the integer and the number of its bytes, or nothing where the number that
Go returns is not positive. -/
def uvarint (bytes : List UInt8) : Option (ℕ × ℕ) := uvarintLoop bytes 0 0

theorem putUvarint_of_lt {x : ℕ} (h : x < 128) : putUvarint x = [UInt8.ofNat x] := by
  rw [putUvarint, if_pos h]

theorem putUvarint_of_ge {x : ℕ} (h : ¬ x < 128) :
    putUvarint x = UInt8.ofNat (x % 128 + 128) :: putUvarint (x / 128) := by
  rw [putUvarint, if_neg h]

theorem toNat_ofNat_of_lt {x : ℕ} (h : x < 256) : (UInt8.ofNat x).toNat = x := by
  rw [UInt8.toNat_ofNat', Nat.mod_eq_of_lt h]

/-- From what follows an encoding, and the encoding, both can be told. -/
theorem putUvarint_append_inj {a b : ℕ} {s t : List UInt8} (h : putUvarint a ++ s = putUvarint b ++ t) :
    a = b ∧ s = t := by
  induction a using Nat.strongRecOn generalizing b with
  | ind a ih =>
    by_cases ha : a < 128
    · by_cases hb : b < 128
      · rw [putUvarint_of_lt ha, putUvarint_of_lt hb] at h
        rcases List.cons.inj h with ⟨hbyte, hrest⟩
        have hnat := congrArg UInt8.toNat hbyte
        rw [toNat_ofNat_of_lt (by omega), toNat_ofNat_of_lt (by omega)] at hnat
        exact ⟨hnat, hrest⟩
      · rw [putUvarint_of_lt ha, putUvarint_of_ge hb] at h
        have hnat := congrArg UInt8.toNat (List.cons.inj h).1
        rw [toNat_ofNat_of_lt (by omega), toNat_ofNat_of_lt (by omega)] at hnat
        omega
    · by_cases hb : b < 128
      · rw [putUvarint_of_ge ha, putUvarint_of_lt hb] at h
        have hnat := congrArg UInt8.toNat (List.cons.inj h).1
        rw [toNat_ofNat_of_lt (by omega), toNat_ofNat_of_lt (by omega)] at hnat
        omega
      · rw [putUvarint_of_ge ha, putUvarint_of_ge hb] at h
        rcases List.cons.inj h with ⟨hbyte, hrest⟩
        have hnat := congrArg UInt8.toNat hbyte
        rw [toNat_ofNat_of_lt (by omega), toNat_ofNat_of_lt (by omega)] at hnat
        rcases ih (a / 128) (by omega) hrest with ⟨hdiv, hst⟩
        exact ⟨by omega, hst⟩

/-- The loop reads back the digits from place `i` on, while the whole has 64 bits. -/
theorem uvarintLoop_putUvarint {a i : ℕ} (x : ℕ) (rest : List UInt8) (hi : i < 10) (h : a * 128 ^ i < 2 ^ 64) :
    uvarintLoop (putUvarint a ++ rest) i x = some (x + a * 128 ^ i, i + (putUvarint a).length) := by
  induction a using Nat.strongRecOn generalizing i x with
  | ind a ih =>
    by_cases ha : a < 128
    · have hlast : ¬ (i = 9 ∧ 1 < a) := by
        rintro ⟨rfl, hlt⟩
        omega
      rw [putUvarint_of_lt ha, List.singleton_append, uvarintLoop, toNat_ofNat_of_lt (by omega),
        if_neg (by omega), if_pos ha, if_neg hlast]
      rfl
    · have hdigits : 128 ^ (i + 1) ≤ a * 128 ^ i := by
        rw [Nat.pow_succ, Nat.mul_comm]
        exact Nat.mul_le_mul_right _ (by omega)
      have hi' : i + 1 < 10 := by
        by_contra hge
        have : 128 ^ 10 ≤ 128 ^ (i + 1) := Nat.pow_le_pow_right (by decide) (by omega)
        omega
      have hsplit : a * 128 ^ i = a % 128 * 128 ^ i + a / 128 * 128 ^ (i + 1) := by
        rw [Nat.pow_succ, Nat.mul_comm (128 ^ i), ← Nat.mul_assoc, ← Nat.add_mul]
        congr 1
        omega
      rw [putUvarint_of_ge ha, List.cons_append, uvarintLoop, toNat_ofNat_of_lt (by omega),
        if_neg (by omega), if_neg (by omega), ih (a / 128) (by omega) _ hi' (by omega), List.length_cons]
      have hdigit : (a % 128 + 128) % 128 = a % 128 := by omega
      rw [hdigit, hsplit, Nat.add_assoc, Nat.add_assoc, Nat.add_comm 1]

theorem uvarint_putUvarint {a : ℕ} (h : a < 2 ^ 64) (rest : List UInt8) :
    uvarint (putUvarint a ++ rest) = some (a, (putUvarint a).length) := by
  unfold uvarint
  rw [uvarintLoop_putUvarint 0 rest (by decide) (by omega)]
  simp

theorem length_putUvarint_le {a width : ℕ} (h : a < 128 ^ (width + 1)) : (putUvarint a).length ≤ width + 1 := by
  induction width generalizing a with
  | zero =>
    rw [putUvarint_of_lt (by simpa using h)]
    simp
  | succ width ih =>
    by_cases ha : a < 128
    · rw [putUvarint_of_lt ha]
      simp
    · have hdiv : a / 128 < 128 ^ (width + 1) := by
        apply Nat.div_lt_of_lt_mul
        rwa [Nat.mul_comm, ← Nat.pow_succ]
      rw [putUvarint_of_ge ha, List.length_cons]
      have := ih hdiv
      omega

/-! ## Order -/

/-- Big-endian integers of one width compare like their bytes. -/
theorem writeBE_map_lt {α : Type} [LinearOrder α] {f : UInt8 → α} (hf : ∀ x y, f x < f y ↔ x.toNat < y.toNat)
    {width a b : ℕ} (ha : a < 256 ^ width) (hb : b < 256 ^ width) :
    (writeBE width a).map f < (writeBE width b).map f ↔ a < b := by
  induction width generalizing a b with
  | zero =>
    have : ¬ a < b := by simp at ha hb; omega
    simp [writeBE, this]
  | succ width ih =>
    have hpos : 0 < 256 ^ width := Nat.pow_pos (by decide)
    have hbyte : ∀ {n}, n < 256 ^ (width + 1) → (UInt8.ofNat (n / 256 ^ width)).toNat = n / 256 ^ width := by
      intro n hn
      apply toNat_ofNat_of_lt
      apply Nat.div_lt_of_lt_mul
      rwa [← Nat.pow_succ]
    have heq : ∀ x y, f x = f y ↔ x.toNat = y.toNat := by
      intro x y
      have hxy := hf x y
      have hyx := hf y x
      constructor
      · intro h
        rw [h] at hxy hyx
        simp only [lt_irrefl, false_iff] at hxy hyx
        omega
      · intro h
        rw [UInt8.toNat_inj.mp h]
    rw [writeBE, writeBE, List.map_cons, List.map_cons, List.cons_lt_cons_iff, hf, heq, hbyte ha, hbyte hb,
      ih (Nat.mod_lt _ hpos) (Nat.mod_lt _ hpos)]
    -- The most significant digits decide, and the others if they are equal.
    have hda := Nat.div_add_mod a (256 ^ width)
    have hdb := Nat.div_add_mod b (256 ^ width)
    constructor
    · rintro (hlt | ⟨hdiv, hlt⟩)
      · exact Nat.lt_of_div_lt_div hlt
      · rw [hdiv] at hda
        omega
    · intro hlt
      rcases (Nat.div_le_div_right hlt.le : a / 256 ^ width ≤ b / 256 ^ width).lt_or_eq with h | h
      · exact .inl h
      · rw [h] at hda
        exact .inr ⟨h, by omega⟩

end Titan.Lib
