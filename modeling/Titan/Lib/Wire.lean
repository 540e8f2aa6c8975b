import Mathlib

/-!
# Titan.Lib.Wire — big-endian integers and counted sequences

A reader takes a value from the front of a byte string and returns the rest.
`Reads read write x` says that `read` gives back what `write` wrote for `x`,
whatever follows; the rules below prove it for fixed-width big-endian integers
and for sequences of things that can be read back.
-/

namespace Titan.Lib

/-- The reader gives back `x` from what the writer put in front of any rest. -/
def Reads {α : Type} (read : List UInt8 → Option (α × List UInt8)) (write : α → List UInt8)
    (x : α) : Prop :=
  ∀ rest, read (write x ++ rest) = some (x, rest)

/-! ## Integers -/

/-- `n` in `width` bytes, most significant first. -/
def writeBE : (width n : ℕ) → List UInt8
  | 0, _ => []
  | width + 1, n => UInt8.ofNat (n / 256 ^ width) :: writeBE width (n % 256 ^ width)

/-- Read `width` bytes, most significant first. -/
def readBE : (width : ℕ) → List UInt8 → Option (ℕ × List UInt8)
  | 0, bytes => some (0, bytes)
  | _ + 1, [] => none
  | width + 1, b :: bytes =>
    (readBE width bytes).map (fun (n, rest) => (b.toNat * 256 ^ width + n, rest))

theorem length_writeBE (width n : ℕ) : (writeBE width n).length = width := by
  induction width generalizing n with
  | zero => rfl
  | succ width ih => rw [writeBE, List.length_cons, ih]

theorem reads_writeBE {width n : ℕ} (h : n < 256 ^ width) :
    Reads (readBE width) (writeBE width) n := by
  induction width generalizing n with
  | zero =>
    intro rest
    have hn : n = 0 := by simpa using h
    rw [hn]
    rfl
  | succ width ih =>
    intro rest
    have hpos : 0 < 256 ^ width := Nat.pow_pos (by decide)
    have hbyte : n / 256 ^ width < 256 := by
      apply Nat.div_lt_of_lt_mul
      rwa [← Nat.pow_succ]
    have htail := ih (Nat.mod_lt n hpos) rest
    show (readBE width (writeBE width (n % 256 ^ width) ++ rest)).map _ = _
    rw [htail]
    simp only [Option.map_some, Option.some.injEq, Prod.mk.injEq, and_true, UInt8.toNat_ofNat',
      Nat.mod_eq_of_lt hbyte]
    exact Nat.div_add_mod' n _

/-! ## Sequences -/

/-- Read a value `count` times. -/
def readMany {α : Type} (read : List UInt8 → Option (α × List UInt8)) :
    (count : ℕ) → List UInt8 → Option (List α × List UInt8)
  | 0, bytes => some ([], bytes)
  | count + 1, bytes =>
    match read bytes with
    | none => none
    | some (x, rest) => (readMany read count rest).map (fun (xs, rest) => (x :: xs, rest))

theorem reads_flatMap {α : Type} {read : List UInt8 → Option (α × List UInt8)}
    {write : α → List UInt8} {xs : List α} (h : ∀ x ∈ xs, Reads read write x) :
    Reads (readMany read xs.length) (fun xs => xs.flatMap write) xs := by
  induction xs with
  | nil => exact fun _ => rfl
  | cons x xs ih =>
    intro rest
    have hx := h x List.mem_cons_self (xs.flatMap write ++ rest)
    have hxs := ih (fun y hy => h y (List.mem_cons_of_mem x hy)) rest
    simp only [List.flatMap_cons, List.length_cons, readMany, List.append_assoc, hx]
    rw [hxs]
    rfl

end Titan.Lib
