import Titan.Database.MemDB
import Titan.Lib.Wire

/-!
# Titan.Database.Codec — records as bytes

`linearcodec` writes the fields of a record one after the other, after the two bytes of the
codec's version. Slices have their length in front (`codec/reflectcodec/type_codec.go`,
`utils/wrappers/packing.go`, `codec/manager.go`).

A `Packing` is how one record is written and read back; `Packing.unmarshal_marshal` says
that what was marshalled is unmarshalled. The codec fails on slices that are too long and
on records larger than the manager allows.
-/

namespace Titan.Database

open Lib

/-- What a database or a codec returns instead of a value. -/
inductive DBError
  /-- `database.ErrNotFound`. -/
  | notFound
  /-- A value could not be marshalled or unmarshalled. -/
  | codec
  /-- The database below failed. -/
  | failed
deriving DecidableEq, Repr

/-- `math.MaxInt32`. -/
def maxInt32 : ℕ := 2 ^ 31 - 1

/-! ## Fields -/

def packBool (b : Bool) : List UInt8 := [if b then 1 else 0]

def unpackBool : List UInt8 → Option (Bool × List UInt8)
  | [] => none
  | b :: rest => if b = 0 then some (false, rest) else if b = 1 then some (true, rest) else none

def packBytes (bytes : Bytes) : List UInt8 := writeBE 4 bytes.length ++ bytes.map UInt8.ofFin

def unpackBytes (s : List UInt8) : Option (Bytes × List UInt8) :=
  match readBE 4 s with
  | none => none
  | some (numElts, rest) =>
    if maxInt32 < numElts then none
    else if rest.length < numElts then none
    else some ((rest.take numElts).map UInt8.toFin, rest.drop numElts)

def packSlices (slices : List Bytes) : List UInt8 := writeBE 4 slices.length ++ slices.flatMap packBytes

def unpackSlices (s : List UInt8) : Option (List Bytes × List UInt8) :=
  match readBE 4 s with
  | none => none
  | some (numElts, rest) => if maxInt32 < numElts then none else readMany unpackBytes numElts rest

theorem reads_packBool (b : Bool) : Reads unpackBool packBool b := by
  intro rest
  cases b <;> rfl

/-- A length that the codec accepts is read back. -/
theorem reads_length {n : ℕ} (h : n ≤ maxInt32) : Reads (readBE 4) (writeBE 4) n :=
  reads_writeBE (lt_of_le_of_lt h (by decide))

theorem toFin_ofFin (bytes : Bytes) : (bytes.map UInt8.ofFin).map UInt8.toFin = bytes := by
  rw [List.map_map]
  exact List.map_id bytes

theorem reads_packBytes {bytes : Bytes} (h : bytes.length ≤ maxInt32) : Reads unpackBytes packBytes bytes := by
  intro rest
  unfold unpackBytes packBytes
  rw [List.append_assoc, reads_length h]
  have hlength : (bytes.map UInt8.ofFin).length = bytes.length := List.length_map _
  have hle : ¬ (bytes.map UInt8.ofFin ++ rest).length < bytes.length := by
    rw [List.length_append, hlength]
    omega
  simp only [if_neg (not_lt_of_ge h), if_neg hle]
  rw [← hlength, List.take_left, List.drop_left, toFin_ofFin]

theorem reads_packSlices {slices : List Bytes} (h : slices.length ≤ maxInt32)
    (hslices : ∀ bytes ∈ slices, bytes.length ≤ maxInt32) : Reads unpackSlices packSlices slices := by
  intro rest
  unfold unpackSlices packSlices
  rw [List.append_assoc, reads_length h]
  simp only [if_neg (not_lt_of_ge h)]
  exact reads_flatMap (fun bytes hbytes => reads_packBytes (hslices bytes hbytes)) rest

/-! ## Records -/

/-- How the fields of a record are written and read back. -/
structure Packing (α : Type) where
  /-- The lengths of the record's slices are within what the codec accepts. -/
  fits : α → Bool
  pack : α → List UInt8
  unpack : List UInt8 → Option (α × List UInt8)
  reads : ∀ x, fits x → Reads unpack pack x

/-- `CodecVersion` is 0. -/
def codecVersion : List UInt8 := writeBE 2 0

namespace Packing

variable {α : Type} (c : Packing α)

/-- `Marshal` of a manager that allows `maxSize` bytes. -/
def marshal (maxSize : ℕ) (x : α) : Except DBError Bytes :=
  if c.fits x && (codecVersion ++ c.pack x).length ≤ maxSize then
    .ok ((codecVersion ++ c.pack x).map UInt8.toFin)
  else .error .codec

/-- `Unmarshal`. -/
def unmarshal (maxSize : ℕ) (bytes : Bytes) : Except DBError α :=
  if maxSize < bytes.length then .error .codec
  else match readBE 2 (bytes.map UInt8.ofFin) with
    | some (0, rest) =>
      match c.unpack rest with
      | some (x, []) => .ok x
      | _ => .error .codec
    | _ => .error .codec

theorem unmarshal_marshal {maxSize : ℕ} {x : α} {bytes : Bytes} (h : c.marshal maxSize x = .ok bytes) :
    c.unmarshal maxSize bytes = .ok x := by
  unfold marshal at h
  split at h
  next hfits =>
    rw [Bool.and_eq_true, decide_eq_true_eq] at hfits
    cases h
    have hback : ((codecVersion ++ c.pack x).map UInt8.toFin).map UInt8.ofFin = codecVersion ++ c.pack x := by
      rw [List.map_map]
      exact List.map_id _
    unfold unmarshal
    rw [List.length_map, if_neg (not_lt_of_ge hfits.2), hback]
    have hversion : readBE 2 (codecVersion ++ c.pack x) = some (0, c.pack x) :=
      reads_writeBE (by decide) (c.pack x)
    have hunpack := c.reads x hfits.1 []
    rw [List.append_nil] at hunpack
    rw [hversion]
    simp only [hunpack]
  next => cases h

/-- The codec never says that something is not there. -/
theorem unmarshal_ne_notFound (maxSize : ℕ) (bytes : Bytes) : c.unmarshal maxSize bytes ≠ .error .notFound := by
  intro h
  unfold unmarshal at h
  split at h
  · cases h
  · split at h
    · split at h <;> cases h
    · cases h

end Packing

end Titan.Database
