import Titan.Database.Codec
import Titan.Database.PrefixDB
import Titan.Database.VersionDB
import Titan.Lib.Varint

/-!
# Titan.Database.ArchiveDB — a database that keeps its past

`archivedb` writes every change under a key of its own, made of the user's key and the
height of the change (`x/archivedb`). A reader at some height looks for the first key
from there on: the heights are written so that later ones come first.

The length of a key fits in 64 bits, so that it is written as it is.

Not modelled: `Compact`, `HealthCheck`, `Close` and failures of the database below.
-/

namespace Titan.Database

open Lib

namespace ArchiveDB

inductive ArchiveError
  /-- `database.ErrNotFound`. -/
  | notFound
  /-- `errWrongSize`. -/
  | wrongSize
  | parsingKeyLength
  | incorrectKeyLength
  /-- A slice out of range. -/
  | panicked
deriving DecidableEq, Repr

/-! ## Integers -/

/-- `database.PackUInt64`. -/
def packUInt64 (val : UInt64) : Bytes := (writeBE 8 val.toNat).map UInt8.toFin

/-- `binary.BigEndian.Uint64` of eight bytes. -/
def bigEndianUint64 (b : Bytes) : UInt64 := UInt64.ofNat (((readBE 8 (b.map UInt8.ofFin)).map Prod.fst).getD 0)

/-- `database.ParseUInt64`. -/
def parseUInt64 (b : Bytes) : Except ArchiveError UInt64 :=
  if b.length ≠ 8 then .error .wrongSize else .ok (bigEndianUint64 b)

/-! ## Keys and values -/

/-- The key at a height, and the part of it that does not depend on the height. -/
def newDBKeyFromUser (key : Bytes) (height : UInt64) : Bytes × Bytes :=
  let keyPrefix := (putUvarint key.length).map UInt8.toFin ++ key
  (keyPrefix ++ packUInt64 (~~~height), keyPrefix)

def parseDBKeyFromUser (dbKey : Bytes) : Except ArchiveError (Bytes × UInt64) :=
  match uvarint (dbKey.map UInt8.ofFin) with
  | none => .error .parsingKeyLength
  | some (keyLen, offset) =>
    let heightIndex := (offset + keyLen) % 2 ^ 64
    if dbKey.length ≠ (heightIndex + 8) % 2 ^ 64 then .error .incorrectKeyLength
    else if heightIndex < offset then .error .panicked
    else .ok ((dbKey.take heightIndex).drop offset, ~~~(bigEndianUint64 (dbKey.drop heightIndex)))

def newDBKeyFromMetadata (key : Bytes) : Bytes := (putUvarint (key.length + 1)).map UInt8.toFin ++ key

def heightKey : Bytes := newDBKeyFromMetadata []

def newDBValue (value : Bytes) : Bytes := 0 :: value

def parseDBValue : Bytes → Option Bytes
  | [] => none
  | _ :: value => some value

/-! ## The database -/

/-- `batch`. -/
structure Batch where
  height : UInt64
  ops : List BatchOp
deriving DecidableEq

/-- What is put for an operation at a height. A value that is deleted leaves nothing but its key. -/
def put (height : UInt64) (op : BatchOp) : Bytes × Option Bytes :=
  ((newDBKeyFromUser op.key height).1, some (if op.delete then [] else newDBValue op.value))

/-- The batch that `Write` writes to the database below. -/
def Batch.puts (c : Batch) : List (Bytes × Option Bytes) :=
  c.ops.map (put c.height) ++ [(heightKey, some (packUInt64 c.height))]

section Operations

variable {S : Store Bytes Bytes Range}

def write (db : S.State) (c : Batch) : S.State := S.write db c.puts

/-- `Height`. -/
def lastHeight (db : S.State) : Except ArchiveError UInt64 :=
  match S.get db heightKey with
  | none => .error .notFound
  | some b => parseUInt64 b

/-- `GetEntry` of the reader at a height. -/
def getEntry (db : S.State) (height : UInt64) (key : Bytes) : Except ArchiveError (Bytes × UInt64 × Bool) :=
  let (start, pre) := newDBKeyFromUser key height
  let (next, it) := S.next db (S.newIterator db ⟨start, pre⟩)
  if !next then .error .notFound
  else do
    let (_, height) ← parseDBKeyFromUser (S.key it)
    match parseDBValue (S.value it) with
    | none => return ([], height, false)
    | some value => return (value, height, true)

def get (db : S.State) (height : UInt64) (key : Bytes) : Except ArchiveError Bytes := do
  let (value, _, exist) ← getEntry db height key
  if exist then return value else .error .notFound

def has (db : S.State) (height : UInt64) (key : Bytes) : Except ArchiveError Bool :=
  match get db height key with
  | .error .notFound => .ok false
  | .error e => .error e
  | .ok _ => .ok true

end Operations

/-! ## Keys do not meet -/

theorem length_packUInt64 (val : UInt64) : (packUInt64 val).length = 8 := by
  rw [packUInt64, List.length_map, length_writeBE]

theorem toNat_lt_pow (val : UInt64) : val.toNat < 256 ^ 8 := val.toNat_lt

theorem bigEndianUint64_packUInt64 (val : UInt64) : bigEndianUint64 (packUInt64 val) = val := by
  have hread := reads_writeBE (toNat_lt_pow val) []
  rw [List.append_nil] at hread
  have hbytes : (packUInt64 val).map UInt8.ofFin = writeBE 8 val.toNat := by
    simp [packUInt64, Function.comp_def]
  rw [bigEndianUint64, hbytes, hread]
  simp

theorem parseUInt64_packUInt64 (val : UInt64) : parseUInt64 (packUInt64 val) = .ok val := by
  rw [parseUInt64, if_neg (by rw [length_packUInt64]; simp), bigEndianUint64_packUInt64]

variable {a b : UInt64}

/-- Later heights come first. -/
theorem packUInt64_not_lt : packUInt64 (~~~a) < packUInt64 (~~~b) ↔ b < a := by
  rw [packUInt64, packUInt64, writeBE_map_lt (f := UInt8.toFin) (fun x y => Iff.rfl) (toNat_lt_pow _) (toNat_lt_pow _),
    UInt64.lt_iff_toNat_lt]
  simp only [UInt64.toNat_not, UInt64.size]
  have ha := a.toNat_lt
  omega

theorem newDBKeyFromUser_le {key : Bytes} :
    (newDBKeyFromUser key a).1 ≤ (newDBKeyFromUser key b).1 ↔ b ≤ a := by
  rw [← not_lt, ← UInt64.not_lt, ← packUInt64_not_lt]
  exact not_congr PrefixDB.prefixKey_lt

/-- The length in front of a key, and what follows it, can be told. -/
theorem append_inj_of_putUvarint {a b : ℕ} {s t : Bytes}
    (h : (putUvarint a).map UInt8.toFin ++ s = (putUvarint b).map UInt8.toFin ++ t) : a = b ∧ s = t := by
  have hbytes : ∀ n (rest : Bytes), ((putUvarint n).map UInt8.toFin ++ rest).map UInt8.ofFin =
      putUvarint n ++ rest.map UInt8.ofFin := by
    intro n rest
    simp [Function.comp_def]
  have hmap := congrArg (List.map UInt8.ofFin) h
  rw [hbytes, hbytes] at hmap
  rcases putUvarint_append_inj hmap with ⟨hlength, hrest⟩
  refine ⟨hlength, ?_⟩
  rw [← toFin_ofFin s, ← toFin_ofFin t, hrest]

/-- The part of a key without the height is in front of the keys of the same user's key only. -/
theorem prefix_newDBKeyFromUser {key key' : Bytes} :
    (newDBKeyFromUser key a).2 <+: (newDBKeyFromUser key' b).1 ↔ key = key' := by
  constructor
  · rintro ⟨rest, h⟩
    rw [newDBKeyFromUser, newDBKeyFromUser] at h
    rw [List.append_assoc, List.append_assoc] at h
    rcases append_inj_of_putUvarint h with ⟨hlength, htail⟩
    exact (List.append_inj htail hlength).1
  · intro h
    subst h
    exact List.prefix_append _ _

/-- It is not in front of the key of the height record. -/
theorem not_prefix_heightKey (key : Bytes) (height : UInt64) : ¬ (newDBKeyFromUser key height).2 <+: heightKey := by
  rintro ⟨rest, h⟩
  rw [newDBKeyFromUser, heightKey, newDBKeyFromMetadata] at h
  rw [List.append_assoc] at h
  rcases append_inj_of_putUvarint h with ⟨hlength, htail⟩
  have hnil : key = [] := (List.append_eq_nil_iff.mp htail).1
  rw [hnil] at hlength
  simp at hlength

theorem newDBKeyFromUser_ne_heightKey (key : Bytes) (height : UInt64) : (newDBKeyFromUser key height).1 ≠ heightKey := by
  intro h
  apply not_prefix_heightKey key height
  rw [← h]
  exact prefix_newDBKeyFromUser.mpr rfl

/-- A key of a length that Go has is parsed. -/
theorem parseDBKeyFromUser_newDBKeyFromUser {key : Bytes} (hkey : key.length < 2 ^ 63) (height : UInt64) :
    parseDBKeyFromUser (newDBKeyFromUser key height).1 = .ok (key, height) := by
  have hdbKey : (newDBKeyFromUser key height).1 =
      (putUvarint key.length).map UInt8.toFin ++ key ++ packUInt64 (~~~height) := rfl
  have hbytes : (newDBKeyFromUser key height).1.map UInt8.ofFin =
      putUvarint key.length ++ (key ++ packUInt64 (~~~height)).map UInt8.ofFin := by
    simp [hdbKey, Function.comp_def]
  have hoffset : (putUvarint key.length).length ≤ 10 := by
    apply length_putUvarint_le
    omega
  have hindex : ((putUvarint key.length).map UInt8.toFin ++ key).length =
      (putUvarint key.length).length + key.length := by simp
  have hlength : (newDBKeyFromUser key height).1.length = (putUvarint key.length).length + key.length + 8 := by
    rw [hdbKey, List.length_append, hindex, length_packUInt64]
  rw [parseDBKeyFromUser, hbytes, uvarint_putUvarint (by omega)]
  dsimp only
  rw [Nat.mod_eq_of_lt (by omega), Nat.mod_eq_of_lt (by omega), if_neg (by rw [hlength]; simp), if_neg (by omega),
    hdbKey, ← hindex, List.take_left, List.drop_left, bigEndianUint64_packUInt64, UInt64.not_not]
  simp

end ArchiveDB

end Titan.Database
