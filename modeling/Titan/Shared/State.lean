import Titan.Database.LinkedDB
import Titan.Database.PrefixDB
import Titan.Database.VersionDB

/-!
# Titan.Shared.State — elements and their index

A direction of the memory that two chains share is kept in two databases: the elements by
their keys, and for each trait the list of the keys that have it
(`chains/atomic/state.go`). An element that is removed before it was put leaves a marker,
and the put that comes later cancels with it.

The databases are parts of a `versiondb`, given by their prefixes. Reads of the database
below may fail.
-/

namespace Titan.Shared

open Lib Database

/-- `dbElement`. An element that is not present was removed before it was put. -/
structure DBElement where
  present : Bool
  value : Bytes
  traits : List Bytes
deriving DecidableEq, Repr

structure Element where
  key : Bytes
  value : Bytes
  traits : List Bytes
deriving DecidableEq, Repr

inductive StateError
  | db (e : DBError)
  | duplicatePut (key value : Bytes)
  | duplicateRemove (key : Bytes)
deriving DecidableEq, Repr

/-- An error of a database is passed on. -/
def passOn {α : Type} (x : Except DBError α) : Except StateError α := x.mapError .db

/-! ## The codec -/

namespace DBElement

def fits (e : DBElement) : Bool :=
  e.value.length ≤ maxInt32 && (e.traits.length ≤ maxInt32 && e.traits.all fun trait => trait.length ≤ maxInt32)

def pack (e : DBElement) : List UInt8 := packBool e.present ++ (packBytes e.value ++ packSlices e.traits)

def unpack (s : List UInt8) : Option (DBElement × List UInt8) := do
  let (present, s) ← unpackBool s
  let (value, s) ← unpackBytes s
  let (traits, s) ← unpackSlices s
  some (⟨present, value, traits⟩, s)

theorem reads_pack (e : DBElement) (h : e.fits) : Reads unpack pack e := by
  intro rest
  rw [fits, Bool.and_eq_true, Bool.and_eq_true, decide_eq_true_eq, decide_eq_true_eq, List.all_eq_true] at h
  rcases h with ⟨hvalue, hlength, htraits⟩
  have htraits' : ∀ trait ∈ e.traits, trait.length ≤ maxInt32 := fun trait htrait =>
    of_decide_eq_true (htraits trait htrait)
  unfold unpack pack
  simp only [Option.bind_eq_bind]
  rw [List.append_assoc, reads_packBool, Option.bind_some, List.append_assoc, reads_packBytes hvalue,
    Option.bind_some, reads_packSlices hlength htraits', Option.bind_some]

def packing : Packing DBElement := ⟨fits, pack, unpack, reads_pack⟩

/-- The manager of the package allows `math.MaxInt` bytes. -/
def marshal (e : DBElement) : Except DBError Bytes := packing.marshal (2 ^ 63 - 1) e

def unmarshal (bytes : Bytes) : Except DBError DBElement := packing.unmarshal (2 ^ 63 - 1) bytes

end DBElement

/-! ## Reads -/

/-- `state`, by the prefixes of its databases. -/
structure State where
  valueDB : Bytes
  indexDB : Bytes
deriving DecidableEq, Repr

/-- Reads of a part of a database. -/
def partOf (pre : Bytes) (read : Reader) : Reader := fun key => read (PrefixDB.prefixKey pre key)

namespace State

def loadValue (s : State) (read : Reader) (key : Bytes) : Except DBError DBElement := do
  let valueBytes ← partOf s.valueDB read key
  DBElement.unmarshal valueBytes

/-- `Value`. -/
def value (s : State) (read : Reader) (key : Bytes) : Except DBError Element := do
  let value ← s.loadValue read key
  if !value.present then .error .notFound else .ok ⟨key, value.value, value.traits⟩

/-- The prefix of a trait's list. -/
def traitDB (s : State) (hash : Hash256) (trait : Bytes) : Bytes := PrefixDB.joinPrefixes hash s.indexDB trait

end State

/-- What `getKeys` has found. -/
structure Page where
  keys : List Bytes
  keySet : List Bytes
  limit : ℤ
  lastKey : Bytes
deriving DecidableEq, Repr

/-- The loop of `appendTraitKeys`. -/
def appendTraitKeys (hash : Hash256) (read : Reader) : ℕ → LinkedDB.Iterator → Page → Option (Except DBError Page)
  | 0, _, _ => none
  | fuel + 1, it, page =>
    match it.next read with
    | (false, it) => some (match it.err with | some e => .error e | none => .ok page)
    | (true, it) =>
      if 0 < page.limit then
        if hash.sum it.key ∈ page.keySet then appendTraitKeys hash read fuel it { page with lastKey := it.key }
        else
          appendTraitKeys hash read fuel it
            { keys := page.keys ++ [it.key], keySet := hash.sum it.key :: page.keySet
              limit := page.limit - 1, lastKey := it.key }
      else some (match it.err with | some e => .error e | none => .ok page)

/-- The loop of `getKeys` over the sorted traits; it also returns the last trait. -/
def State.getKeysLoop (s : State) (hash : Hash256) (read : Reader) (fuel : ℕ) (startTrait : Bytes) :
    List Bytes → (startKey lastTrait : Bytes) → Page → Option (Except DBError (Page × Bytes))
  | [], _, lastTrait, page => some (.ok (page, lastTrait))
  | trait :: traits, startKey, lastTrait, page =>
    if trait < startTrait then s.getKeysLoop hash read fuel startTrait traits startKey lastTrait page
    else
      let startKey := if startTrait < trait then [] else startKey
      let traitRead := partOf (s.traitDB hash trait) read
      match appendTraitKeys hash traitRead fuel (LinkedDB.newIteratorWithStart traitRead startKey)
          { page with lastKey := startKey } with
      | none => none
      | some (.error e) => some (.error e)
      | some (.ok page) =>
        if page.limit = 0 then some (.ok (page, trait))
        else s.getKeysLoop hash read fuel startTrait traits startKey trait page

def State.getKeys (s : State) (hash : Hash256) (read : Reader) (fuel : ℕ) (traits : List Bytes)
    (startTrait startKey : Bytes) (limit : ℤ) : Option (Except DBError (Page × Bytes)) :=
  s.getKeysLoop hash read fuel startTrait (traits.insertionSort (· ≤ ·)) startKey startTrait
    ⟨[], [], limit, startKey⟩

/-! ## Writes -/

section Writes

variable {S : Store Bytes Bytes Range}

/-- `Get` of a `versiondb` over a database of which some reads fail. -/
def reader (fails : Bytes → Bool) (v : VersionDB S) : Reader := fun key =>
  match v.mem.lookup key with
  | some val => if val.delete then .error .notFound else .ok val.value
  | none =>
    if fails key then .error .failed
    else match S.get v.db key with
      | none => .error .notFound
      | some value => .ok value

/-- `batch.Write` of a part of a `versiondb`. -/
def writePart (pre : Bytes) (v : VersionDB S) (ops : List (Bytes × Option Bytes)) : VersionDB S :=
  (VersionDB.store S).write v (ops.map fun op => (PrefixDB.prefixKey pre op.1, op.2))

namespace State

variable (s : State) (hash : Hash256) (fails : Bytes → Bool)

/-- Change the list of a trait. -/
def changeTrait (change : Reader → Except DBError (List (Bytes × Option Bytes))) (v : VersionDB S) (trait : Bytes) :
    Except DBError (VersionDB S) := do
  let ops ← change (partOf (s.traitDB hash trait) (reader fails v))
  .ok (writePart (s.traitDB hash trait) v ops)

/-- Put a key into the list of a trait. -/
def putTrait (key : Bytes) (v : VersionDB S) (trait : Bytes) : Except DBError (VersionDB S) :=
  s.changeTrait hash fails (fun traitList => LinkedDB.put traitList key []) v trait

/-- Delete a key from the list of a trait. -/
def deleteTrait (key : Bytes) (v : VersionDB S) (trait : Bytes) : Except DBError (VersionDB S) :=
  s.changeTrait hash fails (fun traitList => LinkedDB.delete traitList key) v trait

def setValue (v : VersionDB S) (e : Element) : Except StateError (VersionDB S) :=
  match s.loadValue (reader fails v) e.key with
  | .ok value =>
    if !value.present then .ok (v.delete (PrefixDB.prefixKey s.valueDB e.key))
    else .error (.duplicatePut e.key e.value)
  | .error .notFound => do
      let v ← passOn (e.traits.foldlM (s.putTrait hash fails e.key) v)
      let valueBytes ← passOn (DBElement.marshal ⟨true, e.value, e.traits⟩)
      .ok (v.put (PrefixDB.prefixKey s.valueDB e.key) valueBytes)
  | .error err => .error (.db err)

def removeValue (v : VersionDB S) (key : Bytes) : Except StateError (VersionDB S) :=
  match s.loadValue (reader fails v) key with
  | .error .notFound => do
      let valueBytes ← passOn (DBElement.marshal ⟨false, [], []⟩)
      .ok (v.put (PrefixDB.prefixKey s.valueDB key) valueBytes)
  | .error err => .error (.db err)
  | .ok value =>
    if !value.present then .error (.duplicateRemove key)
    else do
      let v ← passOn (value.traits.foldlM (s.deleteTrait hash fails key) v)
      .ok (v.delete (PrefixDB.prefixKey s.valueDB key))

end State

end Writes

end Titan.Shared
