import Titan.Database.MemDB

/-!
# Titan.Database.VersionDB — pending changes over a database

`versiondb` keeps changes in memory and writes them to the database below when it is
committed (`database/versiondb/db.go`).

* The database below is any store.
* An iterator merges a sorted copy of the changes, made with the iterator, with an
  iterator of the database below.

Not modelled: locks, `Close`, `Compact` and failures of the database below.
-/

namespace Titan.Database

open Lib

structure BatchOp where
  key : Bytes
  value : Bytes
  delete : Bool
deriving DecidableEq, Repr

structure ValueDelete where
  value : Bytes
  delete : Bool
deriving DecidableEq, Repr

/-- What is read of a change. -/
def ValueDelete.after (w : ValueDelete) : Option Bytes := if w.delete then none else some w.value

/-- `versiondb.Database`. -/
structure VersionDB (S : Store Bytes Bytes Range) where
  mem : AList fun _ : Bytes => ValueDelete
  db : S.State

variable {S : Store Bytes Bytes Range}

/-! ## Reads and writes -/

namespace VersionDB

def new (db : S.State) : VersionDB S := ⟨∅, db⟩

def has (v : VersionDB S) (key : Bytes) : Bool :=
  match v.mem.lookup key with
  | some val => !val.delete
  | none => S.has v.db key

def get (v : VersionDB S) (key : Bytes) : Option Bytes :=
  match v.mem.lookup key with
  | some val => if val.delete then none else some val.value
  | none => S.get v.db key

def put (v : VersionDB S) (key value : Bytes) : VersionDB S :=
  { v with mem := v.mem.insert key ⟨value, false⟩ }

def delete (v : VersionDB S) (key : Bytes) : VersionDB S :=
  { v with mem := v.mem.insert key ⟨[], true⟩ }

/-- `batch.Write`. -/
def write (v : VersionDB S) (ops : List BatchOp) : VersionDB S :=
  { v with mem := ops.foldl (fun mem op => mem.insert op.key ⟨op.value, op.delete⟩) v.mem }

def abort (v : VersionDB S) : VersionDB S := { v with mem := ∅ }

/-- `commitBatch`: the operations that it collects for the database below. -/
def commitBatch (v : VersionDB S) (walk : Walk (Sigma fun _ : Bytes => ValueDelete)) :
    List (Bytes × Option Bytes) :=
  (walk.order v.mem.entries).map fun e => if e.2.delete then (e.1, none) else (e.1, some e.2.value)

def commit (v : VersionDB S) (walk : Walk (Sigma fun _ : Bytes => ValueDelete)) : VersionDB S :=
  abort { v with db := S.write v.db (v.commitBatch walk) }

end VersionDB

/-! ## Iterators -/

/-- `iterator`; `entries` are the slices `keys` and `values`. -/
structure Iterator (S : Store Bytes Bytes Range) where
  inner : S.Iterator
  key : Bytes
  value : Bytes
  entries : List (Bytes × ValueDelete)
  initialized : Bool
  exhausted : Bool

def VersionDB.newIteratorWithStartAndPrefix (v : VersionDB S) (r : Range) : Iterator S where
  inner := S.newIterator v.db r
  key := []
  value := []
  entries := r.sortedEntries v.mem
  initialized := false
  exhausted := false

namespace Iterator

/-- The loop of `Next`. -/
def loop (db : S.State) (it : Iterator S) :
    List (Bytes × ValueDelete) → S.Iterator → Bool → Bool × Iterator S
  | [], inner, true =>
    (false, { it with inner := inner, key := [], value := [], entries := [], exhausted := true })
  | (nextKey, nextValue) :: entries, inner, true =>
    if nextValue.delete then loop db it entries inner true
    else
      (true, { it with
        inner := inner, key := nextKey, value := nextValue.value, entries := entries, exhausted := true })
  | [], inner, false =>
    let (hasNext, inner') := S.next db inner
    (true, { it with
      inner := inner', key := S.key inner, value := S.value inner, entries := [], exhausted := !hasNext })
  | (memKey, memValue) :: entries, inner, false =>
    let dbKey := S.key inner
    if memKey < dbKey then
      if memValue.delete then loop db it entries inner false
      else
        (true, { it with
          inner := inner, key := memKey, value := memValue.value, entries := entries, exhausted := false })
    else if dbKey < memKey then
      let (hasNext, inner') := S.next db inner
      (true, { it with
        inner := inner', key := dbKey, value := S.value inner
        entries := (memKey, memValue) :: entries, exhausted := !hasNext })
    else
      let (hasNext, inner') := S.next db inner
      if memValue.delete then loop db it entries inner' (!hasNext)
      else
        (true, { it with
          inner := inner', key := memKey, value := memValue.value, entries := entries
          exhausted := !hasNext })

def next (db : S.State) (it : Iterator S) : Bool × Iterator S :=
  if it.initialized then loop db it it.entries it.inner it.exhausted
  else
    let (hasNext, inner) := S.next db it.inner
    loop db { it with initialized := true } it.entries inner (!hasNext)

end Iterator

/-- The pending changes and the database below as one store. -/
def VersionDB.store (S : Store Bytes Bytes Range) : Store Bytes Bytes Range where
  State := VersionDB S
  Iterator := Iterator S
  has := has
  get := get
  write v ops := v.write (ops.map fun op => ⟨op.1, op.2.getD [], op.2.isNone⟩)
  newIterator := newIteratorWithStartAndPrefix
  next v it := it.next v.db
  key := Iterator.key
  value := Iterator.value

end Titan.Database
