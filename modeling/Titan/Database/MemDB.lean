import Titan.Lib.Checked
import Titan.Lib.SortedMap

/-!
# Titan.Database.MemDB — byte strings, ranges and the database in memory

Keys and values are byte strings, and keys are ordered lexicographically. `memdb` holds
them in a map and sorts a copy for each iterator (`database/memdb/db.go`); `MemDB.law`
says that it keeps the law of stores.

Not modelled: locks and `Close`.
-/

namespace Titan.Database

open Lib

abbrev Byte := Fin 256

abbrev Bytes := List Byte

instance : LawfulBEq Bytes := inferInstance

/-- The arguments of `NewIteratorWithStartAndPrefix`. -/
structure Range where
  start : Bytes
  pre : Bytes
deriving DecidableEq, Repr

namespace Range

def Contains (r : Range) (key : Bytes) : Prop := r.pre <+: key ∧ r.start ≤ key

instance (r : Range) : DecidablePred r.Contains := fun _ => inferInstanceAs (Decidable (_ ∧ _))

variable {ν : Type}

/-- The entries of a map in the range, sorted by their keys. -/
def sortedEntries (r : Range) (m : AList fun _ : Bytes => ν) : List (Bytes × ν) :=
  ((m.keys.filter fun key => r.Contains key).insertionSort (· ≤ ·)).filterMap fun key =>
    (m.lookup key).map fun value => (key, value)

variable (r : Range) (m : AList fun _ : Bytes => ν)

theorem sortedEntries_eq : r.sortedEntries m = Lib.sortedEntries r.Contains m := by
  unfold sortedEntries Lib.sortedEntries
  congr!

theorem mem_sortedEntries {key : Bytes} {value : ν} :
    (key, value) ∈ r.sortedEntries m ↔ r.Contains key ∧ m.lookup key = some value := by
  rw [sortedEntries_eq, Lib.mem_sortedEntries]
  congr!

theorem pairwise_sortedEntries : (r.sortedEntries m).Pairwise fun a b => a.1 < b.1 := by
  rw [sortedEntries_eq]
  exact Lib.pairwise_sortedEntries r.Contains m

end Range

/-! ## The database in memory -/

/-- `memdb.Database`. -/
abbrev MemDB := AList fun _ : Bytes => Bytes

namespace MemDB

/-- `iterator`; `entries` are the slices `keys` and `values`. -/
structure Iterator where
  initialized : Bool
  entries : List (Bytes × Bytes)
deriving DecidableEq, Repr

def Iterator.next (it : Iterator) : Bool × Iterator :=
  let it := if it.initialized then { it with entries := it.entries.tail } else { it with initialized := true }
  (!it.entries.isEmpty, it)

def Iterator.key (it : Iterator) : Bytes :=
  match it.entries with
  | [] => []
  | e :: _ => e.1

def Iterator.value (it : Iterator) : Bytes :=
  match it.entries with
  | [] => []
  | e :: _ => e.2

/-- One operation of `batch.Write`. -/
def apply (db : MemDB) (op : Bytes × Option Bytes) : MemDB :=
  match op.2 with
  | none => db.erase op.1
  | some value => db.insert op.1 value

def store : Store Bytes Bytes Range where
  State := MemDB
  Iterator := Iterator
  has db key := (db.lookup key).isSome
  get db key := db.lookup key
  write db ops := ops.foldl apply db
  newIterator db r := ⟨false, r.sortedEntries db⟩
  next _ it := it.next
  key := Iterator.key
  value := Iterator.value

theorem lookup_apply (db : MemDB) (op : Bytes × Option Bytes) :
    (fun key => (apply db op).lookup key) = Function.update (fun key => db.lookup key) op.1 op.2 := by
  funext key
  unfold apply
  rcases op with ⟨k, _ | value⟩
  · by_cases hk : key = k
    · subst hk
      rw [AList.lookup_erase, Function.update_self]
    · rw [AList.lookup_erase_ne hk, Function.update_of_ne hk]
  · by_cases hk : key = k
    · subst hk
      rw [AList.lookup_insert, Function.update_self]
    · rw [AList.lookup_insert_ne hk, Function.update_of_ne hk]

theorem lookup_write (db : MemDB) (ops : List (Bytes × Option Bytes)) :
    (fun key => (ops.foldl apply db).lookup key) = overwrite (fun key => db.lookup key) ops := by
  induction ops generalizing db with
  | nil => rfl
  | cons op ops ih =>
    rw [List.foldl_cons, ih, lookup_apply, overwrite_cons]

/-- What an iterator still returns: the entry it stands at is not among it. -/
def Iterator.Yields (it : Iterator) (l : List (Bytes × Bytes)) : Prop :=
  l = if it.initialized then it.entries.tail else it.entries

theorem Iterator.next_yields {it : Iterator} {l : List (Bytes × Bytes)} (h : it.Yields l) :
    it.next.2.entries = l ∧ it.next.2.initialized = true ∧ it.next.1 = !l.isEmpty := by
  rcases it with ⟨_ | _, entries⟩
  · cases h
    exact ⟨rfl, rfl, rfl⟩
  · cases h
    exact ⟨rfl, rfl, rfl⟩

def law : store.Law Range.Contains where
  content db key := AList.lookup key db
  Yields := Iterator.Yields
  has_eq _ _ := rfl
  get_eq _ _ := rfl
  content_write := lookup_write
  yields_new db r :=
    ⟨r.sortedEntries db, ⟨r.pairwise_sortedEntries db, fun _ _ => r.mem_sortedEntries db⟩, rfl⟩
  yields_nil _ it h := by
    rcases Iterator.next_yields h with ⟨hentries, hinit, hnext⟩
    refine ⟨hnext, ?_⟩
    show [] = if it.next.2.initialized then it.next.2.entries.tail else it.next.2.entries
    rw [if_pos hinit, hentries]
    rfl
  yields_cons _ it e l h := by
    rcases Iterator.next_yields h with ⟨hentries, hinit, hnext⟩
    refine ⟨hnext, ?_, ?_, ?_⟩
    · show it.next.2.key = e.1
      rw [Iterator.key, hentries]
    · show it.next.2.value = e.2
      rw [Iterator.value, hentries]
    · show l = if it.next.2.initialized then it.next.2.entries.tail else it.next.2.entries
      rw [if_pos hinit, hentries]
      rfl

end MemDB

end Titan.Database
