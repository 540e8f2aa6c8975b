import Titan.Database.MemDB

/-!
# Titan.Database.PrefixDB — a part of a database

`prefixdb` makes a database of the keys below a prefix, which is a hash
(`database/prefixdb/db.go`). `PrefixDB.law`: it keeps the law of stores.

* A database in a database has the hash of both prefixes, so that one database has many
  parts, side by side. Prefixes that are not equal belong to parts that share no key
  (`overwrite_below`, `overwrite_elsewhere`).
* The hash is a parameter, of which only the length of its values is known.
-/

namespace Titan.Database

open Lib

/-- `hashing.ComputeHash256`. -/
structure Hash256 where
  sum : Bytes → Bytes
  length_sum : ∀ b, (sum b).length = 32

namespace PrefixDB

def makePrefix (hash : Hash256) (pre : Bytes) : Bytes := hash.sum pre

def joinPrefixes (hash : Hash256) (firstPrefix secondPrefix : Bytes) : Bytes :=
  makePrefix hash (firstPrefix ++ secondPrefix)

def prefixKey (pre key : Bytes) : Bytes := pre ++ key

/-- The part of a database below a prefix. An iterator stands where the one below stands. -/
def store (dbPrefix : Bytes) (S : Store Bytes Bytes Range) : Store Bytes Bytes Range where
  State := S.State
  Iterator := S.Iterator
  has db key := S.has db (prefixKey dbPrefix key)
  get db key := S.get db (prefixKey dbPrefix key)
  write db ops := S.write db (ops.map fun op => (prefixKey dbPrefix op.1, op.2))
  newIterator db r := S.newIterator db ⟨prefixKey dbPrefix r.start, prefixKey dbPrefix r.pre⟩
  next := S.next
  key it := if dbPrefix.length ≤ (S.key it).length then (S.key it).drop dbPrefix.length else S.key it
  value := S.value

/-! ## Order -/

variable {pre key key' : Bytes}

theorem prefixKey_inj : prefixKey pre key = prefixKey pre key' ↔ key = key' :=
  List.append_right_inj pre

theorem prefixKey_lt : prefixKey pre key < prefixKey pre key' ↔ key < key' := by
  unfold prefixKey
  induction pre with
  | nil => rfl
  | cons b pre ih =>
    rw [List.cons_append, List.cons_append, List.cons_lt_cons_iff, ih]
    simp

theorem prefixKey_le : prefixKey pre key ≤ prefixKey pre key' ↔ key ≤ key' := by
  rw [← not_lt, ← not_lt, prefixKey_lt]

theorem contains_prefixKey (pre : Bytes) (r : Range) (key : Bytes) :
    Range.Contains ⟨prefixKey pre r.start, prefixKey pre r.pre⟩ (prefixKey pre key) ↔ r.Contains key := by
  unfold Range.Contains
  rw [prefixKey_le]
  exact and_congr_left fun _ => List.prefix_append_right_inj pre

theorem exists_prefixKey {r : Range}
    (h : Range.Contains ⟨prefixKey pre r.start, prefixKey pre r.pre⟩ key) :
    ∃ key', key = prefixKey pre key' := by
  rcases h.1 with ⟨rest, hrest⟩
  refine ⟨r.pre ++ rest, ?_⟩
  rw [← hrest]
  exact List.append_assoc pre r.pre rest

/-! ## Contents -/

section Parts

variable {m : Bytes → Option Bytes} {pre pre' : Bytes}

/-- Writes below a prefix are writes to the part below it. -/
theorem overwrite_below (m : Bytes → Option Bytes) (pre : Bytes) (ops : List (Bytes × Option Bytes)) :
    (fun key => overwrite m (ops.map fun op => (prefixKey pre op.1, op.2)) (prefixKey pre key)) =
      overwrite (fun key => m (prefixKey pre key)) ops := by
  induction ops generalizing m with
  | nil => rfl
  | cons op ops ih =>
    have hupdate : (fun key => Function.update m (prefixKey pre op.1) op.2 (prefixKey pre key)) =
        Function.update (fun key => m (prefixKey pre key)) op.1 op.2 := by
      funext key
      by_cases hkey : key = op.1
      · rw [hkey, Function.update_self, Function.update_self]
      · rw [Function.update_of_ne hkey, Function.update_of_ne fun h => hkey (prefixKey_inj.mp h)]
    rw [List.map_cons, overwrite_cons, overwrite_cons, ← hupdate]
    exact ih _

/-- Writes below a prefix change nothing elsewhere. -/
theorem overwrite_elsewhere (ops : List (Bytes × Option Bytes)) (h : ¬ pre <+: key) :
    overwrite m (ops.map fun op => (prefixKey pre op.1, op.2)) key = m key := by
  refine overwrite_of_notMem fun hmem => h ?_
  rw [List.map_map, List.mem_map] at hmem
  rcases hmem with ⟨op, -, rfl⟩
  exact List.prefix_append pre op.1

/-- Prefixes of one length are equal if a key has both. -/
theorem not_prefix_of_ne (hlength : pre.length = pre'.length) (hne : pre ≠ pre') (key : Bytes) :
    ¬ pre <+: prefixKey pre' key := by
  intro h
  have hpre : pre <+: pre' := List.prefix_of_prefix_length_le h (List.prefix_append pre' key) (le_of_eq hlength)
  exact hne (hpre.eq_of_length hlength)

end Parts

/-- The part of a listing below a prefix. -/
theorem exists_listing {m : Bytes → Option Bytes} {r : Range} {l : List (Bytes × Bytes)}
    (h : Listing m (Range.Contains ⟨prefixKey pre r.start, prefixKey pre r.pre⟩) l) :
    ∃ l', l = l'.map (fun e => (prefixKey pre e.1, e.2)) ∧
      Listing (fun key => m (prefixKey pre key)) r.Contains l' := by
  have hkeys : ∀ e ∈ l, ∃ key, e.1 = prefixKey pre key := fun e he => exists_prefixKey (h.mem_entry he).1
  have hback : l = (l.map fun e => (e.1.drop pre.length, e.2)).map (fun e => (prefixKey pre e.1, e.2)) := by
    rw [List.map_map]
    conv_lhs => rw [← List.map_id l]
    refine List.map_congr_left fun e he => ?_
    rcases hkeys e he with ⟨key, hkey⟩
    rcases e with ⟨_, value⟩
    cases hkey
    show (prefixKey pre key, value) = (prefixKey pre ((prefixKey pre key).drop pre.length), value)
    rw [show (prefixKey pre key).drop pre.length = key from List.drop_left]
  refine ⟨_, hback, ?_⟩
  generalize l.map (fun e => (e.1.drop pre.length, e.2)) = l' at hback
  subst hback
  constructor
  · exact (List.pairwise_map.mp h.sorted).imp fun hlt => prefixKey_lt.mp hlt
  · intro key value
    have hmem := h.mem (prefixKey pre key) value
    rw [contains_prefixKey] at hmem
    rw [← hmem, List.mem_map]
    constructor
    · exact fun hl => ⟨_, hl, rfl⟩
    · rintro ⟨⟨key', value'⟩, hl, heq⟩
      rw [Prod.mk.injEq, prefixKey_inj] at heq
      rw [← heq.1, ← heq.2]
      exact hl

def law (dbPrefix : Bytes) {S : Store Bytes Bytes Range} (law : S.Law Range.Contains) :
    (store dbPrefix S).Law Range.Contains where
  content db key := law.content db (prefixKey dbPrefix key)
  Yields it l := law.Yields it (l.map fun e => (prefixKey dbPrefix e.1, e.2))
  has_eq db key := law.has_eq db (prefixKey dbPrefix key)
  get_eq db key := law.get_eq db (prefixKey dbPrefix key)
  content_write db ops := by
    rw [← overwrite_below]
    funext key
    exact congrFun (law.content_write db _) _
  yields_new db r := by
    rcases law.yields_new db ⟨prefixKey dbPrefix r.start, prefixKey dbPrefix r.pre⟩ with ⟨l, hlisting, hyields⟩
    rcases exists_listing hlisting with ⟨l', rfl, hlisting'⟩
    exact ⟨l', hlisting', hyields⟩
  yields_nil db it h := law.yields_nil db it h
  yields_cons db it e l h := by
    rcases law.yields_cons db it _ _ h with ⟨hnext, hkey, hvalue, hyields⟩
    refine ⟨hnext, ?_, hvalue, hyields⟩
    show (if dbPrefix.length ≤ (S.key (S.next db it).2).length then
      (S.key (S.next db it).2).drop dbPrefix.length else S.key (S.next db it).2) = e.1
    rw [hkey, if_pos (by simp [prefixKey])]
    exact List.drop_left

end PrefixDB

end Titan.Database
