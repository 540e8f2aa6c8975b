import Titan.Database.ArchiveDB

/-!
# Titan.Database.ArchiveHistory — what a reader of the past finds

The abstract database is the log of all operations, each with the height of its batch.
A reader at a height finds the operation on its key that is latest: none of the others up
to that height is higher, and of those at the same height it is the last one.

`getEntry_run`: after any batches, in any order of their heights, a reader of `archivedb`
finds that operation.
-/

namespace Titan.Database.ArchiveDB

open Lib

/-! ## The log -/

/-- An operation and the height of its batch. -/
structure Entry where
  height : UInt64
  op : BatchOp
deriving DecidableEq

/-- All operations, in the order in which they were written. -/
def log (batches : List Batch) : List Entry := batches.flatMap fun c => c.ops.map fun op => ⟨c.height, op⟩

/-- The entries that a reader of a key at a height may find. -/
def Entry.Visible (e : Entry) (height : UInt64) (key : Bytes) : Prop := e.op.key = key ∧ e.height ≤ height

/-- The visible entry with the greatest height, the last one if there are several. -/
def Latest (entries : List Entry) (height : UInt64) (key : Bytes) (e : Entry) : Prop :=
  e.Visible height key ∧ ∃ before after, entries = before ++ e :: after ∧
    (∀ e' ∈ before, e'.Visible height key → e'.height ≤ e.height) ∧
    (∀ e' ∈ after, e'.Visible height key → e'.height < e.height)

/-- What `GetEntry` returns for an entry: no value if it is deleted. -/
def Entry.result (e : Entry) : Bytes × UInt64 × Bool :=
  if e.op.delete then ([], e.height, false) else (e.op.value, e.height, true)

/-- What is put for an entry. -/
def Entry.put (e : Entry) : Bytes × Option Bytes := ArchiveDB.put e.height e.op

def run {S : Store Bytes Bytes Range} (db : S.State) (batches : List Batch) : S.State := batches.foldl write db

/-! ## What is stored -/

section Content

variable {S : Store Bytes Bytes Range} (law : S.Law Range.Contains)

theorem content_run (db : S.State) (batches : List Batch) :
    law.content (run db batches) = overwrite (law.content db) (batches.flatMap Batch.puts) := by
  induction batches generalizing db with
  | nil => rfl
  | cons c batches ih =>
    have hwrite : law.content (write db c) = overwrite (law.content db) c.puts := law.content_write db c.puts
    rw [List.flatMap_cons, overwrite_append, ← hwrite]
    exact ih (write db c)

/-- The height records do not meet the entries. -/
theorem overwrite_entries {m m' : Bytes → Option Bytes} {dbKey : Bytes} (hdbKey : dbKey ≠ heightKey)
    (h : m dbKey = m' dbKey) (batches : List Batch) :
    overwrite m (batches.flatMap Batch.puts) dbKey = overwrite m' ((log batches).map Entry.put) dbKey := by
  induction batches generalizing m m' with
  | nil => exact h
  | cons c batches ih =>
    have hlog : (log (c :: batches)).map Entry.put = c.ops.map (put c.height) ++ (log batches).map Entry.put := by
      rw [log, List.flatMap_cons, List.map_append, List.map_map]
      rfl
    rw [List.flatMap_cons, overwrite_append, hlog, overwrite_append]
    apply ih
    rw [Batch.puts, overwrite_append, overwrite_cons]
    show Function.update _ heightKey _ dbKey = _
    rw [Function.update_of_ne hdbKey]
    exact overwrite_congr h _

/-- The height record is that of the last batch. -/
theorem overwrite_height (m : Bytes → Option Bytes) (batches : List Batch) :
    overwrite m (batches.flatMap Batch.puts) heightKey =
      match batches.getLast? with
      | none => m heightKey
      | some c => some (packUInt64 c.height) := by
  rcases List.eq_nil_or_concat batches with rfl | ⟨earlier, c, rfl⟩
  · rfl
  · rw [List.concat_eq_append, List.flatMap_append, List.flatMap_singleton, Batch.puts, ← List.append_assoc,
      overwrite_append, List.getLast?_append]
    exact Function.update_self _ _ _

/-- Every entry is stored. -/
theorem isSome_put {entries : List Entry} {e : Entry} (he : e ∈ entries) (m : Bytes → Option Bytes) :
    (overwrite m (entries.map Entry.put) e.put.1).isSome := by
  have hmem : e.put.1 ∈ (entries.map Entry.put).map Prod.fst :=
    List.mem_map_of_mem (List.mem_map_of_mem he)
  rcases overwrite_last (m := m) hmem with ⟨before, v, after, heq, -, hv⟩
  have hin : (e.put.1, v) ∈ entries.map Entry.put := by
    rw [heq]
    exact List.mem_append_right _ List.mem_cons_self
  rcases List.mem_map.mp hin with ⟨e', -, he'⟩
  have hvalue : e'.put.2 = v := congrArg Prod.snd he'
  rw [hv, ← hvalue]
  rfl

/-- What is stored where no height record is stands for an entry, after which none has its key. -/
theorem exists_entry {entries : List Entry} {dbKey value : Bytes}
    (h : overwrite (fun _ => none) (entries.map Entry.put) dbKey = some value) :
    ∃ before e after, entries = before ++ e :: after ∧ e.put = (dbKey, some value) ∧
      ∀ e' ∈ after, e'.put.1 ≠ dbKey := by
  have hmem : dbKey ∈ (entries.map Entry.put).map Prod.fst := by
    by_contra hnot
    rw [overwrite_of_notMem hnot] at h
    cases h
  rcases overwrite_last (m := fun _ => none) hmem with ⟨before, v, after, heq, hlast, hv⟩
  rcases List.map_eq_append_iff.mp heq with ⟨before', rest, rfl, -, hrest⟩
  rcases List.map_eq_cons_iff.mp hrest with ⟨e, after', rfl, he, rfl⟩
  refine ⟨before', e, after', rfl, ?_, fun e' he' hkey => hlast ?_⟩
  · rw [he, ← hv, h]
  · rw [← hkey]
    exact List.mem_map_of_mem (List.mem_map_of_mem he')

end Content

/-! ## What a reader finds -/

section Reader

variable {S : Store Bytes Bytes Range} (law : S.Law Range.Contains)

/-- The keys that the iterator of a reader goes through are those of the visible entries. -/
theorem contains_put {e : Entry} {height : UInt64} {key : Bytes} :
    Range.Contains ⟨(newDBKeyFromUser key height).1, (newDBKeyFromUser key height).2⟩ e.put.1 ↔
      e.Visible height key := by
  unfold Range.Contains Entry.Visible Entry.put put
  rw [prefix_newDBKeyFromUser]
  constructor
  · rintro ⟨rfl, hle⟩
    exact ⟨rfl, newDBKeyFromUser_le.mp hle⟩
  · rintro ⟨rfl, hle⟩
    exact ⟨rfl, newDBKeyFromUser_le.mpr hle⟩

/-- A reader finds the latest entry of its key, or there is none. -/
theorem getEntry_run {db : S.State} (hempty : ∀ k, law.content db k = none) (batches : List Batch)
    (height : UInt64) {key : Bytes} (hkey : key.length < 2 ^ 63) :
    (∃ e, Latest (log batches) height key e ∧ getEntry (run db batches) height key = .ok e.result) ∨
      (∀ e ∈ log batches, ¬ e.Visible height key) ∧ getEntry (run db batches) height key = .error .notFound := by
  have hempty' : law.content db = fun _ => none := funext hempty
  have hcontent : ∀ {dbKey}, dbKey ≠ heightKey → law.content (run db batches) dbKey =
      overwrite (fun _ => none) ((log batches).map Entry.put) dbKey := by
    intro dbKey hdbKey
    rw [content_run, hempty']
    exact overwrite_entries hdbKey rfl batches
  have hstored : ∀ e ∈ log batches, (law.content (run db batches) e.put.1).isSome := by
    intro e he
    have hne : e.put.1 ≠ heightKey := newDBKeyFromUser_ne_heightKey _ _
    rw [hcontent hne]
    exact isSome_put he _
  rcases law.yields_new (run db batches) ⟨(newDBKeyFromUser key height).1, (newDBKeyFromUser key height).2⟩ with
    ⟨l, hl, hyields⟩
  unfold getEntry
  cases l with
  | nil =>
    right
    rcases law.yields_nil (run db batches) _ hyields with ⟨hnext, -⟩
    constructor
    · intro e he hvisible
      rcases Option.isSome_iff_exists.mp (hstored e he) with ⟨value, hvalue⟩
      exact absurd ((hl.mem _ value).mpr ⟨contains_put.mpr hvisible, hvalue⟩) List.not_mem_nil
    · dsimp only
      rw [hnext]
      rfl
  | cons first rest =>
    left
    rcases law.yields_cons (run db batches) _ _ _ hyields with ⟨hnext, hkeyIt, hvalueIt, -⟩
    rcases hl.mem_entry List.mem_cons_self with ⟨hin, hvalue⟩
    have hne : first.1 ≠ heightKey := by
      intro h
      rw [h] at hin
      exact not_prefix_heightKey key height hin.1
    rw [hcontent hne] at hvalue
    rcases exists_entry hvalue with ⟨before, e, after, hlog, hput, hlast⟩
    have hput1 : e.put.1 = first.1 := congrArg Prod.fst hput
    have hvisible : e.Visible height key := by
      rw [← hput1] at hin
      exact contains_put.mp hin
    -- The first key of the iterator is the least one, so that no visible entry is higher.
    have hleast : ∀ e' ∈ log batches, e'.Visible height key → e'.height ≤ e.height := by
      intro e' he' hvisible'
      rcases Option.isSome_iff_exists.mp (hstored e' he') with ⟨value, hvalue'⟩
      have hle : e.put.1 ≤ e'.put.1 := by
        rw [hput1]
        exact hl.least (contains_put.mpr hvisible') hvalue'
      have hkeys : e'.op.key = e.op.key := hvisible'.1.trans hvisible.1.symm
      unfold Entry.put put at hle
      rw [hkeys] at hle
      exact newDBKeyFromUser_le.mp hle
    refine ⟨e, ⟨hvisible, before, after, hlog, ?_, ?_⟩, ?_⟩
    · intro e' he'
      exact hleast e' (by rw [hlog]; exact List.mem_append_left _ he')
    · intro e' he' hvisible'
      have hle := hleast e' (by rw [hlog]; exact List.mem_append_right _ (List.mem_cons_of_mem _ he')) hvisible'
      refine UInt64.lt_of_le_of_ne hle fun heq => hlast e' he' ?_
      rw [← hput1]
      unfold Entry.put put
      rw [heq, hvisible'.1, hvisible.1]
    · have hparse : parseDBKeyFromUser first.1 = .ok (key, e.height) := by
        rw [← hput1]
        unfold Entry.put put
        rw [hvisible.1]
        exact parseDBKeyFromUser_newDBKeyFromUser hkey e.height
      dsimp only
      rw [hnext, hkeyIt, hvalueIt, hparse, ok_bind, ← Option.some.inj (congrArg Prod.snd hput)]
      unfold Entry.result
      cases e.op.delete <;> rfl

end Reader

/-! ## Keys on their own -/

variable {entries : List Entry} {e : Entry} {height : UInt64} {key : Bytes}

section

variable (h : Latest entries height key e)
include h

/-- There is one latest entry. -/
theorem Latest.unique {e' : Entry}
    (h' : Latest entries height key e') : e = e' := by
  rcases h with ⟨hvisible, before, after, rfl, hbefore, hafter⟩
  rcases h' with ⟨hvisible', before', after', heq, hbefore', hafter'⟩
  rcases List.append_eq_append_iff.mp heq with ⟨between, rfl, htail⟩ | ⟨between, rfl, htail⟩
  · rcases List.cons_eq_append_iff.mp htail with ⟨rfl, hcons⟩ | ⟨between', rfl, hrest⟩
    · exact (List.cons.inj hcons).1.symm
    · have hlt := hafter e' (by rw [hrest]; exact List.mem_append_right _ List.mem_cons_self) hvisible'
      have hle := hbefore' e (List.mem_append_right _ List.mem_cons_self) hvisible
      exact absurd hlt (UInt64.not_lt.mpr hle)
  · rcases List.cons_eq_append_iff.mp htail with ⟨rfl, hcons⟩ | ⟨between', rfl, hrest⟩
    · exact (List.cons.inj hcons).1
    · have hlt := hafter' e (by rw [hrest]; exact List.mem_append_right _ List.mem_cons_self) hvisible
      have hle := hbefore e' (List.mem_append_right _ List.mem_cons_self) hvisible'
      exact absurd hlt (UInt64.not_lt.mpr hle)

/-- It is also the latest one of the entries of its key. -/
theorem Latest.filter :
    Latest (entries.filter (·.op.key = key)) height key e := by
  rcases h with ⟨hvisible, before, after, rfl, hbefore, hafter⟩
  refine ⟨hvisible, before.filter (·.op.key = key), after.filter (·.op.key = key), ?_, ?_, ?_⟩
  · rw [List.filter_append, List.filter_cons_of_pos (by simpa using hvisible.1)]
  · intro e' he'
    exact hbefore e' (List.mem_of_mem_filter he')
  · intro e' he'
    exact hafter e' (List.mem_of_mem_filter he')

theorem Latest.mem : e ∈ entries := by
  rcases h with ⟨-, before, after, rfl, -, -⟩
  exact List.mem_append_right _ List.mem_cons_self

end

variable {S : Store Bytes Bytes Range}

/-- A reader of a key finds the same after batches with the same entries of that key. -/
theorem getEntry_run_congr (law : S.Law Range.Contains) {db : S.State}
    (hempty : ∀ k, law.content db k = none) {batches batches' : List Batch} (height : UInt64)
    (hkey : key.length < 2 ^ 63)
    (h : (log batches).filter (·.op.key = key) = (log batches').filter (·.op.key = key)) :
    getEntry (run db batches) height key = getEntry (run db batches') height key := by
  have hsame : ∀ {e}, e ∈ log batches ∧ e.Visible height key ↔ e ∈ log batches' ∧ e.Visible height key := by
    intro e
    have hmem : e ∈ (log batches).filter (·.op.key = key) ↔ e ∈ (log batches').filter (·.op.key = key) := by rw [h]
    simp only [List.mem_filter, decide_eq_true_eq] at hmem
    constructor
    · rintro ⟨he, hvisible⟩
      exact ⟨(hmem.mp ⟨he, hvisible.1⟩).1, hvisible⟩
    · rintro ⟨he, hvisible⟩
      exact ⟨(hmem.mpr ⟨he, hvisible.1⟩).1, hvisible⟩
  rcases getEntry_run law hempty batches height hkey with ⟨e, he, hok⟩ | ⟨hnone, herr⟩ <;>
    rcases getEntry_run law hempty batches' height hkey with ⟨e', he', hok'⟩ | ⟨hnone', herr'⟩
  · have hfilter := he'.filter
    rw [← h] at hfilter
    rw [hok, hok', he.filter.unique hfilter]
  · exact absurd he.1 (hnone' e (hsame.mp ⟨he.mem, he.1⟩).1)
  · exact absurd he'.1 (hnone e' (hsame.mpr ⟨he'.mem, he'.1⟩).1)
  · rw [herr, herr']

/-- After any batches, a reader at any height finds the latest entry of its key or that there is none,
whatever the entries of other keys are, and the height is that of the last batch. -/
theorem archivedb_answers (law : S.Law Range.Contains) (db : S.State) (hempty : ∀ k, law.content db k = none)
    (batches : List Batch) :
    (∀ height key, key.length < 2 ^ 63 →
      ((∃ e, Latest (log batches) height key e ∧ getEntry (run db batches) height key = .ok e.result) ∨
        (∀ e ∈ log batches, ¬ e.Visible height key) ∧ getEntry (run db batches) height key = .error .notFound) ∧
      ∀ batches', (log batches).filter (·.op.key = key) = (log batches').filter (·.op.key = key) →
        getEntry (run db batches) height key = getEntry (run db batches') height key) ∧
    lastHeight (run db batches) =
      match batches.getLast? with
      | none => .error .notFound
      | some c => .ok c.height := by
  refine ⟨fun height key hkey => ⟨?_, ?_⟩, ?_⟩
  · exact getEntry_run law hempty batches height hkey
  · intro batches' h
    exact getEntry_run_congr law hempty height hkey h
  · unfold lastHeight
    rw [law.get_eq, content_run, overwrite_height]
    cases batches.getLast? with
    | none => rw [hempty]
    | some c => exact parseUInt64_packUInt64 c.height

/-- In memory: a key is put at 5, deleted at 3 and put again at 3; the height goes back. -/
theorem archivedb_answers_memdb :
    (∃ e, Latest (log [⟨5, [⟨[1], [9], false⟩]⟩, ⟨3, [⟨[1], [], true⟩, ⟨[1], [7], false⟩]⟩]) 4 [1] e ∧
      getEntry (S := MemDB.store) (run (S := MemDB.store) (∅ : MemDB)
        [⟨5, [⟨[1], [9], false⟩]⟩, ⟨3, [⟨[1], [], true⟩, ⟨[1], [7], false⟩]⟩]) 4 [1] = .ok e.result) ∧
    lastHeight (S := MemDB.store) (run (S := MemDB.store) (∅ : MemDB)
      [⟨5, [⟨[1], [9], false⟩]⟩, ⟨3, [⟨[1], [], true⟩, ⟨[1], [7], false⟩]⟩]) = .ok 3 := by
  rcases archivedb_answers MemDB.law (∅ : MemDB) (fun _ => rfl)
    [⟨5, [⟨[1], [9], false⟩]⟩, ⟨3, [⟨[1], [], true⟩, ⟨[1], [7], false⟩]⟩] with ⟨hread, hheight⟩
  refine ⟨?_, hheight⟩
  rcases (hread 4 [1] (by decide)).1 with hfound | ⟨hnone, -⟩
  · exact hfound
  · exact absurd ⟨rfl, by decide⟩ (hnone ⟨3, ⟨[1], [7], false⟩⟩ (by decide))

end Titan.Database.ArchiveDB
