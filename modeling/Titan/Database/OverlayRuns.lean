import Titan.Database.Overlay

/-!
# Titan.Database.OverlayRuns — runs of versiondb

A session is a `versiondb` with the iterators that were made so far and what each has
returned. `versiondb_overlays` follows any sequence of operations next to an `Overlay`: the
map of the database below, the map that is read, and the iterators with the map that was
read when they were made.
-/

namespace Titan.Database

open Lib

inductive Op
  | put (key value : Bytes)
  | delete (key : Bytes)
  | write (ops : List BatchOp)
  | commit (walk : Walk (Sigma fun _ : Bytes => ValueDelete))
  | abort
  | has (key : Bytes)
  | get (key : Bytes)
  | newIterator (r : Range)
  /-- `Next` of the iterator that was made as number `i`. -/
  | next (i : ℕ)

variable {S : Store Bytes Bytes Range}

/-! ## Sessions -/

/-- An iterator and what it has returned so far; `none` stands for its end. -/
structure Cursor (S : Store Bytes Bytes Range) where
  it : Iterator S
  returned : List (Option (Bytes × Bytes))

def Cursor.next (db : S.State) (c : Cursor S) : Cursor S :=
  let (hasNext, it) := c.it.next db
  ⟨it, c.returned ++ [if hasNext then some (it.key, it.value) else none]⟩

structure Session (S : Store Bytes Bytes Range) where
  vdb : VersionDB S
  cursors : List (Cursor S)

namespace Session

def step (s : Session S) : Op → Session S
  | .put key value => { s with vdb := s.vdb.put key value }
  | .delete key => { s with vdb := s.vdb.delete key }
  | .write ops => { s with vdb := s.vdb.write ops }
  | .commit walk => { s with vdb := s.vdb.commit walk }
  | .abort => { s with vdb := s.vdb.abort }
  | .has _ => s
  | .get _ => s
  | .newIterator r => { s with cursors := s.cursors ++ [⟨s.vdb.newIteratorWithStartAndPrefix r, []⟩] }
  | .next i => { s with cursors := s.cursors.modify i (Cursor.next s.vdb.db) }

def run (db : S.State) (ops : List Op) : Session S := ops.foldl step ⟨VersionDB.new db, []⟩

end Session

/-! ## The abstract overlay -/

structure Overlay where
  base : Bytes → Option Bytes
  view : Bytes → Option Bytes
  iterators : List ((Bytes → Option Bytes) × Range)

namespace Overlay

def step (o : Overlay) : Op → Overlay
  | .put key value => { o with view := Function.update o.view key (some value) }
  | .delete key => { o with view := Function.update o.view key none }
  | .write ops =>
    { o with view := overwrite o.view (ops.map fun op => (op.key, if op.delete then none else some op.value)) }
  | .commit _ => { o with base := o.view }
  | .abort => { o with view := o.base }
  | .newIterator r => { o with iterators := o.iterators ++ [(o.view, r)] }
  | .has _ | .get _ | .next _ => o

def run (base : Bytes → Option Bytes) (ops : List Op) : Overlay := ops.foldl step ⟨base, base, []⟩

end Overlay

/-- What an iterator has returned are the first entries of its map in the range, in
order, and then its end. -/
def Cursor.Returns (c : Cursor S) (iterator : (Bytes → Option Bytes) × Range) : Prop :=
  ∃ l, Listing iterator.1 iterator.2.Contains l ∧
    ∀ i < c.returned.length, c.returned[i]? = some l[i]?

/-- The session shows the overlay. -/
structure Session.Shows (law : S.Law Range.Contains) (s : Session S) (o : Overlay) : Prop where
  base : law.content s.vdb.db = o.base
  get : ∀ key, s.vdb.get key = o.view key
  has : ∀ key, s.vdb.has key = (o.view key).isSome
  iterators : List.Forall₂ Cursor.Returns s.cursors o.iterators

/-! ## The simulation -/

section Simulation

variable (law : S.Law Range.Contains)

/-- What an iterator has returned and what it still returns make up a listing. -/
def Cursor.Follows (c : Cursor S) (iterator : (Bytes → Option Bytes) × Range) : Prop :=
  ∃ l, Listing iterator.1 iterator.2.Contains l ∧ c.it.Yields law (l.drop c.returned.length) ∧
    ∀ i < c.returned.length, c.returned[i]? = some l[i]?

structure Simulates (s : Session S) (o : Overlay) : Prop where
  base : law.content s.vdb.db = o.base
  view : s.vdb.view law = o.view
  iterators : List.Forall₂ (Cursor.Follows law) s.cursors o.iterators

variable {law}

theorem Cursor.Follows.next {c : Cursor S} {iterator : (Bytes → Option Bytes) × Range}
    (h : c.Follows law iterator) (db : S.State) : (c.next db).Follows law iterator := by
  rcases h with ⟨l, hl, hyields, hreturned⟩
  have hmoved := next_moved law db hyields
  have hlen : (c.next db).returned.length = c.returned.length + 1 := by simp [Cursor.next]
  -- the iterator moves to the entry after those that it has returned
  have hlast : (c.it.next db).2.Yields law (l.drop (c.returned.length + 1)) ∧
      (if (c.it.next db).1 then some ((c.it.next db).2.key, (c.it.next db).2.value) else none) =
        l[c.returned.length]? := by
    rcases hdrop : l.drop c.returned.length with _ | ⟨e, rest⟩
    · rw [hdrop] at hmoved
      have hend : l.length ≤ c.returned.length := List.drop_eq_nil_iff.mp hdrop
      rw [List.drop_eq_nil_of_le (by omega), List.getElem?_eq_none hend, hmoved.1]
      exact ⟨hmoved.2, rfl⟩
    · rw [hdrop] at hmoved
      rcases hmoved with ⟨hnext, hkey, hvalue, hrest⟩
      have hget : l[c.returned.length]? = some e := by
        rw [← List.head?_drop, hdrop]
        rfl
      have htail : l.drop (c.returned.length + 1) = rest := by
        rw [← List.tail_drop, hdrop]
        rfl
      rw [htail, hget, hnext, hkey, hvalue]
      exact ⟨hrest, rfl⟩
  refine ⟨l, hl, by rw [hlen]; exact hlast.1, ?_⟩
  intro i hi
  show (c.returned ++ [_])[i]? = some l[i]?
  by_cases hlt : i < c.returned.length
  · rw [List.getElem?_append_left hlt]
    exact hreturned i hlt
  · have heq : i = c.returned.length := by omega
    subst heq
    rw [List.getElem?_concat_length]
    exact congrArg some hlast.2

theorem Simulates.modify {cursors : List (Cursor S)} {iterators : List ((Bytes → Option Bytes) × Range)}
    (h : List.Forall₂ (Cursor.Follows law) cursors iterators) (db : S.State) (i : ℕ) :
    List.Forall₂ (Cursor.Follows law) (cursors.modify i (Cursor.next db)) iterators := by
  induction h generalizing i with
  | nil =>
    rw [List.modify_nil]
    exact List.Forall₂.nil
  | cons hhead htail ih =>
    cases i with
    | zero => exact List.Forall₂.cons (hhead.next db) htail
    | succ i => exact List.Forall₂.cons hhead (ih i)

theorem Simulates.step {s : Session S} {o : Overlay} (h : Simulates law s o) (op : Op) :
    Simulates law (s.step op) (o.step op) := by
  cases op with
  | put key value =>
    refine ⟨h.base, ?_, h.iterators⟩
    exact (view_insert law s.vdb key _).trans (by rw [h.view]; rfl)
  | delete key =>
    refine ⟨h.base, ?_, h.iterators⟩
    exact (view_insert law s.vdb key _).trans (by rw [h.view]; rfl)
  | write ops =>
    refine ⟨h.base, ?_, h.iterators⟩
    exact (view_write law s.vdb ops).trans (by rw [h.view]; rfl)
  | commit walk =>
    -- the changes are gone and the database below has become the view
    have hcontent := (content_commit law s.vdb walk).trans h.view
    exact ⟨hcontent, (view_of_no_changes law rfl).trans hcontent, h.iterators⟩
  | abort => exact ⟨h.base, (view_of_no_changes law rfl).trans h.base, h.iterators⟩
  | has key => exact h
  | get key => exact h
  | newIterator r =>
    rcases yields_newIterator law s.vdb r with ⟨l, hl, hyields⟩
    refine ⟨h.base, h.view, List.rel_append h.iterators (List.Forall₂.cons ?_ List.Forall₂.nil)⟩
    exact ⟨l, h.view ▸ hl, hyields, by simp⟩
  | next i => exact ⟨h.base, h.view, Simulates.modify h.iterators s.vdb.db i⟩

theorem simulates_run (law : S.Law Range.Contains) (db : S.State) (ops : List Op) :
    Simulates law (Session.run db ops) (Overlay.run (law.content db) ops) := by
  induction ops using List.reverseRecOn with
  | nil => exact ⟨rfl, view_of_no_changes law rfl, List.Forall₂.nil⟩
  | append_singleton ops op ih =>
    rw [Session.run, Overlay.run, List.foldl_append, List.foldl_append]
    exact ih.step op

theorem Simulates.shows {s : Session S} {o : Overlay} (h : Simulates law s o) : s.Shows law o where
  base := h.base
  get key := by rw [get_eq_view law, h.view]
  has key := by rw [has_eq_view law, h.view]
  iterators := h.iterators.imp fun c iterator hfollows => by
    rcases hfollows with ⟨l, hl, -, hreturned⟩
    exact ⟨l, hl, hreturned⟩

end Simulation

/-- Every run of `versiondb` shows the abstract overlay, and the database below changes
only when it is committed, by one batch. -/
theorem versiondb_overlays (law : S.Law Range.Contains) (db : S.State) (ops : List Op) :
    (Session.run db ops).Shows law (Overlay.run (law.content db) ops) ∧
      ∀ op, ((Session.run db ops).step op).vdb.db = (Session.run db ops).vdb.db ∨
        ∃ walk, op = .commit walk ∧ ∃ batch,
          ((Session.run db ops).step op).vdb.db = S.write (Session.run db ops).vdb.db batch := by
  refine ⟨(simulates_run law db ops).shows, fun op => ?_⟩
  cases op with
  | commit walk => exact .inr ⟨walk, rfl, _, rfl⟩
  | _ => exact .inl rfl

/-- `versiondb` over the database in memory. -/
theorem versiondb_overlays_memdb :
    (Session.run (S := MemDB.store) (∅ : MemDB) [.put [1] [10], .newIterator ⟨[], []⟩, .abort, .next 0]).Shows
      MemDB.law (Overlay.run (fun _ => none) [.put [1] [10], .newIterator ⟨[], []⟩, .abort, .next 0]) :=
  (versiondb_overlays MemDB.law (∅ : MemDB) [.put [1] [10], .newIterator ⟨[], []⟩, .abort, .next 0]).1

/-- Committing a `versiondb` and then the one below it writes what the run shows. -/
theorem commits_through (law : S.Law Range.Contains) (db : VersionDB S) (ops : List Op)
    (walk walk' : Walk (Sigma fun _ : Bytes => ValueDelete)) :
    law.content (VersionDB.commit ((Session.run (S := VersionDB.store S) db ops).vdb.commit walk).db walk').db =
      (Overlay.run (db.view law) ops).view :=
  calc
    _ = _ := content_commit law _ walk'
    _ = _ := content_commit (VersionDB.law law) _ walk
    _ = _ := (simulates_run (VersionDB.law law) db ops).view

end Titan.Database
