import Titan.Bootstrap.Tracked

/-!
# Titan.Bootstrap.Sessions — what a session of bootstrapping relies on

The blocks of a chain are fetched, stored and executed in sessions that can end anywhere:

* the database is `Consistent`: it holds a block of the chain for exactly the heights of
  its intervals, also without a batch that was not written;
* while blocks are fetched, every interval that starts above the next height has its
  parent among the missing blocks (`Wanted`);
* while blocks are executed, no height is missing between the last accepted one and the
  ones that are left (`Executing`).
-/

namespace Titan.Bootstrap

open Lib
open Database (Bytes)
open PChain (ID GoMap)

variable {V : Blocks}

/-! ## Chains -/

variable (V) in
/-- The blocks of a chain, one at a height. -/
structure Chain where
  mem : V.Block → Prop
  unique : ∀ {b b'}, mem b → mem b' → V.height b = V.height b' → b = b'
  parent_mem : ∀ {b b'}, mem b → V.id b' = V.parent b → mem b'
  parent_exists : ∀ {b}, mem b → 0 < V.height b → ∃ b', V.id b' = V.parent b

variable (C : Chain V)

/-- The database holds blocks of the chain for the heights of its intervals. -/
structure Consistent (db : DB) : Prop where
  separate : Separate db.intervals
  stored : ∀ height, (db.blocks.lookup height).isSome ↔ Covers db.intervals height
  chain : ∀ {height bytes}, db.blocks.lookup height = some bytes →
    ∃ b, C.mem b ∧ V.height b = height ∧ bytes = V.bytes b

/-- The tree has the intervals of the database. -/
def Matches (tree : Tree) (db : DB) : Prop := ∀ u, tree.knownHeights.lookup u = db.intervals.lookup u

/-- The parent of an interval above the next height is among the IDs. -/
def Wanted (tree : Tree) (lastAccepted : ℕ) (ids : Set ID) : Prop :=
  ∀ ⦃u l⦄, tree.knownHeights.lookup u = some l → lastAccepted + 1 < l →
    ∀ ⦃b⦄, C.mem b → V.height b = l → V.parent b ∈ ids

/-- No tracked height above the last accepted one has an untracked one below it. -/
def Gapless (tree : Tree) (lastAccepted : ℕ) : Prop :=
  ∀ ⦃height x⦄, Covers tree.knownHeights height → lastAccepted < x → x ≤ height → Covers tree.knownHeights x

variable {C} {db : DB} {tree : Tree} {lastAccepted : ℕ}

theorem Consistent.block (h : Consistent C db) {height : ℕ} (hcovers : Covers db.intervals height) :
    ∃ b, C.mem b ∧ V.height b = height ∧ db.blocks.lookup height = some (V.bytes b) := by
  rcases Option.isSome_iff_exists.mp ((h.stored height).mpr hcovers) with ⟨bytes, hbytes⟩
  rcases h.chain hbytes with ⟨b, hmem, hheight, rfl⟩
  exact ⟨b, hmem, hheight, hbytes⟩

theorem Matches.covers (h : Matches tree db) (height : ℕ) :
    Covers tree.knownHeights height ↔ Covers db.intervals height := by
  unfold Covers
  simp only [h _]

theorem Matches.separate (h : Matches tree db) (hdb : Consistent C db) : Separate tree.knownHeights :=
  hdb.separate.congr fun u => (h u).symm

/-- Without missing blocks there are no gaps. -/
theorem Gapless.of_wanted (hdb : Consistent C db) (hmatches : Matches tree db)
    (hwanted : Wanted C tree lastAccepted ∅) : Gapless tree lastAccepted := by
  rintro height x ⟨u, l, hu, hl, hle⟩ hx hxle
  refine ⟨u, l, hu, ?_, hxle.trans hle⟩
  by_contra hlt
  -- the interval would start above the next height
  have hcovers : Covers tree.knownHeights l := ⟨u, l, hu, le_refl _, hl.trans hle⟩
  rcases hdb.block ((hmatches.covers l).mp hcovers) with ⟨b, hmem, hheight, -⟩
  exact hwanted hu (by omega) hmem hheight

/-- Without gaps no block is missing. -/
theorem Gapless.wanted (hseparate : Separate tree.knownHeights) (h : Gapless tree lastAccepted) (ids : Set ID) :
    Wanted C tree lastAccepted ids := by
  intro u l hu hlt b _ _
  have hcovers : Covers tree.knownHeights l := ⟨u, l, hu, le_refl _, hseparate.ordered hu⟩
  exact absurd (h hcovers (by omega) (Nat.sub_le l 1)) (hseparate.not_covers_pred hu (by omega))

/-! ## Adding and removing blocks -/

theorem Consistent.addBlock (h : Consistent C db) (hmatches : Matches tree db) {blk : V.Block}
    (hmem : C.mem blk) (hnot : ¬ Covers tree.knownHeights (V.height blk)) :
    Consistent C (db.write (.putBlock (V.height blk) (V.bytes blk) :: (tree.add (V.height blk)).2)) ∧
    Matches (tree.add (V.height blk)).1
      (db.write (.putBlock (V.height blk) (V.bytes blk) :: (tree.add (V.height blk)).2)) := by
  have hadds := adds_add (hmatches.separate h) hnot (V.height_le blk)
  set db' := db.write (.putBlock (V.height blk) (V.bytes blk) :: (tree.add (V.height blk)).2)
  have hintervals : Matches (tree.add (V.height blk)).1 db' := by
    intro u
    rw [← (tree.add_writes _).1]
    exact lookup_foldl_applyInterval _ hmatches u
  have hblocks : ∀ x, db'.blocks.lookup x =
      if x = V.height blk then some (V.bytes blk) else db.blocks.lookup x := by
    intro x
    unfold db' DB.write
    dsimp only
    rw [List.foldl_cons, (tree.add_writes _).2]
    exact lookup_insert_ite _ _ _ _
  refine ⟨⟨?_, ?_, ?_⟩, hintervals⟩
  · exact hadds.separate.congr hintervals
  · intro height
    rw [← hintervals.covers, hadds.covers, hmatches.covers, ← h.stored, hblocks]
    split
    next heq => simp [heq]
    next hne => simp [hne]
  · intro height bytes hbytes
    rw [hblocks] at hbytes
    split at hbytes
    next heq => exact ⟨blk, hmem, heq.symm, (Option.some.inj hbytes).symm⟩
    next => exact h.chain hbytes

theorem lookup_removeBlock (db : DB) (tree : Tree) (height x : ℕ) :
    (db.write (removeBlock tree height).2).blocks.lookup x =
      if x = height then none else db.blocks.lookup x := by
  unfold DB.write removeBlock
  dsimp only
  rw [List.foldl_cons, (tree.remove_writes _).2]
  exact lookup_erase_ite _ _ _

theorem Consistent.removeBlock (h : Consistent C db) (hmatches : Matches tree db) (height : ℕ) :
    Consistent C (db.write (removeBlock tree height).2) ∧
    Matches (removeBlock tree height).1 (db.write (removeBlock tree height).2) := by
  have hremoves := removes_remove (hmatches.separate h) height
  have hintervals : Matches (Bootstrap.removeBlock tree height).1
      (db.write (Bootstrap.removeBlock tree height).2) := by
    intro u
    show (tree.remove height).1.knownHeights.lookup u = _
    rw [← (tree.remove_writes _).1]
    exact lookup_foldl_applyInterval _ hmatches u
  refine ⟨⟨?_, ?_, ?_⟩, hintervals⟩
  · exact hremoves.separate.congr hintervals
  · intro x
    rw [← hintervals.covers]
    show _ ↔ Covers (tree.remove height).1.knownHeights x
    rw [hremoves.covers, hmatches.covers, ← h.stored, lookup_removeBlock]
    split
    next heq => simp [heq]
    next hne => simp [hne]
  · intro x bytes hbytes
    rw [lookup_removeBlock] at hbytes
    split at hbytes
    next => cases hbytes
    next => exact h.chain hbytes

/-! ## Fetching -/

variable (C) in
/-- The IDs are ones of blocks of the chain. -/
def OnChain (ids : Finset ID) : Prop := ∀ i ∈ ids, ∃ b, C.mem b ∧ V.id b = i

variable (C) in
/-- While blocks are fetched: what is written or in the batch, and the missing blocks with
some more. -/
structure Fetched (db : DB) (lastAccepted : ℕ) (f : Fetch) (more : Option ID) : Prop where
  consistent : Consistent C (db.write f.batch)
  matched : Matches f.tree (db.write f.batch)
  onChain : OnChain C f.missingBlockIDs
  wanted : Wanted C f.tree lastAccepted {i | i ∈ f.missingBlockIDs ∨ more = some i}

/-- Blocks under their IDs, as the ancestors of a block are kept. -/
def ByID (ancestors : GoMap ID V.Block) : Prop := ∀ ⦃i b⦄, ancestors.lookup i = some b → V.id b = i

section Process

variable {f : Fetch} {blk : V.Block} {ids : Finset ID}

/-- A block whose parent is not wanted leaves no gap. -/
theorem Wanted.erase (hmatches : Separate tree.knownHeights)
    (h : Wanted C tree lastAccepted {i | i ∈ ids ∨ some (V.id blk) = some i})
    (hdone : V.height blk ≤ lastAccepted ∨ Covers tree.knownHeights (V.height blk)) :
    Wanted C tree lastAccepted {i | i ∈ ids.erase (V.id blk) ∨ none = some i} := by
  intro u l hu hlt b hmem hheight
  have hparent := h hu hlt hmem hheight
  by_cases heq : V.id blk = V.parent b
  · -- then the block is right below the interval
    have hpred := V.parent_height b blk heq
    rcases hdone with hle | hcovers
    · omega
    · have hl : V.height blk = l - 1 := by omega
      exact absurd (hl ▸ hcovers) (hmatches.not_covers_pred hu (by omega))
  · left
    rcases hparent with hin | hid
    · exact Finset.mem_erase.mpr ⟨Ne.symm heq, hin⟩
    · exact absurd (Option.some.inj hid) heq

/-- A block that is added leaves a gap only below itself. -/
theorem Wanted.add (hmem : C.mem blk)
    (hadds : Adds tree.knownHeights (tree.add (V.height blk)).1.knownHeights (V.height blk))
    (h : Wanted C tree lastAccepted {i | i ∈ ids ∨ some (V.id blk) = some i}) :
    Wanted C (tree.add (V.height blk)).1 lastAccepted
      {i | i ∈ ids.erase (V.id blk) ∨ some (V.parent blk) = some i} := by
  intro u l hu hlt b hb hheight
  rcases hadds.lower hu with ⟨hne, heq | ⟨u', hu'⟩⟩
  · -- the interval of the block starts with it
    obtain rfl := C.unique hmem hb (heq.symm.trans hheight.symm)
    exact .inr rfl
  · rcases h hu' hlt hb hheight with hin | hid
    · left
      refine Finset.mem_erase.mpr ⟨fun hid => ?_, hin⟩
      have := V.parent_height b blk hid.symm
      omega
    · have := V.parent_height b blk (Option.some.inj hid)
      omega

/-- The gap below a block is closed by the last accepted block or by a tracked one. -/
theorem Wanted.settled (hseparate : Separate tree.knownHeights)
    (h : Wanted C tree lastAccepted {i | i ∈ ids ∨ some (V.parent blk) = some i})
    (hsettled : V.height blk - 1 = lastAccepted ∨ Covers tree.knownHeights (V.height blk - 1)) :
    Wanted C tree lastAccepted {i | i ∈ ids ∨ none = some i} := by
  intro u l hu hlt b hb hheight
  rcases h hu hlt hb hheight with hin | hid
  · exact .inl hin
  · -- blocks with one parent are at one height
    rcases C.parent_exists hb (by omega) with ⟨b', hb'⟩
    have hblk := V.parent_height blk b' (hb'.trans (Option.some.inj hid).symm)
    have hparent := V.parent_height b b' hb'
    rcases hsettled with heq | hcovers
    · omega
    · have hl : V.height blk - 1 = l - 1 := by omega
      exact absurd (hl ▸ hcovers) (hseparate.not_covers_pred hu (by omega))

/-- What a call of `process` does. -/
structure Processed (C : Chain V) (db : DB) (lastAccepted : ℕ) (f f' : Fetch) (blk : V.Block)
    (missing : Option ID) : Prop where
  fetched : Fetched C db lastAccepted f' missing
  erased : f'.missingBlockIDs ⊆ f.missingBlockIDs.erase (V.id blk)
  grows : ∀ x, Covers f.tree.knownHeights x → Covers f'.tree.knownHeights x
  onChain : ∀ i, missing = some i → ∃ b, C.mem b ∧ V.id b = i
  /-- A block is only missing if one was added. -/
  added : missing.isSome → ∃ x, ¬ Covers f.tree.knownHeights x ∧ Covers f'.tree.knownHeights x

variable {ancestors : GoMap ID V.Block}

theorem processLoop_spec (hancestors : ByID ancestors) (fuel : ℕ)
    (hfuel : V.height blk < fuel) (hmem : C.mem blk) (h : Fetched C db lastAccepted f (some (V.id blk))) :
    ∃ f' missing, processLoop V lastAccepted ancestors fuel f blk = some (f', missing) ∧
      Processed C db lastAccepted f f' blk missing := by
  induction fuel generalizing f blk with
  | zero => cases hfuel
  | succ fuel ih =>
    have hseparate := h.matched.separate h.consistent
    have hcontains : f.tree.contains (V.height blk) = true ↔ Covers f.tree.knownHeights (V.height blk) :=
      contains_iff hseparate
    have herase : OnChain C (f.missingBlockIDs.erase (V.id blk)) :=
      fun i hi => h.onChain i (Finset.mem_of_mem_erase hi)
    rw [processLoop]
    unfold Bootstrap.addBlock
    by_cases hdone : V.height blk ≤ lastAccepted ∨ f.tree.contains (V.height blk)
    · rw [if_pos hdone]
      have hwanted := h.wanted.erase hseparate (hdone.imp_right hcontains.mp)
      refine ⟨_, none, rfl, ⟨⟨?_, ?_, herase, hwanted⟩, subset_refl _, fun _ => id, ?_, ?_⟩⟩
      · rw [List.append_nil]
        exact h.consistent
      · rw [List.append_nil]
        exact h.matched
      · intro i hi
        cases hi
      · exact nofun
    · rw [if_neg hdone]
      rw [not_or, hcontains] at hdone
      have hadds := adds_add hseparate hdone.2 (V.height_le blk)
      have hwanted := h.wanted.add hmem hadds
      have hnew : Covers (f.tree.add (V.height blk)).1.knownHeights (V.height blk) :=
        (hadds.covers _).mpr (.inr rfl)
      have hgrows : ∀ x, Covers f.tree.knownHeights x → Covers (f.tree.add (V.height blk)).1.knownHeights x :=
        fun x hx => (hadds.covers x).mpr (.inl hx)
      rcases h.consistent.addBlock h.matched hmem hdone.2 with ⟨hconsistent, hmatched⟩
      rw [← write_append] at hconsistent hmatched
      dsimp only
      by_cases hparent : V.height blk - 1 ≠ lastAccepted ∧
          ¬ (f.tree.add (V.height blk)).1.contains (V.height blk - 1)
      · rw [decide_eq_true hparent, Bool.not_true, if_neg Bool.false_ne_true]
        rcases hlookup : ancestors.lookup (V.parent blk) with _ | parent
        · refine ⟨_, some (V.parent blk), rfl, ⟨⟨hconsistent, hmatched, herase, hwanted⟩, subset_refl _,
            hgrows, ?_, fun _ => ⟨_, hdone.2, hnew⟩⟩⟩
          intro i hi
          rcases C.parent_exists hmem (by omega) with ⟨b, hb⟩
          exact ⟨b, C.parent_mem hmem hb, hb.trans (Option.some.inj hi)⟩
        · -- the loop goes on with the parent
          have hid := hancestors hlookup
          have hlower := V.parent_height blk parent hid
          rw [← hid] at hwanted
          rcases ih (f := ⟨_, f.missingBlockIDs.erase (V.id blk), _⟩) (by omega) (C.parent_mem hmem hid)
            ⟨hconsistent, hmatched, herase, hwanted⟩ with ⟨f', missing, hloop, hprocessed⟩
          refine ⟨f', missing, hloop, ⟨hprocessed.fetched, ?_, ?_, hprocessed.onChain, ?_⟩⟩
          · exact hprocessed.erased.trans (Finset.erase_subset _ _)
          · exact fun x hx => hprocessed.grows x (hgrows x hx)
          · exact fun _ => ⟨_, hdone.2, hprocessed.grows _ hnew⟩
      · rw [decide_eq_false hparent, Bool.not_false, if_pos rfl]
        have hsettled : V.height blk - 1 = lastAccepted ∨
            Covers (f.tree.add (V.height blk)).1.knownHeights (V.height blk - 1) := by
          rw [← contains_iff hadds.separate]
          tauto
        refine ⟨_, none, rfl, ⟨⟨hconsistent, hmatched, herase, hwanted.settled hadds.separate hsettled⟩,
          subset_refl _, hgrows, ?_, ?_⟩⟩
        · intro i hi
          cases hi
        · exact nofun

theorem process_spec (hancestors : ByID ancestors) {missingBlockIDs : Finset ID}
    (hmem : C.mem blk) (h : Fetched C db lastAccepted ⟨tree, missingBlockIDs, []⟩ none) :
    ∃ f' missing, process V tree missingBlockIDs lastAccepted blk ancestors = some (f', missing) ∧
      Processed C db lastAccepted ⟨tree, missingBlockIDs, []⟩ f' blk missing := by
  refine processLoop_spec hancestors _ (Nat.lt_succ_self _) hmem ⟨h.consistent, h.matched, h.onChain, ?_⟩
  intro u l hu hlt b hb hheight
  rcases h.wanted hu hlt hb hheight with hin | hnone
  · exact .inl hin
  · cases hnone

end Process

/-! ## Starting -/

/-- The loop of `NewTree` inserts every interval. -/
theorem lookup_insertAll (l : List (ℕ × ℕ)) (t : Tree) :
    (fun u => ((l.map Interval.ofEntry).foldl (fun t i =>
      (⟨t.knownHeights.insert i.upperBound i.lowerBound,
        t.numKnownHeights + (BitVec.ofNat 64 i.upperBound - BitVec.ofNat 64 i.lowerBound + 1)⟩ : Tree))
      t).knownHeights.lookup u) =
    overwrite (fun u => t.knownHeights.lookup u) (l.map fun e => (e.1, some e.2)) := by
  induction l generalizing t with
  | nil => rfl
  | cons e l ih =>
    rw [List.map_cons, List.map_cons, List.foldl_cons, overwrite_cons, ih]
    congr 1
    funext u
    dsimp only [Interval.ofEntry]
    rw [lookup_insert_ite, Function.update_apply]

theorem matches_newTree (db : DB) : Matches (Tree.newTree db) db := by
  have hlisting := listing_sortedEntries (fun _ => True) db.intervals
  have hfold := lookup_insertAll (sortedEntries (fun _ => True) db.intervals) ⟨∅, 0⟩
  intro u
  refine (congrFun hfold u).trans ?_
  rcases hlookup : db.intervals.lookup u with _ | l
  · rw [overwrite_of_notMem]
    · rfl
    · rw [List.map_map]
      intro hmem
      rcases List.mem_map.mp hmem with ⟨e, he, rfl⟩
      rw [Function.comp_apply, (hlisting.mem_entry he).2] at hlookup
      cases hlookup
  · refine overwrite_of_mem ?_ (List.mem_map.mpr ⟨(u, l), (hlisting.mem u l).mpr ⟨trivial, hlookup⟩, rfl⟩)
    rw [List.map_map]
    exact List.pairwise_map.mpr (hlisting.sorted.imp fun {a b} hlt => ne_of_lt hlt)

theorem parentAt_eq (hdb : Consistent C db) {height : ℕ} (hcovers : Covers db.intervals height) :
    ∃ b, C.mem b ∧ V.height b = height ∧ parentAt V db height = .ok (V.parent b) := by
  rcases hdb.block hcovers with ⟨b, hmem, hheight, hlookup⟩
  refine ⟨b, hmem, hheight, ?_⟩
  unfold parentAt
  rw [hlookup]
  dsimp only
  rw [V.parse_bytes]

/-- The loop of `getMissingBlockIDs` collects the parents of the intervals above a height. -/
theorem foldlM_missing (hdb : Consistent C db) (bound : ℕ) (l : List Interval)
    (hl : ∀ i ∈ l, Covers db.intervals i.lowerBound) (ids : Finset ID) (hids : OnChain C ids) :
    ∃ ids', l.foldlM (fun missingBlocks i =>
        if i.lowerBound ≤ bound then (.ok missingBlocks : Except StorageErr (Finset ID))
        else (parentAt V db i.lowerBound).map fun parentID => insert parentID missingBlocks) ids = .ok ids' ∧
      ids ⊆ ids' ∧ OnChain C ids' ∧
      ∀ i ∈ l, bound < i.lowerBound → ∀ b, C.mem b → V.height b = i.lowerBound → V.parent b ∈ ids' := by
  induction l generalizing ids with
  | nil => exact ⟨ids, rfl, subset_refl _, hids, nofun⟩
  | cons i l ih =>
    have hrest : ∀ j ∈ l, Covers db.intervals j.lowerBound := fun j hj => hl j (List.mem_cons_of_mem _ hj)
    rw [List.foldlM_cons]
    by_cases hle : i.lowerBound ≤ bound
    · rw [if_pos hle]
      rcases ih hrest ids hids with ⟨ids', hfold, hsub, hids', hwanted⟩
      refine ⟨ids', hfold, hsub, hids', fun j hj hlt b hb hheight => ?_⟩
      rcases List.mem_cons.mp hj with rfl | hj
      · exact absurd hle (not_le.mpr hlt)
      · exact hwanted j hj hlt b hb hheight
    · rcases parentAt_eq hdb (hl i List.mem_cons_self) with ⟨b, hb, hheight, hparent⟩
      have hinsert : OnChain C (insert (V.parent b) ids) := by
        intro x hx
        rcases Finset.mem_insert.mp hx with rfl | hx
        · rcases C.parent_exists hb (by omega) with ⟨b', hb'⟩
          exact ⟨b', C.parent_mem hb hb', hb'⟩
        · exact hids x hx
      rw [if_neg hle, hparent]
      rcases ih hrest (insert (V.parent b) ids) hinsert with ⟨ids', hfold, hsub, hids', hwanted⟩
      refine ⟨ids', hfold, (Finset.subset_insert _ _).trans hsub, hids', fun j hj hlt b' hb' hheight' => ?_⟩
      rcases List.mem_cons.mp hj with rfl | hj
      · -- the chain has one block at the height
        obtain rfl := C.unique hb hb' (hheight.trans hheight'.symm)
        exact hsub (Finset.mem_insert_self _ _)
      · exact hwanted j hj hlt b' hb' hheight'

/-- A restart finds the parents of all gaps. -/
theorem getMissingBlockIDs_spec (hdb : Consistent C db) (hmatched : Matches tree db) :
    ∃ ids, getMissingBlockIDs V db tree lastAccepted = .ok ids ∧
      Fetched C db lastAccepted ⟨tree, ids, []⟩ none := by
  have hlisting := listing_sortedEntries (fun _ => True) tree.knownHeights
  have hseparate := hmatched.separate hdb
  have hcovers : ∀ i ∈ tree.flatten, Covers db.intervals i.lowerBound := by
    intro i hi
    rcases List.mem_map.mp hi with ⟨e, he, rfl⟩
    have hentry := (hlisting.mem_entry he).2
    exact (hmatched.covers _).mp ⟨e.1, e.2, hentry, le_refl _, hseparate.ordered hentry⟩
  rcases foldlM_missing hdb ((lastAccepted + 1) % 2 ^ 64) tree.flatten hcovers ∅
    (nofun) with ⟨ids, hfold, -, hids, hwanted⟩
  refine ⟨ids, hfold, hdb, hmatched, hids, fun u l hu hlt b hb hheight => .inl ?_⟩
  have hmem : Interval.ofEntry (u, l) ∈ tree.flatten :=
    List.mem_map_of_mem ((hlisting.mem u l).mpr ⟨trivial, hu⟩)
  exact hwanted _ hmem (by show _ < l; omega) b hb hheight

/-! ## Executing -/

section Execute

variable {e : Execution}

/-- What is left of the tracked blocks, in the order in which they are executed. -/
structure Executing (C : Chain V) (db : DB) (lastAccepted : ℕ) (tree : Tree) (e : Execution) : Prop where
  disk : Consistent C db
  pending : Consistent C (db.write e.batch)
  matched : Matches tree (db.write e.batch)
  flushed : e.processedSinceBatchWrite = 0 → e.batch = []
  iterator : Listing (fun height => (db.write e.batch).blocks.lookup height) (fun _ => True) e.iterator
  started : e.lastAcceptedHeight ≤ lastAccepted
  above : ∀ x, Covers tree.knownHeights x → x ≤ e.lastAcceptedHeight ∨ lastAccepted < x
  gapless : Gapless tree lastAccepted

theorem Executing.new (h : Fetched C db lastAccepted ⟨tree, ∅, []⟩ none) :
    Executing C db lastAccepted tree (Execution.new db lastAccepted) where
  disk := h.consistent
  pending := h.consistent
  matched := h.matched
  flushed _ := rfl
  iterator := listing_sortedEntries _ _
  started := le_refl _
  above x _ := le_or_gt x lastAccepted
  gapless := by
    refine Gapless.of_wanted h.consistent h.matched fun u l hu hlt b hb hheight => ?_
    rcases h.wanted hu hlt hb hheight with hin | hnone
    · cases hin
    · cases hnone

theorem writeBatch_db (hflushed : e.processedSinceBatchWrite = 0 → e.batch = []) :
    (e.writeBatch db).1 = db.write e.batch := by
  unfold Execution.writeBatch
  split
  next heq =>
    rw [hflushed heq]
    rfl
  next => rfl

/-- A written batch is empty. -/
theorem writeBatch_batch (db : DB) (hflushed : e.processedSinceBatchWrite = 0 → e.batch = []) :
    (e.writeBatch db).2.batch = [] ∧ (e.writeBatch db).2.iterator = e.iterator ∧
      (e.writeBatch db).2.lastAcceptedHeight = e.lastAcceptedHeight := by
  unfold Execution.writeBatch
  split
  next heq => exact ⟨hflushed heq, rfl, rfl⟩
  next => exact ⟨rfl, rfl, rfl⟩

/-- When `execute` returns, the fetched state is as the blocks that are left say. -/
theorem Executing.returned (h : Executing C db lastAccepted tree e) :
    Fetched C (e.writeBatch db).1 lastAccepted ⟨tree, ∅, []⟩ none := by
  rw [writeBatch_db h.flushed]
  refine ⟨h.pending, h.matched, nofun, ?_⟩
  exact h.gapless.wanted (h.matched.separate h.pending) _

/-- The iterator is at the least height that is left. -/
theorem Executing.head (h : Executing C db lastAccepted tree e) {entry : ℕ × Bytes} {rest : List (ℕ × Bytes)}
    (hiterator : e.iterator = entry :: rest) :
    ∃ blk, V.parseBlock entry.2 = some blk ∧ C.mem blk ∧ V.height blk = entry.1 ∧
      Covers tree.knownHeights entry.1 ∧ ∀ x, Covers tree.knownHeights x → entry.1 ≤ x := by
  have hlisting := h.iterator
  rw [hiterator] at hlisting
  have hentry := (hlisting.mem_entry List.mem_cons_self).2
  rcases h.pending.chain hentry with ⟨blk, hmem, hheight, hbytes⟩
  refine ⟨blk, ?_, hmem, hheight, ?_, fun x hx => ?_⟩
  · rw [hbytes, V.parse_bytes]
  · rw [h.matched.covers, ← h.pending.stored]
    exact Option.isSome_iff_exists.mpr ⟨_, hentry⟩
  · rw [h.matched.covers, ← h.pending.stored] at hx
    rcases Option.isSome_iff_exists.mp hx with ⟨bytes, hbytes⟩
    exact hlisting.least trivial hbytes

/-- The database after the batch, written now or later. -/
structure Pending (db : DB) (e : Execution) (target : DB) : Prop where
  target : db.write e.batch = target
  flushed : e.processedSinceBatchWrite = 0 → e.batch = []

theorem Pending.writeBatch {target : DB} (h : Pending db e target) :
    (e.writeBatch db).1 = target ∧ Pending (e.writeBatch db).1 (e.writeBatch db).2 target := by
  have hdb : (e.writeBatch db).1 = target := (writeBatch_db h.flushed).trans h.target
  have hbatch := (writeBatch_batch db h.flushed).1
  refine ⟨hdb, ?_, fun _ => hbatch⟩
  rw [hdb, hbatch]
  rfl

/-- Batches and iterators after a removal: nothing is lost, and the database is as before or
as after the removal. -/
theorem removed_spec (db : DB) (e : Execution) (height : ℕ) (ops : List DBOp) :
    Pending (e.removed db height ops).1 (e.removed db height ops).2 (db.write (e.batch ++ ops)) ∧
    ((e.removed db height ops).1 = db ∨ (e.removed db height ops).1 = db.write (e.batch ++ ops)) ∧
    (e.removed db height ops).2.lastAcceptedHeight = e.lastAcceptedHeight ∧
    ((e.removed db height ops).2.iterator = e.iterator ∨
      (e.removed db height ops).2.iterator =
        getBlockIteratorWithStart (db.write (e.batch ++ ops)) ((height + 1) % 2 ^ 64)) := by
  set e₁ : Execution := { e with
    batch := e.batch ++ ops, processedSinceBatchWrite := e.processedSinceBatchWrite + 1 } with he₁
  have hpending₁ : Pending db e₁ (db.write (e.batch ++ ops)) :=
    ⟨rfl, nofun⟩
  -- the batch is written each time it has grown to its period
  set r₂ := if batchWritePeriod ≤ e₁.processedSinceBatchWrite then e₁.writeBatch db else (db, e₁) with hr₂
  have h₂ : Pending r₂.1 r₂.2 (db.write (e.batch ++ ops)) ∧ (r₂.1 = db ∨ r₂.1 = db.write (e.batch ++ ops)) ∧
      r₂.2.lastAcceptedHeight = e.lastAcceptedHeight ∧ r₂.2.iterator = e.iterator := by
    rw [hr₂]
    split
    · have hwrite := writeBatch_batch db hpending₁.flushed
      exact ⟨hpending₁.writeBatch.2, .inr hpending₁.writeBatch.1, hwrite.2.2, hwrite.2.1⟩
    · exact ⟨hpending₁, .inl rfl, rfl, rfl⟩
  set e₃ : Execution := { r₂.2 with
    processedSinceIteratorRelease := r₂.2.processedSinceIteratorRelease + 1 } with he₃
  have hpending₃ : Pending r₂.1 e₃ (db.write (e.batch ++ ops)) := ⟨h₂.1.target, h₂.1.flushed⟩
  have hremoved : e.removed db height ops =
      if iteratorReleasePeriod ≤ e₃.processedSinceIteratorRelease then
        ((e₃.writeBatch r₂.1).1, { (e₃.writeBatch r₂.1).2 with
          processedSinceIteratorRelease := 0
          iterator := getBlockIteratorWithStart (e₃.writeBatch r₂.1).1 ((height + 1) % 2 ^ 64) })
      else (r₂.1, e₃) := rfl
  rw [hremoved]
  split
  · rcases hpending₃.writeBatch with ⟨hdb, hpending⟩
    have hwrite := writeBatch_batch r₂.1 hpending₃.flushed
    refine ⟨⟨hpending.target, hpending.flushed⟩, .inr hdb, hwrite.2.2.trans h₂.2.2.1, .inr ?_⟩
    rw [hdb]
  · exact ⟨hpending₃, h₂.2.1, h₂.2.2.1, .inl h₂.2.2.2⟩

/-- The next block is removed. If it was accepted before, the last accepted height stays;
if not, it is the block after the last accepted one. -/
theorem Executing.removed (h : Executing C db lastAccepted tree e) {entry : ℕ × Bytes}
    {rest : List (ℕ × Bytes)} (hiterator : e.iterator = entry :: rest) {db' : DB} {e' : Execution}
    (hremoved : Execution.removed { e with iterator := rest } db entry.1 (removeBlock tree entry.1).2 =
      (db', e')) :
    e'.iterator = rest ∧ e'.lastAcceptedHeight = e.lastAcceptedHeight ∧
      (∀ x, Covers (removeBlock tree entry.1).1.knownHeights x ↔
        Covers tree.knownHeights x ∧ x ≠ entry.1) ∧
      (entry.1 ≤ e.lastAcceptedHeight → Executing C db' lastAccepted (removeBlock tree entry.1).1 e') ∧
      (e.lastAcceptedHeight < entry.1 → entry.1 = lastAccepted + 1 ∧
        Executing C db' entry.1 (removeBlock tree entry.1).1 e') := by
  rcases h.head hiterator with ⟨blk, -, -, -, hcovered, hleast⟩
  have hspec := removed_spec db { e with iterator := rest } entry.1 (removeBlock tree entry.1).2
  rw [hremoved] at hspec
  rcases hspec with ⟨hpending, hdisk, hheight, hiter⟩
  rw [write_append] at hpending hdisk hiter
  rcases h.pending.removeBlock h.matched entry.1 with ⟨hconsistent, hmatched⟩
  have hcovers : ∀ x, Covers (removeBlock tree entry.1).1.knownHeights x ↔
      Covers tree.knownHeights x ∧ x ≠ entry.1 := (removes_remove (h.matched.separate h.pending) entry.1).covers
  -- the rest of the old iterator lists what is left, and so does a new one
  have hlisting : Listing (fun height => ((db.write e.batch).write (removeBlock tree entry.1).2).blocks.lookup
      height) (fun _ => True) rest := by
    have hhead := h.iterator
    rw [hiterator] at hhead
    refine hhead.erase_head fun x => ?_
    exact lookup_removeBlock _ _ _ _
  have hrest : e'.iterator = rest := by
    rcases hiter with hsame | hnew
    · exact hsame
    · have hnewListing := listing_sortedEntries ((entry.1 + 1) % 2 ^ 64 ≤ ·)
        ((db.write e.batch).write (removeBlock tree entry.1).2).blocks
      refine hnew.trans ((hnewListing.narrow fun x hx => ?_).unique hlisting)
      rcases (hcovers x).mp ((hmatched.covers x).mpr ((hconsistent.stored x).mp hx)) with ⟨hx, hne⟩
      have := hleast x hx
      exact ⟨fun _ => by omega, fun _ => trivial⟩
  -- what does not depend on the last accepted height
  have hexecuting : ∀ lastAccepted', e.lastAcceptedHeight ≤ lastAccepted' →
      (∀ x, Covers (removeBlock tree entry.1).1.knownHeights x → x ≤ e.lastAcceptedHeight ∨ lastAccepted' < x) →
      Gapless (removeBlock tree entry.1).1 lastAccepted' →
      Executing C db' lastAccepted' (removeBlock tree entry.1).1 e' := by
    intro lastAccepted' hstarted habove hgapless
    refine ⟨?_, ?_, ?_, hpending.flushed, ?_, hheight ▸ hstarted, hheight ▸ habove, hgapless⟩
    · rcases hdisk with rfl | rfl
      · exact h.disk
      · exact hconsistent
    · rw [hpending.target]
      exact hconsistent
    · rw [hpending.target]
      exact hmatched
    · rw [hpending.target, hrest]
      exact hlisting
  refine ⟨hrest, hheight, hcovers, fun hle => ?_, fun hlt => ?_⟩
  · -- the block was accepted in an earlier session
    refine hexecuting lastAccepted h.started (fun x hx => h.above x ((hcovers x).mp hx).1) ?_
    intro height x hx hlt hxle
    have := h.started
    exact (hcovers x).mpr ⟨h.gapless ((hcovers height).mp hx).1 hlt hxle, by omega⟩
  · -- the least height above the last accepted one is the next one
    have hnext : entry.1 = lastAccepted + 1 := by
      rcases h.above entry.1 hcovered with hle | hgt
      · omega
      · have := hleast _ (h.gapless hcovered (Nat.lt_succ_self lastAccepted) hgt)
        omega
    refine ⟨hnext, hexecuting entry.1 (le_of_lt hlt) (fun x hx => .inr ?_) ?_⟩
    · rcases (hcovers x).mp hx with ⟨hx, hne⟩
      exact lt_of_le_of_ne (hleast x hx) (Ne.symm hne)
    · intro height x hx hgt hxle
      exact (hcovers x).mpr ⟨h.gapless ((hcovers height).mp hx).1 (by omega) hxle, by omega⟩

end Execute

end Titan.Bootstrap
