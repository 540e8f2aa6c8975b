import Titan.Snow.LazyResets

/-!
# Titan.Snow.LazyRuns — runs against the reference

A run of the snowball tree, and a run of `Topological`, next to a run of the reference
that takes the same operations. The reference is in the settled state after each step,
so both show the same decisions and preferences.

`vote` writes `ids.Empty` for "no next block". A child with that ID is taken for the
next block and escapes its mark: the result needs blocks with other IDs.
-/

namespace Titan.Snow

variable {U B : Type} (W : Universe) (F : Factory U B) (params : Parameters)

/-! ## Trees -/

namespace Tree

def applyEager (t : Tree U B) : TreeOp → Tree U B
  | .add choice => t.add F params choice
  | .recordPoll votes => (t.recordPollEager F params votes).1
  | .recordUnsuccessfulPoll => t.recordUnsuccessfulPollEager F

variable {F params}

theorem Sound.apply (hF : F.Lawful) {C : F.Counter params} {t : Tree U B} (h : t.Sound C) (op : TreeOp) :
    (t.apply F params op).Sound C ∧
      (t.settle F false).applyEager F params op = (t.apply F params op).settle F false := by
  cases op with
  | add choice => exact ⟨h.add hF choice, (settle_add hF h false choice).symm⟩
  | recordPoll votes => exact ⟨h.recordPoll hF votes, (h.settle_recordPoll hF votes).symm⟩
  | recordUnsuccessfulPoll =>
    refine ⟨h.recordUnsuccessfulPoll hF, ?_⟩
    exact (recordUnsuccessfulPollEager_settle C false t).trans (settle_recordUnsuccessfulPoll t).symm

theorem Sound.run (hF : F.Lawful) {C : F.Counter params} (ops : List TreeOp) {t : Tree U B}
    (h : t.Sound C) :
    ops.foldl (Tree.applyEager F params) (t.settle F false) =
      (ops.foldl (Tree.apply F params) t).settle F false := by
  induction ops generalizing t with
  | nil => rfl
  | cons op ops ih =>
    rcases h.apply hF op with ⟨h', heq⟩
    rw [List.foldl_cons, List.foldl_cons, heq]
    exact ih h'

end Tree

/-! ## Snowman -/

inductive SnowmanOp
  | add (id : ID)
  | recordPoll (ord : Topological.PollOrder) (votes : Bag ID)

/-- Blocks are one above their parents, and polls have at most `K` votes. -/
def SnowmanOp.Legal (W : Universe) (params : Parameters) : SnowmanOp → Prop
  | .add id => W.height id = W.height (W.parent id) + 1
  | .recordPoll ord votes => ord.Lawful ∧ votes.len ≤ params.k

/-- The block that is added has an ID other than `ids.Empty`. -/
def SnowmanOp.Named : SnowmanOp → Prop
  | .add id => id ≠ 0
  | .recordPoll _ _ => True

namespace Topological

/-- A failing `Add` changes nothing. -/
def apply (ts : Topological U B) : SnowmanOp → Option (Topological U B)
  | .add id => some ((ts.add W F params id).toOption.getD ts)
  | .recordPoll ord votes => ts.recordPoll W F params ord votes

def applyEager (ts : Topological U B) : SnowmanOp → Option (Topological U B)
  | .add id => some ((ts.add W F params id).toOption.getD ts)
  | .recordPoll ord votes => ts.recordPollEager W F params ord votes

variable {W F params}

/-- A state of a run of `Topological` whose settled state is the one of the reference. -/
structure Coupled (W : Universe) (C : F.Counter params) (root : ID) (added : List ID)
    (ts : Topological U B) : Prop where
  inv : Inv W root added ts
  cached : ∃ l, Cached W ts l
  sound : TreesSound C ts
  named : (0 : ID) ∉ added

theorem settled_initialize (root : ID) :
    (Initialize W root : Topological U B).settled W F = Initialize W root := by
  have hblocks : ((Initialize W root : Topological U B).settled W F).blocks =
      (Initialize W root : Topological U B).blocks := by
    funext x
    unfold settled Initialize
    rw [mapBlocks_blocks]
    by_cases hx : x = root
    · simp [SnowmanBlock.settle]
    · simp [hx]
  unfold settled mapBlocks at hblocks ⊢
  dsimp only at hblocks
  rw [hblocks]

theorem coupled_initialize (C : F.Counter params) (root : ID) :
    Coupled W C root [] (Initialize W root : Topological U B) := by
  refine ⟨inv_init root, ⟨[], cached_init root⟩, ?_, by simp⟩
  intro x n sb hn hsb
  unfold Initialize at hn
  dsimp only at hn
  split at hn
  · rw [← Option.some.inj hn] at hsb
    cases hsb
  · cases hn

section Runs

variable {C : F.Counter params} {root : ID} {added : List ID} {ts : Topological U B}

theorem Coupled.add (hF : F.Lawful) (h : Coupled W C root added ts) {id : ID}
    (hheight : W.height id = W.height (W.parent id) + 1) (hid : id ≠ 0) :
    ∃ added', Coupled W C root added' ((ts.add W F params id).toOption.getD ts) := by
  rcases hadd : ts.add W F params id with e | ts'
  · exact ⟨added, h⟩
  · rcases h.cached with ⟨l, hc⟩
    rcases hc.add h.inv hheight hadd with ⟨l', hc', -⟩
    refine ⟨added ++ [id], h.inv.add hheight hadd, ⟨l', hc'⟩, h.sound.add hF hadd, ?_⟩
    intro hmem
    rcases List.mem_append.mp hmem with hold | hself
    · exact h.named hold
    · exact hid (List.mem_singleton.mp hself).symm

/-- One operation of `Topological` and of the reference. -/
theorem Coupled.apply (hF : F.Lawful) (hparams : params.Verify) (h : Coupled W C root added ts)
    {op : SnowmanOp} (hlegal : op.Legal W params) (hnamed : op.Named) :
    ∃ added' ts', ts.apply W F params op = some ts' ∧ Coupled W C root added' ts' ∧
      (ts.settled W F).applyEager W F params op = some (ts'.settled W F) := by
  cases op with
  | add id =>
    rcases h.add hF hlegal hnamed with ⟨added', h'⟩
    refine ⟨added', _, rfl, h', ?_⟩
    unfold applyEager
    dsimp only
    rw [settled_add hF h.inv h.sound hlegal]
    rcases ts.add W F params id with e | ts' <;> rfl
  | recordPoll ord votes =>
    rcases h.cached with ⟨l, hc⟩
    rcases recordPoll_spec F params h.inv hc hlegal.1 votes with ⟨ts', l', hrun, hinv, -, hc', -⟩
    -- two majorities do not fit in a poll
    have hfew : votes.len < 2 * params.alphaPreference := by
      have := hparams.1
      have := hlegal.2
      omega
    rcases settled_recordPoll hF C h.named h.inv hc h.sound hlegal.1 hfew with ⟨heager, hsound⟩
    rw [hrun] at heager
    exact ⟨added, ts', hrun, ⟨hinv, ⟨l', hc'⟩, hsound ts' hrun, h.named⟩, heager⟩

theorem Coupled.run (hF : F.Lawful) (hparams : params.Verify) (ops : List SnowmanOp)
    (h : Coupled W C root added ts) (hlegal : ∀ op ∈ ops, op.Legal W params)
    (hnamed : ∀ op ∈ ops, op.Named) :
    ∃ ts', ops.foldlM (Topological.apply W F params) ts = some ts' ∧
      ops.foldlM (Topological.applyEager W F params) (ts.settled W F) = some (ts'.settled W F) := by
  induction ops generalizing added ts with
  | nil => exact ⟨ts, rfl, rfl⟩
  | cons op ops ih =>
    rcases h.apply hF hparams (hlegal op List.mem_cons_self) (hnamed op List.mem_cons_self) with
      ⟨added₁, ts₁, hlazy, h₁, heager⟩
    rcases ih h₁ (fun op hop => hlegal op (List.mem_cons_of_mem _ hop))
      (fun op hop => hnamed op (List.mem_cons_of_mem _ hop)) with ⟨ts', hrun, hrunEager⟩
    refine ⟨ts', ?_, ?_⟩
    · rw [List.foldlM_cons, hlazy]
      exact hrun
    · rw [List.foldlM_cons, heager]
      exact hrunEager

end Runs

end Topological

/-! ## The result -/

/-- Lazy resets are as good as immediate ones, for a factory of snow instances. -/
structure LazyIsEager (F : Factory U B) (params : Parameters) : Prop where
  tree : ∀ (choice : ID) (ops : List TreeOp),
    let t := ops.foldl (Tree.apply F params) (Tree.new F params choice)
    let e := ops.foldl (Tree.applyEager F params) (Tree.new F params choice)
    t.preference F = e.preference F ∧ t.finalized F = e.finalized F
  snowman : ∀ (W : Universe) (root : ID) (ops : List SnowmanOp), (∀ op ∈ ops, op.Legal W params) →
    (∀ op ∈ ops, op.Named) → ∃ ts es : Topological U B,
      ops.foldlM (Topological.apply W F params) (Topological.Initialize W root) = some ts ∧
      ops.foldlM (Topological.applyEager W F params) (Topological.Initialize W root) = some es ∧
      ts.lastAcceptedID = es.lastAcceptedID ∧ ts.preference = es.preference ∧
      ∀ id, ts.processing id = es.processing id

variable {F params}

theorem Factory.Counter.lazyIsEager (C : F.Counter params) (hF : F.Lawful) (hparams : params.Verify) :
    LazyIsEager F params where
  tree := by
    intro choice ops t e
    have hrun : e = t.settle F false := by
      have := (Tree.new_sound C choice).run hF ops
      rwa [Tree.settle_new C] at this
    rw [hrun, Tree.settle_preference hF, Tree.settle_finalized hF]
    exact ⟨rfl, rfl⟩
  snowman := by
    intro W root ops hlegal hnamed
    rcases (Topological.coupled_initialize C root).run hF hparams ops hlegal hnamed with ⟨ts, hlazy, heager⟩
    rw [Topological.settled_initialize] at heager
    refine ⟨ts, _, hlazy, heager, rfl, rfl, ?_⟩
    intro id
    unfold Topological.processing Topological.settled
    rw [Topological.mapBlocks_blocks, Option.isSome_map]
    rfl

/-- Both factories: the flags of the trees and of the blocks do what immediate resets do. -/
theorem lazy_resets_are_eager (params : Parameters) (hparams : params.Verify) :
    LazyIsEager snowflakeFactory params ∧ LazyIsEager snowballFactory params :=
  ⟨(snowflakeCounter params).lazyIsEager snowflakeFactory_lawful hparams,
    (snowballCounter params).lazyIsEager snowballFactory_lawful hparams⟩

/-- The block `b` on the root `a`, and the block `c` on `b`. -/
def pathUniverse (a b c : ID) : Universe where
  parent id := if id = c then b else a
  height id := if id = c then 2 else if id = b then 1 else 0

/-- Three polls on a path: for the last block, for the one below it, and for the last one again. -/
def pathOps (b c : ID) : List SnowmanOp :=
  [.add b, .add c, .recordPoll Topological.storedOrder ⟨[(c, 1)], by simp⟩,
    .recordPoll Topological.storedOrder ⟨[(b, 1)], by simp⟩,
    .recordPoll Topological.storedOrder ⟨[(c, 1)], by simp⟩]

theorem pathOps_legal {a b c : ID} (hab : a ≠ b) (hac : a ≠ c) (hbc : b ≠ c) :
    ∀ op ∈ pathOps b c, op.Legal (pathUniverse a b c) ⟨1, 1, 1, 2⟩ := by
  have hpoll : ∀ id, (SnowmanOp.recordPoll Topological.storedOrder ⟨[(id, 1)], by simp⟩).Legal
      (pathUniverse a b c) ⟨1, 1, 1, 2⟩ := fun _ => ⟨Topological.storedOrder_lawful, le_refl 1⟩
  simp only [pathOps, List.forall_mem_cons]
  refine ⟨?_, ?_, hpoll c, hpoll b, hpoll c, nofun⟩
  · simp [SnowmanOp.Legal, pathUniverse, hab, hac, hbc]
  · simp [SnowmanOp.Legal, pathUniverse, hbc]

/-- With `beta = 2` the poll for the block 1 interrupts the polls for the block 2: the block 1
is accepted and the block 2 is not. -/
theorem lazy_resets_are_eager_path :
    (⟨1, 1, 1, 2⟩ : Parameters).Verify ∧ ∃ ts es : Topological UnarySnowflake BinarySnowflake,
      (pathOps 1 2).foldlM (Topological.apply (pathUniverse 0 1 2) snowflakeFactory ⟨1, 1, 1, 2⟩)
        (Topological.Initialize (pathUniverse 0 1 2) 0) = some ts ∧
      (pathOps 1 2).foldlM (Topological.applyEager (pathUniverse 0 1 2) snowflakeFactory ⟨1, 1, 1, 2⟩)
        (Topological.Initialize (pathUniverse 0 1 2) 0) = some es ∧
      ts.lastAcceptedID = 1 ∧ es.lastAcceptedID = 1 ∧ ts.preference = es.preference := by
  refine ⟨by decide, ?_⟩
  have hnamed : ∀ op ∈ pathOps 1 2, op.Named := by
    simp [pathOps, SnowmanOp.Named]
  rcases (lazy_resets_are_eager ⟨1, 1, 1, 2⟩ (by decide)).1.snowman (pathUniverse 0 1 2) 0 (pathOps 1 2)
    (pathOps_legal (by decide) (by decide) (by decide)) hnamed with ⟨ts, es, hts, hes, hlast, hpref, -⟩
  have haccepted : ts.lastAcceptedID = 1 := 
    Option.some.inj (congrArg (Option.map Topological.lastAcceptedID) hts).symm
  exact ⟨ts, es, hts, hes, haccepted, hlast ▸ haccepted, hpref⟩

/-- The same polls where the block in the middle has the ID `ids.Empty`. When it is accepted, the
loop ends and takes it for the next block: it gets no mark, and the block on it keeps the
confidence of the first poll and is accepted too. -/
theorem empty_id_escapes_reset :
    (⟨1, 1, 1, 2⟩ : Parameters).Verify ∧
    (∀ op ∈ pathOps 0 2, op.Legal (pathUniverse 1 0 2) ⟨1, 1, 1, 2⟩) ∧
    ∃ ts es : Topological UnarySnowflake BinarySnowflake,
      (pathOps 0 2).foldlM (Topological.apply (pathUniverse 1 0 2) snowflakeFactory ⟨1, 1, 1, 2⟩)
        (Topological.Initialize (pathUniverse 1 0 2) 1) = some ts ∧
      (pathOps 0 2).foldlM (Topological.applyEager (pathUniverse 1 0 2) snowflakeFactory ⟨1, 1, 1, 2⟩)
        (Topological.Initialize (pathUniverse 1 0 2) 1) = some es ∧
      ts.lastAcceptedID = 2 ∧ es.lastAcceptedID = 0 := by
  refine ⟨by decide, pathOps_legal (by decide) (by decide) (by decide), _, _, rfl, rfl, rfl, rfl⟩

end Titan.Snow
