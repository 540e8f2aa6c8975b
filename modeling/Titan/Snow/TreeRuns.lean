import Titan.Snow.TreeShape

/-!
# Titan.Snow.TreeRuns — runs of the snowball tree

What holds of every tree that additions and polls produce, for the snow instances of
either factory: the representation invariant, that a child finalizes only together
with its parent, and that a finalized preference stays.

* A tree decides on the choices that agree with its preference on the decided
  prefix: `Tree.live`.
* A finalized tree ignores additions, so they do not count as added.
-/

namespace Titan.Snow

variable {U B : Type} (F : Factory U B) (params : Parameters)

inductive TreeOp
  | add (choice : ID)
  | recordPoll (votes : Bag ID)
  | recordUnsuccessfulPoll

namespace Tree

def apply (t : Tree U B) : TreeOp → Tree U B
  | .add choice => t.add F params choice
  | .recordPoll votes => (t.recordPoll F params votes).1
  | .recordUnsuccessfulPoll => t.recordUnsuccessfulPoll

/-- The choices that were added, after an operation. -/
def addedBy (t : Tree U B) (added : Set ID) : TreeOp → Set ID
  | .add choice => if t.finalized F then added else insert choice added
  | _ => added

/-- The trees that operations produce, with the choices that were added. -/
inductive Reachable : Tree U B → Set ID → Prop
  | new (choice : ID) : Reachable (new F params choice) {choice}
  | step {t : Tree U B} {added : Set ID} (op : TreeOp) : Reachable t added →
      Reachable (t.apply F params op) (t.addedBy F added op)

/-- The choices that the tree still decides on. -/
def live (t : Tree U B) (added : Set ID) : Set ID :=
  {id | id ∈ added ∧ Agree 0 t.node.decidedPrefix (t.preference F) id}

end Tree

/-! ## Children finalize with their parents -/

/-- After a poll, `parent` is the changed parent and `res` the result of polling its child: a
child of an instance that is not finalized is not finalized either, and is returned as it is. -/
def Follows (parent : Node U B) (res : Node U B × Node U B × Bool) : Prop :=
  parent.finalized F = false → res.1.finalized F = false ∧ res.2.1 = res.1

/-- Every child that a poll visits follows its parent. -/
def Node.ChildrenFollow : Node U B → Bag ID → Bool → Prop
  | nil, _, _ => True
  | unary pref decided common snow r child, votes, reset =>
    params.alphaPreference ≤ votes.len → child.isNil = false →
      Follows F ((unary pref decided common snow r child).recordPoll F params votes reset).1
        (child.recordPoll F params votes (r || reset)) ∧
      child.ChildrenFollow votes (r || reset)
  | binary p₀ p₁ index snow r₀ r₁ c₀ c₁, votes, reset =>
    let parent := ((binary p₀ p₁ index snow r₀ r₁ c₀ c₁).recordPoll F params votes reset).1
    let votes₁ := votes.filter (fun id => id.bit index)
    let votes₀ := votes.filter (fun id => !id.bit index)
    (params.alphaPreference ≤ votes₁.len → c₁.isNil = false →
      Follows F parent (c₁.recordPoll F params votes₁ (r₁ || reset)) ∧
      c₁.ChildrenFollow votes₁ (r₁ || reset)) ∧
    (votes₁.len < params.alphaPreference → params.alphaPreference ≤ votes₀.len → c₀.isNil = false →
      Follows F parent (c₀.recordPoll F params votes₀ (r₀ || reset)) ∧
      c₀.ChildrenFollow votes₀ (r₀ || reset))

variable {F params}

variable {C : F.Counter params}

/-- A child follows if the reference does not finalize it without its parent. -/
theorem Follows.of_spec (hF : F.Lawful) {cap : ℕ} {votes : Bag ID} {parent : Node U B}
    {res ref : Node U B × Node U B × Bool} (hspec : Node.PollSpec C cap votes res ref)
    (hchild : parent.finalized F = false → ref.1.finalized F = false) : Follows F parent res := by
  intro hparent
  rcases hspec.changed (hchild hparent) with ⟨heq, -, hsame, -⟩
  refine ⟨?_, hsame⟩
  rw [← Node.settle_finalized F hF false, heq, hchild hparent]

namespace Node

variable {n : Node U B}

theorem childrenFollow (hF : F.Lawful) (C : F.Counter params) {cap : ℕ} {reset : Bool}
    (h : (n.settle F reset).Bounded C cap) (hflags : n.ResetFlags C) (votes : Bag ID) :
    n.ChildrenFollow F params votes reset := by
  induction n generalizing cap votes reset with
  | nil => trivial
  | unary pref decided common snow r child ih =>
    rcases h with ⟨hmade, hopen, hcap, hchild⟩
    intro hvotes hsome
    have hspec := recordPoll_spec hF C hchild hflags.2 votes
    refine ⟨.of_spec hF hspec fun hparent => ?_, ih hchild hflags.2 votes⟩
    apply hspec.child_of_unary hmade hopen
    -- the parent is finalized if its instance is
    unfold recordPoll at hparent
    dsimp only at hparent
    rw [if_neg (Nat.not_lt.mpr hvotes), if_neg (by simp [hsome])] at hparent
    generalize (if reset then F.unaryRecordUnsuccessfulPoll snow else snow) = snow' at *
    split at hparent <;> exact hparent
  | binary p₀ p₁ index snow r₀ r₁ c₀ c₁ ih₀ ih₁ =>
    rcases h with ⟨hmade, hopen, hcap, hpair, h₀, h₁⟩
    constructor
    · intro hvotes hsome
      have hspec := recordPoll_spec hF C h₁ hflags.2 (votes.filter fun id => id.bit index)
      refine ⟨.of_spec hF hspec fun hparent => ?_, ih₁ h₁ hflags.2 _⟩
      apply hspec.child_of_binary hmade hopen hvotes
      unfold recordPoll at hparent
      dsimp only at hparent
      rw [if_pos hvotes, if_neg (by simp [hsome])] at hparent
      generalize (if reset then F.binaryRecordUnsuccessfulPoll snow else snow) = snow' at *
      split at hparent <;> exact hparent
    · intro hfew hvotes hsome
      have hspec := recordPoll_spec hF C h₀ hflags.1 (votes.filter fun id => !id.bit index)
      refine ⟨.of_spec hF hspec fun hparent => ?_, ih₀ h₀ hflags.1 _⟩
      apply hspec.child_of_binary hmade hopen hvotes
      unfold recordPoll at hparent
      dsimp only at hparent
      rw [if_neg (Nat.not_le.mpr hfew), if_neg (Nat.not_lt.mpr hvotes), if_neg (by simp [hsome])] at hparent
      generalize (if reset then F.binaryRecordUnsuccessfulPoll snow else snow) = snow' at *
      split at hparent <;> exact hparent

def isLeaf : Node U B → Bool
  | nil => false
  | unary _ _ _ _ _ child => child.isNil
  | binary _ _ _ _ _ _ c₀ c₁ => c₀.isNil && c₁.isNil

theorem Decided.isLeaf (h : n.Decided C) : n.isLeaf = true := by
  cases n with
  | nil => exact h.elim
  | unary => exact h.2.2
  | binary => exact Bool.and_eq_true_iff.mpr h.2

/-- A poll of a finalized tree visits no child. -/
theorem Decided.childrenFollow (h : n.Decided C) (votes : Bag ID) (reset : Bool) :
    n.ChildrenFollow F params votes reset := by
  cases n with
  | nil => exact h.elim
  | unary pref decided common snow r child =>
    intro _ hsome
    exact absurd h.2.2 (by simp [hsome])
  | binary p₀ p₁ index snow r₀ r₁ c₀ c₁ =>
    constructor
    · intro _ hsome
      exact absurd h.2.2 (by simp [hsome])
    · intro _ _ hsome
      exact absurd h.2.1 (by simp [hsome])

end Node

/-! ## The invariant of runs -/

namespace Tree

structure Inv (C : F.Counter params) (t : Tree U B) (added : Set ID) : Prop where
  sound : t.Sound C
  covers : t.node.Covers (t.live F added)

namespace Inv

variable {C : F.Counter params} {t : Tree U B} {added : Set ID}

theorem new (choice : ID) : (Tree.new F params choice).Inv C {choice} where
  sound := new_sound C choice
  covers := by
    refine ⟨Nat.zero_lt_succ _, le_refl _, ⟨rfl, .empty (le_refl _)⟩, ?_,
      ⟨⟨fun _ => rfl, fun _ => rfl⟩, nofun⟩, trivial⟩
    rintro id ⟨rfl, -⟩
    exact .refl _

theorem add (hF : F.Lawful) (h : t.Inv C added) (choice : ID) :
    (t.add F params choice).Inv C (t.addedBy F added (.add choice)) := by
  refine ⟨h.sound.add hF choice, ?_⟩
  have hagree : equalSubset 0 t.node.decidedPrefix (t.preference F) choice = true ↔
      Agree 0 t.node.decidedPrefix (t.preference F) choice :=
    equalSubset_iff h.covers.decidedPrefix_lt.le _ _
  rcases h.sound.instances with ⟨cap, hb⟩ | hdec
  · have hopen := Node.Bounded.isOpen hF hb
    have hfin : t.finalized F = false := by
      have := hb.not_finalized
      rwa [Node.settle_finalized F hF] at this
    have hadded : t.addedBy F added (.add choice) = insert choice added := if_neg (by simp [hfin])
    rw [hadded]
    by_cases heq : equalSubset 0 t.node.decidedPrefix (t.preference F) choice = true
    · have hnode : (t.add F params choice).node = t.node.add F params choice := by
        unfold Tree.add
        rw [if_pos heq]
      have hlive : (t.add F params choice).live F (insert choice added) = insert choice (t.live F added) := by
        unfold live
        rw [Tree.add_preference F params hF, hnode, h.covers.add_decidedPrefix]
        ext id
        constructor
        · rintro ⟨rfl | hid, hpre⟩
          · exact .inl rfl
          · exact .inr ⟨hid, hpre⟩
        · rintro (rfl | hid)
          · exact ⟨.inl rfl, hagree.mp heq⟩
          · exact ⟨.inr hid.1, hid.2⟩
      rw [hlive, hnode]
      exact h.covers.add hopen choice
    · -- decided against: neither the tree nor what it decides on changes
      have hsame : t.add F params choice = t := by
        unfold Tree.add
        rw [if_neg heq]
      have hlive : t.live F (insert choice added) = t.live F added := by
        ext id
        constructor
        · rintro ⟨rfl | hid, hpre⟩
          · exact absurd (hagree.mpr hpre) heq
          · exact ⟨hid, hpre⟩
        · exact fun hid => ⟨.inr hid.1, hid.2⟩
      rw [hsame, hlive]
      exact h.covers
  · have hadded : t.addedBy F added (.add choice) = added := if_pos hdec.finalized
    have hsame : t.add F params choice = t := by
      unfold Tree.add
      split
      · exact eq_of_node (hdec.add choice) rfl
      · rfl
    rw [hadded, hsame]
    exact h.covers

theorem recordPoll (hF : F.Lawful) (h : t.Inv C added) (votes : Bag ID) :
    (t.recordPoll F params votes).1.Inv C added := by
  refine ⟨h.sound.recordPoll hF votes, ?_⟩
  have hpoll : Node.PollCovers F (t.live F added) t.node
      (t.node.recordPoll F params (t.filteredVotes F votes) t.shouldReset) := h.covers.recordPoll _ _
  have hret := hpoll.returned
  have hmem := hret.preference_mem (F := F) (hpoll.returned_isNil.trans t.root)
  have hlive : Node.remaining F (t.live F added) t.node.decidedPrefix
      (t.node.recordPoll F params (t.filteredVotes F votes) t.shouldReset).2.1 =
        (t.recordPoll F params votes).1.live F added := by
    ext id
    constructor
    · rintro ⟨⟨hid, hfront⟩, hback⟩
      exact ⟨hid, (hmem.1.2.symm.trans hfront).append hback⟩
    · rintro ⟨hid, hpre⟩
      exact ⟨⟨hid, hmem.1.2.trans (hpre.mono (le_refl _) hpoll.returned_start)⟩,
        hpre.mono (Nat.zero_le _) (le_refl _)⟩
  rw [hlive] at hret
  exact hret

theorem apply (hF : F.Lawful) (h : t.Inv C added) (op : TreeOp) :
    (t.apply F params op).Inv C (t.addedBy F added op) := by
  cases op with
  | add choice => exact h.add hF choice
  | recordPoll votes => exact h.recordPoll hF votes
  | recordUnsuccessfulPoll => exact ⟨h.sound.recordUnsuccessfulPoll hF, h.covers⟩

end Inv

variable {t : Tree U B}

theorem Reachable.inv (hF : F.Lawful) (C : F.Counter params) {added : Set ID}
    (h : Reachable F params t added) : t.Inv C added := by
  induction h with
  | new choice => exact .new choice
  | step op _ ih => exact ih.apply hF op

/-- A finalized tree keeps its preference, whatever happens. -/
theorem decided_run (hF : F.Lawful) (h : t.node.Decided C) (ops : List TreeOp) :
    (ops.foldl (apply F params) t).preference F = t.preference F := by
  induction ops generalizing t with
  | nil => rfl
  | cons op ops ih =>
    have hstep : (t.apply F params op).node.Decided C ∧
        (t.apply F params op).preference F = t.preference F := by
      cases op with
      | add choice =>
        refine ⟨?_, Tree.add_preference F params hF t choice⟩
        show (t.add F params choice).node.Decided C
        unfold Tree.add
        split
        · exact (h.add choice).symm.subst (motive := Node.Decided C) h
        · exact h
      | recordPoll votes =>
        have hpoll := h.recordPoll hF (t.filteredVotes F votes) t.shouldReset
        exact ⟨hpoll.1, hpoll.2.1⟩
      | recordUnsuccessfulPoll => exact ⟨h, rfl⟩
    rw [List.foldl_cons, ih hstep.1, hstep.2]

/-- What holds of a tree to which the choices `added` were added. -/
structure WellFormed (F : Factory U B) (params : Parameters) (t : Tree U B) (added : Set ID) : Prop where
  covers : t.node.Covers (t.live F added)
  /-- No instance is finalized, except a root without children. -/
  isOpen : t.node.Open F ∨ t.node.isLeaf = true
  follow : ∀ votes, t.node.ChildrenFollow F params (t.filteredVotes F votes) t.shouldReset
  preference_mem : t.preference F ∈ added
  irrevocable : t.finalized F = true → ∀ ops : List TreeOp,
    (ops.foldl (apply F params) t).preference F = t.preference F

theorem Inv.wellFormed (hF : F.Lawful) {added : Set ID} (h : t.Inv C added) :
    t.WellFormed F params added := by
  refine ⟨h.covers, ?_, fun votes => ?_, (h.covers.preference_mem t.root).1, fun hfin => ?_⟩
  · rcases h.sound.instances with ⟨cap, hb⟩ | hdec
    · exact .inl (Node.Bounded.isOpen hF hb)
    · exact .inr hdec.isLeaf
  · rcases h.sound.instances with ⟨cap, hb⟩ | hdec
    · exact Node.childrenFollow hF C hb h.sound.flags _
    · exact hdec.childrenFollow _ _
  · rcases h.sound.instances with ⟨cap, hb⟩ | hdec
    · have hopen := hb.not_finalized
      rw [Node.settle_finalized F hF] at hopen
      exact absurd hfin (by rw [show t.finalized F = false from hopen]; exact Bool.false_ne_true)
    · exact decided_run hF hdec

end Tree

/-- Every tree that additions and polls produce is well-formed, and keeps its preference once it
is finalized, with snowflake and with snowball instances. -/
theorem tree_wellFormed_irrevocable (params : Parameters) :
    (∀ t added, Tree.Reachable snowflakeFactory params t added →
      t.WellFormed snowflakeFactory params added) ∧
    ∀ t added, Tree.Reachable snowballFactory params t added →
      t.WellFormed snowballFactory params added := by
  constructor
  · intro t added h
    exact (h.inv snowflakeFactory_lawful (snowflakeCounter params)).wellFormed snowflakeFactory_lawful
  · intro t added h
    exact (h.inv snowballFactory_lawful (snowballCounter params)).wellFormed snowballFactory_lawful

/-- A tree over the choices 0 and 1 after a vote for 1. -/
def sampleTree : Tree UnarySnowflake BinarySnowflake :=
  [.add 1, .recordPoll ⟨[(1, 1)], by decide⟩].foldl (Tree.apply snowflakeFactory ⟨1, 1, 1, 1⟩)
    (Tree.new snowflakeFactory ⟨1, 1, 1, 1⟩ 0)

theorem tree_wellFormed_irrevocable_vote :
    (∃ added, sampleTree.WellFormed snowflakeFactory ⟨1, 1, 1, 1⟩ added) ∧
    sampleTree.preference snowflakeFactory = 1 ∧ sampleTree.finalized snowflakeFactory = true := by
  refine ⟨⟨_, (tree_wellFormed_irrevocable ⟨1, 1, 1, 1⟩).1 _ _
    (.step (.recordPoll ⟨[(1, 1)], by decide⟩) (.step (.add 1) (.new 0)))⟩, ?_, ?_⟩
  · decide +kernel
  · decide +kernel

end Titan.Snow
