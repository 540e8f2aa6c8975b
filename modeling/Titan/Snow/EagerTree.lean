import Titan.Snow.Tree

/-!
# Titan.Snow.EagerTree — the tree without reset flags

A poll that fails on a node has to reset every snow instance below it. The tree
only sets flags, and a later traversal applies them. The reference here resets at
once: `Node.recordPollEager` calls `RecordUnsuccessfulPoll` on every instance of
the subtree that did not reach `AlphaPreference`.

`Node.settle` applies the pending resets of a node. It maps the tree to its
reference: it commutes with `add` and with polls.

The reference also shows why a child never finalizes alone. Under `Node.Bounded`
the confidence of a child is at most that of its parent, and zero on the side
that the parent does not lean to.
-/

namespace Titan.Snow

variable {U B : Type} (F : Factory U B) (params : Parameters)

theorem Bag.len_filter_le {α : Type} (b : Bag α) (p : α → Bool) : (b.filter p).len ≤ b.len := by
  exact (List.filter_sublist.map Prod.snd).sum_le_sum (fun _ _ => Nat.zero_le _)

namespace Node

/-- `RecordUnsuccessfulPoll` on every instance. -/
def resetAll : Node U B → Node U B
  | nil => nil
  | unary pref decided common snow r child =>
    unary pref decided common (F.unaryRecordUnsuccessfulPoll snow) r child.resetAll
  | binary p₀ p₁ index snow r₀ r₁ c₀ c₁ =>
    binary p₀ p₁ index (F.binaryRecordUnsuccessfulPoll snow) r₀ r₁ c₀.resetAll c₁.resetAll

/-- `RecordPoll` of the reference: the changed node, the returned node, and whether the poll
was successful. -/
def recordPollEager : Node U B → Bag ID → Node U B × Node U B × Bool
  | nil, _ => (nil, nil, false)
  | unary pref decided common snow _ child, votes =>
    if votes.len < params.alphaPreference then
      let u := unary pref decided common (F.unaryRecordUnsuccessfulPoll snow) false
        (child.resetAll F)
      (u, u, false)
    else
      let snow := F.unaryRecordPoll snow votes.len
      let (child', newChild, _) := child.recordPollEager votes
      if child.isNil then
        let u := unary pref decided common snow false nil
        (u, u, true)
      else if F.unaryFinalized snow then
        (unary pref decided common snow false child', newChild, true)
      else
        let u := unary (child'.preference F) decided common snow false child'
        (u, u, true)
  | binary p₀ p₁ index snow _ _ c₀ c₁, votes =>
    let votes₁ := votes.filter (fun id => id.bit index)
    let votes₀ := votes.filter (fun id => !id.bit index)
    if params.alphaPreference ≤ votes₁.len then
      let snow := F.binaryRecordPoll snow votes₁.len true
      let (c₁', newChild, _) := c₁.recordPollEager votes₁
      if c₁.isNil then
        let b := binary p₀ p₁ index snow false false (c₀.resetAll F) nil
        (b, b, true)
      else if F.binaryFinalized snow then
        (binary p₀ p₁ index snow false false (c₀.resetAll F) c₁', newChild, true)
      else
        let b := binary p₀ (newChild.preference F) index snow false false (c₀.resetAll F) c₁'
        (b, b, true)
    else if votes₀.len < params.alphaPreference then
      let b := binary p₀ p₁ index (F.binaryRecordUnsuccessfulPoll snow) false false
        (c₀.resetAll F) (c₁.resetAll F)
      (b, b, false)
    else
      let snow := F.binaryRecordPoll snow votes₀.len false
      let (c₀', newChild, _) := c₀.recordPollEager votes₀
      if c₀.isNil then
        let b := binary p₀ p₁ index snow false false nil (c₁.resetAll F)
        (b, b, true)
      else if F.binaryFinalized snow then
        (binary p₀ p₁ index snow false false c₀' (c₁.resetAll F), newChild, true)
      else
        let b := binary (newChild.preference F) p₁ index snow false false c₀' (c₁.resetAll F)
        (b, b, true)

/-- Apply the pending resets; `pending` says that the node itself is to be reset. -/
def settle : Bool → Node U B → Node U B
  | _, nil => nil
  | pending, unary pref decided common snow r child =>
    unary pref decided common (if pending then F.unaryRecordUnsuccessfulPoll snow else snow) false
      (child.settle (r || pending))
  | pending, binary p₀ p₁ index snow r₀ r₁ c₀ c₁ =>
    binary p₀ p₁ index (if pending then F.binaryRecordUnsuccessfulPoll snow else snow) false false
      (c₀.settle (r₀ || pending)) (c₁.settle (r₁ || pending))

/-! ## What settling keeps -/

@[simp] theorem settle_isNil (pending : Bool) (n : Node U B) :
    (n.settle F pending).isNil = n.isNil := by
  cases n <;> rfl

@[simp] theorem resetAll_isNil (n : Node U B) : (n.resetAll F).isNil = n.isNil := by
  cases n <;> rfl

@[simp] theorem settle_decidedPrefix (pending : Bool) (n : Node U B) :
    (n.settle F pending).decidedPrefix = n.decidedPrefix := by
  cases n <;> rfl

theorem settle_preference (hF : F.Lawful) (pending : Bool) (n : Node U B) :
    (n.settle F pending).preference F = n.preference F := by
  cases n with
  | nil => rfl
  | unary pref decided common snow r child => rfl
  | binary p₀ p₁ index snow r₀ r₁ c₀ c₁ =>
    unfold settle preference
    cases pending with
    | false => rfl
    | true =>
      dsimp only
      rw [if_pos rfl, hF.unsuccessful_preference]

theorem unaryFinalized_ite (hF : F.Lawful) (reset : Bool) (snow : U) :
    F.unaryFinalized (if reset then F.unaryRecordUnsuccessfulPoll snow else snow) =
      F.unaryFinalized snow := by
  split
  · exact hF.unary_unsuccessful_finalized snow
  · rfl

theorem binaryFinalized_ite (hF : F.Lawful) (reset : Bool) (snow : B) :
    F.binaryFinalized (if reset then F.binaryRecordUnsuccessfulPoll snow else snow) =
      F.binaryFinalized snow := by
  split
  · exact hF.binary_unsuccessful_finalized snow
  · rfl

theorem settle_finalized (hF : F.Lawful) (pending : Bool) (n : Node U B) :
    (n.settle F pending).finalized F = n.finalized F := by
  cases n
  · rfl
  · exact unaryFinalized_ite F hF pending _
  · exact binaryFinalized_ite F hF pending _

/-- Resetting everything makes what is pending irrelevant. -/
theorem resetAll_settle (C : F.Counter params) (pending : Bool) (n : Node U B) :
    (n.settle F pending).resetAll F = n.settle F true := by
  induction n generalizing pending with
  | nil => rfl
  | unary pref decided common snow r child ih =>
    simp only [settle, resetAll, ih, Bool.or_true, if_true]
    cases pending with
    | false => rfl
    | true => rw [if_pos rfl, C.unary_reset_reset]
  | binary p₀ p₁ index snow r₀ r₁ c₀ c₁ ih₀ ih₁ =>
    simp only [settle, resetAll, ih₀, ih₁, Bool.or_true, if_true]
    cases pending with
    | false => rfl
    | true => rw [if_pos rfl, C.binary_reset_reset]

/-! ## Confidence -/

variable {F params}

/-- The bound on the confidence of a child of a binary instance. -/
def childCap (C : F.Counter params) (snow : B) (bit : Bool) : ℕ :=
  if bit = C.leaning snow then C.binaryConfidence snow else 0

/-- No instance is finalized, and confidence does not grow towards the leaves. -/
def Bounded (C : F.Counter params) : ℕ → Node U B → Prop
  | _, nil => True
  | cap, unary _ _ _ snow _ child =>
    C.unaryMade snow ∧ F.unaryFinalized snow = false ∧ C.unaryConfidence snow ≤ cap ∧
    child.Bounded C (C.unaryConfidence snow)
  | cap, binary _ _ _ snow _ _ c₀ c₁ =>
    C.binaryMade snow ∧ F.binaryFinalized snow = false ∧ C.binaryConfidence snow ≤ cap ∧
    c₀.isNil = c₁.isNil ∧ c₀.Bounded C (childCap C snow false) ∧ c₁.Bounded C (childCap C snow true)

/-- A finalized instance without children. -/
def Decided (C : F.Counter params) : Node U B → Prop
  | nil => False
  | unary _ _ _ snow _ child => C.unaryMade snow ∧ F.unaryFinalized snow = true ∧ child.isNil = true
  | binary _ _ _ snow _ _ c₀ c₁ => F.binaryFinalized snow = true ∧ c₀.isNil = true ∧ c₁.isNil = true

namespace Bounded

variable {C : F.Counter params} {n : Node U B}

theorem mono {cap cap' : ℕ} (h : n.Bounded C cap) (hle : cap ≤ cap') :
    n.Bounded C cap' := by
  cases n with
  | nil => trivial
  | unary pref decided common snow r child => exact ⟨h.1, h.2.1, h.2.2.1.trans hle, h.2.2.2⟩
  | binary p₀ p₁ index snow r₀ r₁ c₀ c₁ => exact ⟨h.1, h.2.1, h.2.2.1.trans hle, h.2.2.2⟩

theorem not_finalized {cap : ℕ} (h : n.Bounded C cap) : n.finalized F = false := by
  cases n with
  | nil => rfl
  | unary pref decided common snow r child => exact h.2.1
  | binary p₀ p₁ index snow r₀ r₁ c₀ c₁ => exact h.2.1

theorem resetAll (hF : F.Lawful) {cap : ℕ} (h : n.Bounded C cap) (cap' : ℕ) :
    (n.resetAll F).Bounded C cap' := by
  induction n generalizing cap cap' with
  | nil => trivial
  | unary pref decided common snow r child ih =>
    rcases h with ⟨hmade, hopen, -, hchild⟩
    rcases C.unary_reset snow hmade with ⟨hmade', hzero⟩
    exact ⟨hmade', by rw [hF.unary_unsuccessful_finalized, hopen], by rw [hzero]; exact Nat.zero_le _,
      ih hchild _⟩
  | binary p₀ p₁ index snow r₀ r₁ c₀ c₁ ih₀ ih₁ =>
    rcases h with ⟨hmade, hopen, -, hpair, h₀, h₁⟩
    rcases C.binary_reset snow hmade with ⟨hmade', hzero⟩
    exact ⟨hmade', by rw [hF.binary_unsuccessful_finalized, hopen], by rw [hzero]; exact Nat.zero_le _,
      by simpa using hpair, ih₀ h₀ _, ih₁ h₁ _⟩

end Bounded

/-- The bound after a poll. -/
def polledCap (params : Parameters) (cap : ℕ) (votes : Bag ID) : ℕ :=
  if votes.len < params.alphaConfidence then 0 else cap + 1

variable {cap : ℕ} {votes : Bag ID}

theorem polledCap_mono {cap' : ℕ} {votes' : Bag ID} (hcap : cap ≤ cap')
    (hvotes : votes.len ≤ votes'.len) :
    polledCap params cap votes ≤ polledCap params cap' votes' := by
  unfold polledCap
  split
  · exact Nat.zero_le _
  · rw [if_neg (by omega)]
    omega

/-- A unary node whose child is to be reset has been reset itself. -/
def ResetFlags (C : F.Counter params) : Node U B → Prop
  | nil => True
  | unary _ _ _ snow r child => (r = true → C.unaryConfidence snow = 0) ∧ child.ResetFlags C
  | binary _ _ _ _ _ _ c₀ c₁ => c₀.ResetFlags C ∧ c₁.ResetFlags C

/-- What a poll does to a subtree whose parent had the confidence `cap`, next to the poll `ref` of
the reference: the subtree finalizes only if the parent does, and is replaced only if it finalizes. -/
structure PollSpec (C : F.Counter params) (cap : ℕ) (votes : Bag ID)
    (res ref : Node U B × Node U B × Bool) : Prop where
  finalizes : ref.1.finalized F = true → params.alphaConfidence ≤ votes.len ∧ params.beta ≤ cap + 1
  changed : ref.1.finalized F = false → res.1.settle F false = ref.1 ∧ res.1.ResetFlags C ∧
    res.2.1 = res.1 ∧ ref.1.Bounded C (polledCap params cap votes)
  returned : res.2.1.settle F false = ref.2.1 ∧ res.2.1.ResetFlags C
  instances : ref.2.1.Bounded C (polledCap params cap votes) ∨ ref.2.1.Decided C

variable {n m : Node U B} {C : F.Counter params} {ok : Bool}

/-- A node that is returned as it is. -/
theorem PollSpec.self (hsettle : n.settle F false = m) (hflags : n.ResetFlags C)
    (hfinal : m.finalized F = true →
      (params.alphaConfidence ≤ votes.len ∧ params.beta ≤ cap + 1) ∧ m.Decided C)
    (hopen : m.finalized F = false → m.Bounded C (polledCap params cap votes)) :
    PollSpec C cap votes (n, n, ok) (m, m, ok) := by
  refine ⟨fun h => (hfinal h).1, fun h => ⟨hsettle, hflags, rfl, hopen h⟩, ⟨hsettle, hflags⟩, ?_⟩
  cases h : m.finalized F with
  | false => exact .inl (hopen h)
  | true => exact .inr (hfinal h).2

theorem PollSpec.bounded (hsettle : n.settle F false = m) (hflags : n.ResetFlags C)
    (h : m.Bounded C (polledCap params cap votes)) : PollSpec C cap votes (n, n, ok) (m, m, ok) :=
  .self hsettle hflags (fun hfin => absurd hfin (ne_true_of_eq_false h.not_finalized)) fun _ => h

variable {res ref : Node U B × Node U B × Bool}

/-- A child finalizes only together with its unary parent. -/
theorem PollSpec.child_of_unary {snow : U} (hspec : PollSpec C (C.unaryConfidence snow) votes res ref)
    (hmade : C.unaryMade snow) (hopen : F.unaryFinalized snow = false)
    (hnot : F.unaryFinalized (F.unaryRecordPoll snow votes.len) = false) :
    ref.1.finalized F = false := by
  by_contra hfin
  have hboth := hspec.finalizes (by simpa using hfin)
  rw [(C.unary_poll snow votes.len hmade).2.2, hopen, Bool.false_or] at hnot
  exact of_decide_eq_false hnot hboth

variable {snow : B}

/-- A child finalizes only together with its binary parent. -/
theorem PollSpec.child_of_binary {bit : Bool} (hspec : PollSpec C (childCap C snow bit) votes res ref)
    (hmade : C.binaryMade snow) (hopen : F.binaryFinalized snow = false)
    (halpha : params.alphaPreference ≤ votes.len)
    (hnot : F.binaryFinalized (F.binaryRecordPoll snow votes.len bit) = false) :
    ref.1.finalized F = false := by
  by_contra hfin
  have hboth := hspec.finalizes (by simpa using hfin)
  rw [(C.binary_poll snow votes.len bit hmade hopen halpha).2.2.2] at hnot
  exact of_decide_eq_false hnot hboth

variable {child otherChild : Node U B}

theorem branch_bounded {bit : Bool} (index : ℕ) (reset : Bool) (pref other : ID)
    (hmade : C.binaryMade snow) (hopen : F.binaryFinalized snow = false)
    (hcap : C.binaryConfidence snow ≤ cap) (hlean : C.leaning snow = bit)
    (hpair : child.isNil = otherChild.isNil) (hchild : child.Bounded C (C.binaryConfidence snow))
    (hother : otherChild.Bounded C 0) :
    (branch bit index snow reset pref other child otherChild).Bounded C cap := by
  have hcap₁ : childCap C snow bit = C.binaryConfidence snow := if_pos hlean.symm
  have hcap₀ : childCap C snow (!bit) = 0 := if_neg (by rw [hlean]; simp)
  rw [← hcap₁] at hchild
  rw [← hcap₀] at hother
  cases bit with
  | false => exact ⟨hmade, hopen, hcap, hpair, hchild, hother⟩
  | true => exact ⟨hmade, hopen, hcap, hpair.symm, hother, hchild⟩

theorem branch_finalized (bit : Bool) (index : ℕ) (snow : B) (reset : Bool) (pref other : ID)
    (child otherChild : Node U B) :
    (branch bit index snow reset pref other child otherChild).finalized F =
      F.binaryFinalized snow := by
  cases bit <;> rfl

/-- A binary node whose sides are given for a bit and its complement, each with its flag. -/
def fork (bit : Bool) (index : ℕ) (snow : B) (r otherR : Bool) (pref other : ID)
    (child otherChild : Node U B) : Node U B :=
  if bit then .binary other pref index snow otherR r otherChild child
  else .binary pref other index snow r otherR child otherChild

/-- A poll of a binary node in which `bit` reached the threshold; `res` and `ref` are the polls
of the child on that side. -/
theorem PollSpec.fork (hF : F.Lawful) (bit : Bool) {votes' : Bag ID} {index : ℕ} {r q : Bool}
    {pref other : ID} (hmade : C.binaryMade snow) (hopen : F.binaryFinalized snow = false)
    (hcap : C.binaryConfidence snow ≤ cap) (hpair : child.isNil = otherChild.isNil)
    (hother : (otherChild.settle F q).Bounded C (childCap C snow (!bit)))
    (hflags : otherChild.ResetFlags C) (hle : votes'.len ≤ votes.len)
    (halpha : params.alphaPreference ≤ votes'.len) (hnil : ref.1.isNil = child.isNil)
    (hspec : PollSpec C (childCap C snow bit) votes' res ref) :
    PollSpec C cap votes
      (let snow' := F.binaryRecordPoll snow votes'.len bit
       if child.isNil then
         let b := Node.fork bit index snow' false true pref other nil otherChild
         (b, b, true)
       else if F.binaryFinalized snow' then
         (Node.fork bit index snow' r true pref other res.1 otherChild, res.2.1, true)
       else
         let b := Node.fork bit index snow' false true (res.2.1.preference F) other res.1 otherChild
         (b, b, true))
      (let snow' := F.binaryRecordPoll snow votes'.len bit
       let otherChild' := (otherChild.settle F q).resetAll F
       if child.isNil then
         let b := branch bit index snow' false pref other nil otherChild'
         (b, b, true)
       else if F.binaryFinalized snow' then
         (branch bit index snow' false pref other ref.1 otherChild', ref.2.1, true)
       else
         let b := branch bit index snow' false (ref.2.1.preference F) other ref.1 otherChild'
         (b, b, true)) := by
  have hchildCap : childCap C snow bit ≤ cap := by
    unfold childCap
    split <;> omega
  have hchild := hspec.child_of_binary hmade hopen halpha
  rcases C.binary_poll snow votes'.len bit hmade hopen halpha with ⟨hmade', hconf', hlean', hfin'⟩
  dsimp only
  generalize F.binaryRecordPoll snow votes'.len bit = snow' at *
  have hcap' : C.binaryConfidence snow' ≤ polledCap params cap votes := by
    rw [hconf']
    exact polledCap_mono hchildCap hle
  have hfinal : F.binaryFinalized snow' = true →
      params.alphaConfidence ≤ votes.len ∧ params.beta ≤ cap + 1 := by
    intro hfin
    rw [hfin', decide_eq_true_eq] at hfin
    change _ ∧ _ ≤ childCap C snow bit + 1 at hfin
    omega
  have hsettle : ∀ (p : ID) (c : Node U B),
      (Node.fork bit index snow' false true p other c otherChild).settle F false =
        branch bit index snow' false p other (c.settle F false)
          ((otherChild.settle F q).resetAll F) := by
    intro p c
    rw [resetAll_settle F params C]
    cases bit <;> rfl
  have hflags' : ∀ (p : ID) {c : Node U B}, c.ResetFlags C →
      (Node.fork bit index snow' false true p other c otherChild).ResetFlags C := by
    intro p c hc
    cases bit with
    | false => exact ⟨hc, hflags⟩
    | true => exact ⟨hflags, hc⟩
  have hreset : ((otherChild.settle F q).resetAll F).Bounded C 0 := hother.resetAll hF 0
  split
  next hleaf =>
    -- a leaf is returned, finalized or not
    have hleaf' : ((otherChild.settle F q).resetAll F).isNil = true := by
      rw [resetAll_isNil, settle_isNil, ← hpair, hleaf]
    refine .self (hsettle _ _) (hflags' _ trivial) (fun hfin => ?_) fun hnot => ?_
    · rw [branch_finalized] at hfin
      refine ⟨hfinal hfin, ?_⟩
      cases bit with
      | false => exact ⟨hfin, rfl, hleaf'⟩
      | true => exact ⟨hfin, hleaf', rfl⟩
    · rw [branch_finalized] at hnot
      exact branch_bounded index false pref other hmade' hnot hcap' hlean' hleaf'.symm trivial hreset
  next =>
    split
    next hfin =>
      -- the decision moves to the child
      refine ⟨fun _ => hfinal hfin, fun hnot => ?_, hspec.returned, ?_⟩
      · rw [branch_finalized, hfin] at hnot
        cases hnot
      · exact hspec.instances.imp_left (fun hb => hb.mono (polledCap_mono hchildCap hle))
    next hnot =>
      rw [Bool.not_eq_true] at hnot
      rcases hspec.changed (hchild hnot) with ⟨heq, hflagsRes, -, hbounded⟩
      have hpref : ref.2.1.preference F = res.2.1.preference F := by
        rw [← hspec.returned.1, settle_preference F hF]
      rw [hpref]
      refine .bounded ?_ (hflags' _ hflagsRes)
        (branch_bounded index false _ other hmade' hnot hcap' hlean' ?_ ?_ hreset)
      · rw [hsettle, heq]
      · rw [hnil, resetAll_isNil, settle_isNil, hpair]
      · rw [hconf']
        exact hbounded

/-- A poll lets no node vanish, neither the changed one nor the returned one. -/
theorem recordPollEager_isNil (n : Node U B) (votes : Bag ID) :
    (n.recordPollEager F params votes).1.isNil = n.isNil ∧
      (n.recordPollEager F params votes).2.1.isNil = n.isNil := by
  induction n generalizing votes with
  | nil => exact ⟨rfl, rfl⟩
  | unary pref decided common snow r child ih =>
    unfold recordPollEager
    dsimp only
    split
    · exact ⟨rfl, rfl⟩
    split
    · exact ⟨rfl, rfl⟩
    next hsome =>
      split
      · exact ⟨rfl, (ih votes).2.trans (Bool.eq_false_iff.mpr hsome)⟩
      · exact ⟨rfl, rfl⟩
  | binary p₀ p₁ index snow r₀ r₁ c₀ c₁ ih₀ ih₁ =>
    unfold recordPollEager
    dsimp only
    split
    · split
      · exact ⟨rfl, rfl⟩
      next hsome =>
        split
        · exact ⟨rfl, (ih₁ _).2.trans (Bool.eq_false_iff.mpr hsome)⟩
        · exact ⟨rfl, rfl⟩
    split
    · exact ⟨rfl, rfl⟩
    split
    · exact ⟨rfl, rfl⟩
    next hsome =>
      split
      · exact ⟨rfl, (ih₀ _).2.trans (Bool.eq_false_iff.mpr hsome)⟩
      · exact ⟨rfl, rfl⟩

theorem recordPoll_spec (hF : F.Lawful) (C : F.Counter params) {reset : Bool}
    (h : (n.settle F reset).Bounded C cap) (hflags : n.ResetFlags C) (votes : Bag ID) :
    PollSpec C cap votes (n.recordPoll F params votes reset)
      ((n.settle F reset).recordPollEager F params votes) := by
  induction n generalizing cap votes reset with
  | nil => exact .bounded rfl trivial trivial
  | unary pref decided common snow r child ih =>
    rcases h with ⟨hmade, hopen, hcap, hchild⟩
    rcases hflags with ⟨hflag, hflags⟩
    have hspec := ih hchild hflags votes
    unfold recordPoll settle recordPollEager
    dsimp only
    generalize (if reset then F.unaryRecordUnsuccessfulPoll snow else snow) = snow' at *
    rcases C.unary_poll snow' votes.len hmade with ⟨hmade', hconf', hfin'⟩
    rw [hopen, Bool.false_or] at hfin'
    have hcap' : C.unaryConfidence (F.unaryRecordPoll snow' votes.len) ≤ polledCap params cap votes := by
      rw [hconf']
      exact polledCap_mono hcap (le_refl _)
    have hfinal : F.unaryFinalized (F.unaryRecordPoll snow' votes.len) = true →
        params.alphaConfidence ≤ votes.len ∧ params.beta ≤ cap + 1 := by
      intro hfin
      rw [hfin', decide_eq_true_eq] at hfin
      omega
    rw [settle_isNil]
    split
    · -- the poll fails: everything is reset
      have hb : (unary pref decided common snow' false (child.settle F (r || reset))).Bounded C cap :=
        ⟨hmade, hopen, hcap, hchild⟩
      refine .bounded ?_ ⟨fun _ => (C.unary_reset snow' hmade).2, hflags⟩ (hb.resetAll hF _)
      rw [settle, resetAll_settle F params C]
      rfl
    split
    · -- a leaf is returned, finalized or not
      exact .self rfl ⟨fun h => absurd h Bool.false_ne_true, trivial⟩
        (fun hfin => ⟨hfinal hfin, hmade', hfin, rfl⟩) fun hnot => ⟨hmade', hnot, hcap', trivial⟩
    split
    next hfin =>
      -- the decision moves to the child
      refine ⟨fun _ => hfinal hfin, fun hnot => absurd hfin (ne_true_of_eq_false hnot), hspec.returned, ?_⟩
      exact hspec.instances.imp_left (fun hb => hb.mono (polledCap_mono hcap (le_refl _)))
    next hnot =>
      rw [Bool.not_eq_true] at hnot
      rcases hspec.changed (hspec.child_of_unary hmade hopen hnot) with ⟨heq, hflags', -, hbounded⟩
      rw [show polledCap params _ votes = _ from hconf'.symm] at hbounded
      refine .bounded ?_ ⟨fun h => absurd h Bool.false_ne_true, hflags'⟩ ⟨hmade', hnot, hcap', hbounded⟩
      rw [settle, Bool.false_or, heq, ← heq, settle_preference F hF]
      rfl
  | binary p₀ p₁ index snow r₀ r₁ c₀ c₁ ih₀ ih₁ =>
    rcases h with ⟨hmade, hopen, hcap, hpair, h₀, h₁⟩
    unfold recordPoll settle recordPollEager
    dsimp only
    generalize (if reset then F.binaryRecordUnsuccessfulPoll snow else snow) = snow' at *
    rw [settle_isNil, settle_isNil] at hpair ⊢
    split
    next hbit₁ =>
      exact .fork hF true hmade hopen hcap hpair.symm h₀ hflags.1 (votes.len_filter_le _) hbit₁
        ((recordPollEager_isNil _ _).1.trans (settle_isNil F _ _)) (ih₁ h₁ hflags.2 _)
    split
    next =>
      have hb : (binary p₀ p₁ index snow' false false (c₀.settle F (r₀ || reset))
        (c₁.settle F (r₁ || reset))).Bounded C cap := ⟨hmade, hopen, hcap, by simpa using hpair, h₀, h₁⟩
      refine .bounded ?_ hflags (hb.resetAll hF _)
      rw [settle, resetAll_settle F params C, resetAll_settle F params C]
      rfl
    next hbit₀ =>
      exact .fork hF false hmade hopen hcap hpair h₁ hflags.2 (votes.len_filter_le _)
        (Nat.not_lt.mp hbit₀) ((recordPollEager_isNil _ _).1.trans (settle_isNil F _ _)) (ih₀ h₀ hflags.1 _)

/-! ## Settling commutes with the operations -/

theorem branch_settle (bit : Bool) (index : ℕ) (snow : B) (r : Bool) (pref other : ID)
    (child otherChild : Node U B) (pending : Bool) :
    (branch bit index snow r pref other child otherChild).settle F pending =
      branch bit index (if pending then F.binaryRecordUnsuccessfulPoll snow else snow) false pref other
        (child.settle F (r || pending)) (otherChild.settle F (r || pending)) := by
  cases bit <;> rfl

theorem settle_newUnary (C : F.Counter params) (pending : Bool) (choice : ID) (decided common : ℕ) :
    (unary choice decided common (F.newUnary params) false nil : Node U B).settle F pending =
      unary choice decided common (F.newUnary params) false nil := by
  have hreset := C.unary_reset_of_zero _ C.newUnary_spec.2.1
  cases pending with
  | false => rfl
  | true =>
    unfold settle
    rw [if_pos rfl, hreset]
    rfl

theorem settle_add (hF : F.Lawful) (C : F.Counter params) (h : n.ResetFlags C) (pending : Bool)
    (choice : ID) :
    (n.add F params choice).settle F pending = (n.settle F pending).add F params choice := by
  induction n generalizing pending with
  | nil => rfl
  | unary pref decided common snow r child ih =>
    rcases h with ⟨hflag, hchild⟩
    have hextend : ∀ (q bit : Bool), (if q then F.binaryRecordUnsuccessfulPoll (F.extend snow bit)
        else F.extend snow bit) =
          F.extend (if q then F.unaryRecordUnsuccessfulPoll snow else snow) bit := by
      intro q bit
      split
      · exact C.reset_extend snow bit
      · rfl
    -- a pending reset of the child is no reset of the node itself
    have hsnow : (if r || pending then F.unaryRecordUnsuccessfulPoll snow else snow) =
        (if pending then F.unaryRecordUnsuccessfulPoll snow else snow) := by
      cases r with
      | false => rfl
      | true => simp [C.unary_reset_of_zero snow (hflag rfl)]
    have hlast : ∀ (q : Bool) (d : ℕ), (if child.isNil then nil else
        unary choice d numBits (F.newUnary params) false nil : Node U B).settle F q =
          if child.isNil then nil else unary choice d numBits (F.newUnary params) false nil := by
      intro q d
      split
      · rfl
      · exact settle_newUnary C q _ _ _
    simp only [settle, add, unaryFinalized_ite F hF]
    split
    · rfl
    split
    · simp only [settle, ih hchild]
    next index _ =>
      simp only [settle_isNil]
      -- the four ways to split the node
      split
      · rw [branch_settle, hextend, hlast]
      split
      · rw [branch_settle, hextend, settle_newUnary C, settle, hsnow, ← Bool.or_assoc, Bool.or_self]
      split
      · rw [settle, branch_settle, hextend, hsnow, hlast, ← Bool.or_assoc, Bool.or_self]
      · rw [settle, Bool.false_or, branch_settle, hextend, settle_newUnary C, settle, hsnow,
          ← Bool.or_assoc, Bool.or_self]
  | binary p₀ p₁ index snow r₀ r₁ c₀ c₁ ih₀ ih₁ =>
    by_cases hbit : choice.bit index = true
    · simp only [settle, add, hbit, if_true, ih₁ h.2]
    · simp only [settle, add, hbit, Bool.false_eq_true, if_false, ih₀ h.1]

theorem branch_resetFlags (bit : Bool) (index : ℕ) (snow : B) (r : Bool) (pref other : ID)
    (hchild : child.ResetFlags C) (hother : otherChild.ResetFlags C) :
    (branch bit index snow r pref other child otherChild).ResetFlags C := by
  cases bit with
  | false => exact ⟨hchild, hother⟩
  | true => exact ⟨hother, hchild⟩

theorem ResetFlags.add (h : n.ResetFlags C) (choice : ID) :
    (n.add F params choice).ResetFlags C := by
  induction n with
  | nil => trivial
  | unary pref decided common snow r child ih =>
    rcases h with ⟨hflag, hchild⟩
    have hnew : ∀ i, (unary choice i numBits (F.newUnary params) false
        (nil : Node U B)).ResetFlags C := fun _ => ⟨nofun, trivial⟩
    have hlast : ∀ i, (if child.isNil then (nil : Node U B) else
        unary choice i numBits (F.newUnary params) false nil).ResetFlags C := by
      intro i
      split
      · trivial
      · exact hnew i
    unfold Node.add
    split
    · exact ⟨hflag, hchild⟩
    split
    · exact ⟨hflag, ih hchild⟩
    split
    · exact branch_resetFlags _ _ _ _ _ _ hchild (hlast _)
    split
    · exact branch_resetFlags _ _ _ _ _ _ ⟨hflag, hchild⟩ (hnew _)
    split
    · exact ⟨hflag, branch_resetFlags _ _ _ _ _ _ hchild (hlast _)⟩
    · exact ⟨nofun,
        branch_resetFlags _ _ _ _ _ _ ⟨hflag, hchild⟩ (hnew _)⟩
  | binary p₀ p₁ index snow r₀ r₁ c₀ c₁ ih₀ ih₁ =>
    unfold Node.add
    split
    · exact ⟨h.1, ih₁ h.2⟩
    · exact ⟨ih₀ h.1, h.2⟩

/-- Adding a choice keeps the order of the confidences, unless the node is finalized. -/
theorem Bounded.add (h : n.Bounded C cap) (choice : ID) :
    (n.add F params choice).Bounded C cap := by
  induction n generalizing cap with
  | nil => trivial
  | unary pref decided common snow r child ih =>
    rcases h with ⟨hmade, hopen, hcap, hchild⟩
    rcases C.newUnary_spec with ⟨hmadeNew, hzero, hopenNew⟩
    have hnew : ∀ i, (unary choice i numBits (F.newUnary params) false
        (nil : Node U B)).Bounded C 0 := fun _ => ⟨hmadeNew, hopenNew, hzero.le, trivial⟩
    have hlast : ∀ i, (if child.isNil then (nil : Node U B) else
        unary choice i numBits (F.newUnary params) false nil).Bounded C 0 := by
      intro i
      split
      · trivial
      · exact hnew i
    have hpair : ∀ i, child.isNil = (if child.isNil then (nil : Node U B) else
        unary choice i numBits (F.newUnary params) false nil).isNil := by
      intro i
      split
      next hnil => exact hnil
      next hsome => exact Bool.eq_false_iff.mpr hsome
    -- the new branch has the confidence of the node
    have hbranch : ∀ {bound bit index} (r' : Bool) {c d : Node U B}, C.unaryConfidence snow ≤ bound →
        c.isNil = d.isNil → c.Bounded C (C.unaryConfidence snow) → d.Bounded C 0 →
        (branch bit index (F.extend snow bit) r' pref choice c d).Bounded C bound := by
      intro bound bit index r' c d hbound hnil hc hd
      rcases C.extend_spec snow bit hmade with ⟨hmadeB, hconfB, hlean, hopenB⟩
      exact branch_bounded index r' pref choice hmadeB (hopenB.trans hopen) (hconfB ▸ hbound) hlean hnil
        (hconfB.symm ▸ hc) hd
    unfold Node.add
    rw [if_neg (by rw [hopen]; exact Bool.false_ne_true)]
    split
    · exact ⟨hmade, hopen, hcap, ih hchild⟩
    split
    · exact hbranch _ hcap (hpair _) hchild (hlast _)
    split
    · exact hbranch _ hcap rfl ⟨hmade, hopen, le_refl _, hchild⟩ (hnew _)
    split
    · exact ⟨hmade, hopen, hcap, hbranch _ (le_refl _) (hpair _) hchild (hlast _)⟩
    · exact ⟨hmade, hopen, hcap,
        hbranch _ (le_refl _) rfl ⟨hmade, hopen, le_refl _, hchild⟩ (hnew _)⟩
  | binary p₀ p₁ index snow r₀ r₁ c₀ c₁ ih₀ ih₁ =>
    rcases h with ⟨hmade, hopen, hcap, hpair, h₀, h₁⟩
    unfold Node.add
    split
    · exact ⟨hmade, hopen, hcap, by rw [add_isNil, hpair], h₀, ih₁ h₁⟩
    · exact ⟨hmade, hopen, hcap, by rw [add_isNil, hpair], ih₀ h₀, h₁⟩

/-! ## Finalized trees -/

theorem eq_nil_of_isNil (h : n.isNil = true) : n = nil := by
  cases n with
  | nil => rfl
  | unary => cases h
  | binary => cases h

theorem Decided.finalized (h : n.Decided C) : n.finalized F = true := by
  cases n with
  | nil => exact h.elim
  | unary => exact h.2.1
  | binary => exact h.1

theorem Decided.add (h : n.Decided C) (choice : ID) : n.add F params choice = n := by
  cases n with
  | nil => rfl
  | unary pref decided common snow r child =>
    unfold Node.add
    rw [if_pos h.2.1]
  | binary p₀ p₁ index snow r₀ r₁ c₀ c₁ =>
    rw [eq_nil_of_isNil h.2.1, eq_nil_of_isNil h.2.2]
    unfold Node.add
    split <;> rfl

/-- A poll of a finalized tree changes neither its preference nor its finality. -/
theorem Decided.recordPoll (hF : F.Lawful) (h : n.Decided C) (votes : Bag ID) (reset : Bool) :
    (n.recordPoll F params votes reset).2.1.Decided C ∧
    (n.recordPoll F params votes reset).2.1.preference F = n.preference F ∧
    (n.recordPoll F params votes reset).2.1.settle F false =
      ((n.settle F reset).recordPollEager F params votes).2.1 ∧
    (n.recordPoll F params votes reset).2.1.ResetFlags C := by
  cases n with
  | nil => exact h.elim
  | unary pref decided common snow r child =>
    rcases h with ⟨hmade, hfin, hnil⟩
    rw [eq_nil_of_isNil hnil]
    have hmade' : C.unaryMade (if reset then F.unaryRecordUnsuccessfulPoll snow else snow) := by
      split
      · exact (C.unary_reset snow hmade).1
      · exact hmade
    have hfin' := (unaryFinalized_ite F hF reset snow).trans hfin
    unfold Node.recordPoll settle recordPollEager
    generalize (if reset then F.unaryRecordUnsuccessfulPoll snow else snow) = snow' at *
    split
    · rcases C.unary_reset snow' hmade' with ⟨hmadeReset, hzero⟩
      exact ⟨⟨hmadeReset, by rw [hF.unary_unsuccessful_finalized, hfin'], rfl⟩, rfl,
        rfl, fun _ => hzero, trivial⟩
    · rcases C.unary_poll snow' votes.len hmade' with ⟨hmadePoll, -, hfinPoll⟩
      exact ⟨⟨hmadePoll, by rw [hfinPoll, hfin', Bool.true_or], rfl⟩, rfl,
        rfl, fun h => absurd h Bool.false_ne_true, trivial⟩
  | binary p₀ p₁ index snow r₀ r₁ c₀ c₁ =>
    rcases h with ⟨hfin, hnil₀, hnil₁⟩
    rw [eq_nil_of_isNil hnil₀, eq_nil_of_isNil hnil₁]
    have hfin' := (binaryFinalized_ite F hF reset snow).trans hfin
    have hpref' : F.binaryPreference (if reset then F.binaryRecordUnsuccessfulPoll snow else snow) =
        F.binaryPreference snow := by
      split
      · exact hF.unsuccessful_preference snow
      · rfl
    unfold Node.recordPoll settle recordPollEager
    dsimp only
    generalize (if reset then F.binaryRecordUnsuccessfulPoll snow else snow) = snow' at *
    have hpolled : ∀ (count : ℕ) (bit r r' : Bool),
        (binary p₀ p₁ index (F.binaryRecordPoll snow' count bit) r r' (nil : Node U B) nil).preference F =
          (binary p₀ p₁ index snow r₀ r₁ (nil : Node U B) nil).preference F := by
      intro count bit r r'
      show (if _ then p₁ else p₀) = (if _ then p₁ else p₀)
      rw [(C.binary_poll_finalized snow' count bit hfin').2, hpref']
    split
    · exact ⟨⟨(C.binary_poll_finalized snow' _ _ hfin').1, rfl, rfl⟩, hpolled _ _ _ _,
        rfl, trivial, trivial⟩
    split
    · refine ⟨⟨by rw [hF.binary_unsuccessful_finalized, hfin'], rfl, rfl⟩, ?_,
        rfl, trivial, trivial⟩
      show (if _ then p₁ else p₀) = (if _ then p₁ else p₀)
      rw [hF.unsuccessful_preference, hpref']
    · exact ⟨⟨(C.binary_poll_finalized snow' _ _ hfin').1, rfl, rfl⟩, hpolled _ _ _ _,
        rfl, trivial, trivial⟩

theorem Decided.of_settle (h : (n.settle F false).Decided C) : n.Decided C := by
  cases n with
  | nil => exact h
  | unary pref decided common snow r child => exact ⟨h.1, h.2.1, by simpa using h.2.2⟩
  | binary p₀ p₁ index snow r₀ r₁ c₀ c₁ => exact ⟨h.1, by simpa using h.2.1, by simpa using h.2.2⟩

end Node

/-! ## Trees -/

namespace Tree

variable (F : Factory U B) (params : Parameters)

/-- The votes that agree with the decided prefix. -/
def filteredVotes (t : Tree U B) (votes : Bag ID) : Bag ID :=
  votes.filter fun id => equalSubset 0 t.node.decidedPrefix (t.preference F) id

/-- Apply the pending resets of a tree. -/
def settle (pending : Bool) (t : Tree U B) : Tree U B where
  node := t.node.settle F (t.shouldReset || pending)
  shouldReset := false
  root := by rw [Node.settle_isNil]; exact t.root

/-- `RecordPoll` of the reference. -/
def recordPollEager (t : Tree U B) (votes : Bag ID) : Tree U B × Bool :=
  ({ t with
     node := (t.node.recordPollEager F params (t.filteredVotes F votes)).2.1
     root := (Node.recordPollEager_isNil _ _).2.trans t.root },
    (t.node.recordPollEager F params (t.filteredVotes F votes)).2.2)

/-- `RecordUnsuccessfulPoll` of the reference. -/
def recordUnsuccessfulPollEager (t : Tree U B) : Tree U B where
  node := t.node.resetAll F
  shouldReset := t.shouldReset
  root := by rw [Node.resetAll_isNil]; exact t.root

theorem eq_of_node {t t' : Tree U B} (hnode : t.node = t'.node)
    (hreset : t.shouldReset = t'.shouldReset) : t = t' := by
  cases t
  cases t'
  cases hnode
  cases hreset
  rfl

variable {F params}

/-- The flags of a tree mean what they should, and either no instance is finalized and
confidence does not grow towards the leaves, or the tree is a finalized instance. -/
structure Sound (C : F.Counter params) (t : Tree U B) : Prop where
  flags : t.node.ResetFlags C
  instances : (∃ cap, (t.node.settle F t.shouldReset).Bounded C cap) ∨ t.node.Decided C

theorem settle_preference (hF : F.Lawful) (pending : Bool) (t : Tree U B) :
    (t.settle F pending).preference F = t.preference F :=
  Node.settle_preference F hF _ _

theorem settle_finalized (hF : F.Lawful) (pending : Bool) (t : Tree U B) :
    (t.settle F pending).finalized F = t.finalized F :=
  Node.settle_finalized F hF _ _

theorem settle_new (C : F.Counter params) (pending : Bool) (choice : ID) :
    (new F params choice).settle F pending = new F params choice :=
  eq_of_node (Node.settle_newUnary C _ _ _ _) rfl

theorem recordUnsuccessfulPollEager_settle (C : F.Counter params) (pending : Bool) (t : Tree U B) :
    (t.settle F pending).recordUnsuccessfulPollEager F = t.settle F true := by
  refine eq_of_node ?_ rfl
  show (t.node.settle F _).resetAll F = t.node.settle F _
  rw [Node.resetAll_settle F params C, Bool.or_true]

/-- The flag of the tree is a pending reset. -/
theorem settle_recordUnsuccessfulPoll (t : Tree U B) :
    t.recordUnsuccessfulPoll.settle F false = t.settle F true := by
  refine eq_of_node ?_ rfl
  show t.node.settle F (true || false) = t.node.settle F (t.shouldReset || true)
  rw [Bool.or_true, Bool.true_or]

theorem settle_add (hF : F.Lawful) {C : F.Counter params} {t : Tree U B} (h : t.Sound C)
    (pending : Bool) (choice : ID) :
    (t.add F params choice).settle F pending = (t.settle F pending).add F params choice := by
  have hpref := settle_preference hF pending t
  have hfront : (t.settle F pending).node.decidedPrefix = t.node.decidedPrefix :=
    Node.settle_decidedPrefix F _ _
  unfold Tree.add
  rw [hpref, hfront]
  split
  · exact eq_of_node (Node.settle_add hF C h.flags _ choice) rfl
  · rfl

theorem new_sound (C : F.Counter params) (choice : ID) : (new F params choice).Sound C where
  flags := ⟨nofun, trivial⟩
  instances := .inl ⟨0, C.newUnary_spec.1, C.newUnary_spec.2.2, C.newUnary_spec.2.1.le, trivial⟩

namespace Sound

variable {C : F.Counter params} {t : Tree U B}

section

variable (hF : F.Lawful)
include hF

theorem add (h : t.Sound C) (choice : ID) : (t.add F params choice).Sound C := by
  unfold Tree.add
  split
  · refine ⟨h.flags.add choice, ?_⟩
    rcases h.instances with ⟨cap, hb⟩ | hdec
    · refine .inl ⟨cap, ?_⟩
      rw [Node.settle_add hF C h.flags]
      exact hb.add choice
    · exact .inr (show (t.node.add F params choice).Decided C from (hdec.add choice).symm ▸ hdec)
  · exact h

theorem recordUnsuccessfulPoll (h : t.Sound C) :
    t.recordUnsuccessfulPoll.Sound C := by
  refine ⟨h.flags, ?_⟩
  rcases h.instances with ⟨cap, hb⟩ | hdec
  · refine .inl ⟨cap, ?_⟩
    show (t.node.settle F true).Bounded C cap
    rw [← Node.resetAll_settle F params C t.shouldReset]
    exact hb.resetAll hF cap
  · exact .inr hdec

/-- A poll of the tree is a poll of the reference. -/
theorem simulates (h : t.Sound C) (votes : Bag ID) :
    (t.node.recordPoll F params votes t.shouldReset).2.1.settle F false =
      ((t.node.settle F t.shouldReset).recordPollEager F params votes).2.1 ∧
    (t.node.recordPoll F params votes t.shouldReset).2.1.ResetFlags C := by
  rcases h.instances with ⟨cap, hb⟩ | hdec
  · exact (Node.recordPoll_spec hF C hb h.flags votes).returned
  · exact (hdec.recordPoll hF votes t.shouldReset).2.2

theorem recordPoll (h : t.Sound C) (votes : Bag ID) :
    (t.recordPoll F params votes).1.Sound C := by
  have hsim := h.simulates hF (t.filteredVotes F votes)
  refine ⟨hsim.2, ?_⟩
  rcases h.instances with ⟨cap, hb⟩ | hdec
  · rcases (Node.recordPoll_spec hF C hb h.flags (t.filteredVotes F votes)).instances with hret | hret
    · rw [← hsim.1] at hret
      exact .inl ⟨_, hret⟩
    · rw [← hsim.1] at hret
      exact .inr hret.of_settle
  · exact .inr (hdec.recordPoll hF _ _).1

/-- A poll of the tree is a poll of the reference, which has nothing pending. -/
theorem settle_recordPoll (h : t.Sound C) (votes : Bag ID) :
    (t.recordPoll F params votes).1.settle F false =
      ((t.settle F false).recordPollEager F params votes).1 := by
  have hvotes : (t.settle F false).filteredVotes F votes = t.filteredVotes F votes := by
    unfold filteredVotes
    rw [settle_preference hF, show (t.settle F false).node.decidedPrefix = t.node.decidedPrefix from
      Node.settle_decidedPrefix F _ _]
  have hnode : (t.settle F false).node = t.node.settle F t.shouldReset := by
    show t.node.settle F (t.shouldReset || false) = _
    rw [Bool.or_false]
  refine eq_of_node ?_ rfl
  show Node.settle F false _ = (Node.recordPollEager F params _ _).2.1
  rw [hvotes, hnode]
  exact (h.simulates hF (t.filteredVotes F votes)).1

end

end Sound

end Tree

end Titan.Snow
