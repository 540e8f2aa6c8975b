import Titan.Snow.EagerTree

/-!
# Titan.Snow.TreeShape — which bits the nodes of the tree cover

`Node.Covers S` is the representation invariant of a subtree below which the choices
`S` were added. A unary node covers the bits `[decidedPrefix, commonPrefix)`, on which
all of `S` agree, and its child starts where it ends. A binary node covers one bit
and splits `S` by it.
-/

namespace Titan.Snow

variable {U B : Type} {F : Factory U B} {params : Parameters}

/-! ## Bits -/

/-- Two identifiers agree on the bits `[start, stop)`. -/
def Agree (start stop : ℕ) (a b : ID) : Prop := ∀ i, start ≤ i → i < stop → a.bit i = b.bit i

namespace Agree

variable {start mid stop : ℕ} {a b c : ID}

theorem refl (a : ID) : Agree start stop a a := fun _ _ _ => rfl

theorem symm (h : Agree start stop a b) : Agree start stop b a := fun i hi hj => (h i hi hj).symm

theorem trans (hab : Agree start stop a b) (hbc : Agree start stop b c) : Agree start stop a c :=
  fun i hi hj => (hab i hi hj).trans (hbc i hi hj)

theorem mono {start' stop' : ℕ} (h : Agree start stop a b) (hstart : start ≤ start')
    (hstop : stop' ≤ stop) : Agree start' stop' a b :=
  fun i hi hj => h i (hstart.trans hi) (hj.trans_le hstop)

theorem append (h : Agree start mid a b) (h' : Agree mid stop a b) : Agree start stop a b := by
  intro i hi hj
  rcases Nat.lt_or_ge i mid with hlt | hge
  · exact h i hi hlt
  · exact h' i hge hj

theorem empty (h : stop ≤ start) : Agree start stop a b := fun i hi hj => by omega

theorem bit (h : a.bit start = b.bit start) : Agree start (start + 1) a b := by
  intro i hi hj
  rwa [show i = start by omega]

end Agree

variable {start stop : ℕ}

theorem equalSubset_iff (hstop : stop ≤ numBits) (a b : ID) :
    equalSubset start stop a b = true ↔ Agree start stop a b := by
  unfold equalSubset
  split
  next hle => exact ⟨fun _ => .empty hle, fun _ => rfl⟩
  rw [if_neg (Nat.not_lt.mpr hstop), List.all_eq_true]
  constructor
  · intro h i hi hj
    have := h i (List.mem_range.mpr hj)
    simpa [Nat.not_lt.mpr hi] using this
  · intro h i hi
    rcases Nat.lt_or_ge i start with hlt | hge
    · simp [hlt]
    · simp [h i hge (List.mem_range.mp hi)]

theorem firstDifferenceSubset_none (hstart : start < stop) (hstop : stop ≤ numBits) {a b : ID}
    (h : firstDifferenceSubset start stop a b = none) : Agree start stop a b := by
  unfold firstDifferenceSubset at h
  rw [if_neg (by omega), List.find?_eq_none] at h
  intro i hi hj
  have := h i (List.mem_range.mpr hj)
  simpa [hi] using this

variable {index : ℕ}

theorem firstDifferenceSubset_some {a b : ID}
    (h : firstDifferenceSubset start stop a b = some index) :
    start ≤ index ∧ index < stop ∧ a.bit index ≠ b.bit index ∧ Agree start index a b := by
  unfold firstDifferenceSubset at h
  split at h
  · cases h
  rw [List.find?_range_eq_some] at h
  rcases h with ⟨hdiff, hmem, hfirst⟩
  have hdiff : start ≤ index ∧ a.bit index ≠ b.bit index := by simpa using hdiff
  refine ⟨hdiff.1, List.mem_range.mp hmem, hdiff.2, fun i hi hj => ?_⟩
  have := hfirst i hj
  simpa [hi] using this

/-! ## The representation invariant -/

namespace Node

/-- The choices with a bit. -/
def withBit (S : Set ID) (index : ℕ) (bit : Bool) : Set ID := {id | id ∈ S ∧ id.bit index = bit}

variable {S : Set ID}

variable {choice : ID}

theorem withBit_insert {bit : Bool} (h : choice.bit index = bit) :
    withBit (insert choice S) index bit = insert choice (withBit S index bit) := by
  ext id
  constructor
  · rintro ⟨rfl | hid, hbit⟩
    · exact .inl rfl
    · exact .inr ⟨hid, hbit⟩
  · rintro (rfl | hid)
    · exact ⟨.inl rfl, h⟩
    · exact ⟨.inr hid.1, hid.2⟩

theorem withBit_insert_of_ne {bit : Bool} (h : choice.bit index ≠ bit) :
    withBit (insert choice S) index bit = withBit S index bit := by
  ext id
  constructor
  · rintro ⟨rfl | hid, hbit⟩
    · exact absurd hbit h
    · exact ⟨hid, hbit⟩
  · exact fun hid => ⟨.inr hid.1, hid.2⟩

/-- A child starts at bit `start`, and is missing only behind the last bit. -/
def StartsAt (start : ℕ) (n : Node U B) : Prop :=
  (n.isNil = true ↔ start = numBits) ∧ (n.isNil = false → n.decidedPrefix = start)

/-- The representation invariant of a subtree to which the choices `S` were added. -/
def Covers : Set ID → Node U B → Prop
  | _, nil => True
  | S, unary pref decided common _ _ child =>
    decided < common ∧ common ≤ numBits ∧ pref ∈ S ∧ (∀ id ∈ S, Agree decided common pref id) ∧
    child.StartsAt common ∧ child.Covers S
  | S, binary p₀ p₁ index _ _ _ c₀ c₁ =>
    index < numBits ∧ p₀ ∈ withBit S index false ∧ p₁ ∈ withBit S index true ∧
    c₀.StartsAt (index + 1) ∧ c₁.StartsAt (index + 1) ∧
    c₀.Covers (withBit S index false) ∧ c₁.Covers (withBit S index true)

variable {n : Node U B}

theorem Covers.preference_mem (h : n.Covers S) (hnil : n.isNil = false) : n.preference F ∈ S := by
  cases n with
  | nil => cases hnil
  | unary pref decided common snow r child => exact h.2.2.1
  | binary p₀ p₁ index snow r₀ r₁ c₀ c₁ =>
    show (if F.binaryPreference snow then p₁ else p₀) ∈ S
    split
    · exact h.2.2.1.1
    · exact h.2.1.1

theorem Covers.decidedPrefix_lt (h : n.Covers S) : n.decidedPrefix < numBits := by
  cases n with
  | nil => exact Nat.zero_lt_succ _
  | unary pref decided common snow r child => exact lt_of_lt_of_le h.1 h.2.1
  | binary p₀ p₁ index snow r₀ r₁ c₀ c₁ => exact h.1

/-! ### Adding a choice -/

/-- No instance is finalized. -/
def Open (F : Factory U B) : Node U B → Prop
  | nil => True
  | unary _ _ _ snow _ child => F.unaryFinalized snow = false ∧ child.Open F
  | binary _ _ _ snow _ _ c₀ c₁ => F.binaryFinalized snow = false ∧ c₀.Open F ∧ c₁.Open F

theorem Bounded.isOpen (hF : F.Lawful) {C : F.Counter params} {cap : ℕ} {pending : Bool}
    (h : (n.settle F pending).Bounded C cap) : n.Open F := by
  induction n generalizing cap pending with
  | nil => trivial
  | unary pref decided common snow r child ih =>
    rcases h with ⟨-, hopen, -, hchild⟩
    exact ⟨(unaryFinalized_ite F hF _ _).symm.trans hopen, ih hchild⟩
  | binary p₀ p₁ index snow r₀ r₁ c₀ c₁ ih₀ ih₁ =>
    rcases h with ⟨-, hopen, -, -, h₀, h₁⟩
    exact ⟨(binaryFinalized_ite F hF _ _).symm.trans hopen, ih₀ h₀, ih₁ h₁⟩

/-- A choice that differs at `index` from all others gets a side of its own. -/
theorem branch_covers {pref : ID} {child otherChild : Node U B} (snow : B) (reset : Bool)
    (hindex : index < numBits) (hpref : pref ∈ S) (hdiff : pref.bit index ≠ choice.bit index)
    (hsame : ∀ id ∈ S, pref.bit index = id.bit index) (hstart : child.StartsAt (index + 1))
    (hotherStart : otherChild.StartsAt (index + 1)) (hchild : child.Covers S)
    (hother : otherChild.Covers {choice}) :
    (branch (pref.bit index) index snow reset pref choice child otherChild).Covers (insert choice S) := by
  have hside : withBit (insert choice S) index (pref.bit index) = S := by
    ext id
    constructor
    · rintro ⟨rfl | hid, hbit⟩
      · exact absurd hbit.symm hdiff
      · exact hid
    · exact fun hid => ⟨.inr hid, (hsame id hid).symm⟩
  have hotherSide : withBit (insert choice S) index (choice.bit index) = {choice} := by
    ext id
    constructor
    · rintro ⟨rfl | hid, hbit⟩
      · rfl
      · exact absurd ((hsame id hid).trans hbit) hdiff
    · rintro rfl
      exact ⟨.inl rfl, rfl⟩
  rcases hbit : pref.bit index with _ | _
  · have hchoice : choice.bit index = true := by simpa [hbit] using hdiff.symm
    rw [hbit] at hside
    rw [hchoice] at hotherSide
    refine ⟨hindex, ?_, ?_, hstart, hotherStart, ?_, ?_⟩
    · rw [hside]
      exact hpref
    · rw [hotherSide]
      rfl
    · rw [hside]
      exact hchild
    · rw [hotherSide]
      exact hother
  · have hchoice : choice.bit index = false := by simpa [hbit] using hdiff.symm
    rw [hbit] at hside
    rw [hchoice] at hotherSide
    refine ⟨hindex, ?_, ?_, hotherStart, hstart, ?_, ?_⟩
    · rw [hotherSide]
      rfl
    · rw [hside]
      exact hpref
    · rw [hotherSide]
      exact hother
    · rw [hside]
      exact hchild

theorem branch_decidedPrefix (bit : Bool) (index : ℕ) (snow : B) (reset : Bool) (pref other : ID)
    (child otherChild : Node U B) :
    (branch bit index snow reset pref other child otherChild).decidedPrefix = index := by
  cases bit <;> rfl

theorem Covers.add_decidedPrefix (h : n.Covers S) (choice : ID) :
    (n.add F params choice).decidedPrefix = n.decidedPrefix := by
  cases n with
  | nil => rfl
  | unary pref decided common snow r child =>
    unfold add
    split
    · rfl
    split
    · rfl
    next index hindex =>
      rcases firstDifferenceSubset_some hindex with ⟨hge, hlt, -, -⟩
      split
      · rw [branch_decidedPrefix]
        show index = decided
        omega
      split
      · rw [branch_decidedPrefix]
        assumption
      split <;> rfl
  | binary p₀ p₁ index snow r₀ r₁ c₀ c₁ =>
    unfold add
    split <;> rfl

theorem Covers.add_startsAt (h : n.Covers S) (hstart : n.StartsAt start) (choice : ID) :
    (n.add F params choice).StartsAt start := by
  unfold StartsAt
  rw [add_isNil, h.add_decidedPrefix]
  exact hstart

theorem Covers.add (h : n.Covers S) (hopen : n.Open F) (choice : ID) :
    (n.add F params choice).Covers (insert choice S) := by
  induction n generalizing S with
  | nil => trivial
  | unary pref decided common snow r child ih =>
    rcases h with ⟨hlt, hle, hpref, hagree, hstart, hchild⟩
    unfold Node.add
    rw [if_neg (by rw [hopen.1]; exact Bool.false_ne_true)]
    split
    next hsame =>
      refine ⟨hlt, hle, .inr hpref, ?_, hchild.add_startsAt hstart choice, ih hchild hopen.2⟩
      rintro id (rfl | hid)
      · exact firstDifferenceSubset_none hlt hle hsame
      · exact hagree id hid
    next index hindex =>
      rcases firstDifferenceSubset_some hindex with ⟨hge, hlt', hdiff, hbefore⟩
      have hsame : ∀ id ∈ S, pref.bit index = id.bit index := fun id hid => hagree id hid index hge hlt'
      have hnew : index + 1 < numBits →
          (unary choice (index + 1) numBits (F.newUnary params) false nil : Node U B).Covers {choice} :=
        fun hlt => ⟨hlt, le_refl _, rfl, fun id hid => by rw [Set.mem_singleton_iff.mp hid]; exact .refl _,
          ⟨⟨fun _ => rfl, fun _ => rfl⟩, nofun⟩, trivial⟩
      have hnewStart : index + 1 < numBits →
          (unary choice (index + 1) numBits (F.newUnary params) false nil : Node U B).StartsAt (index + 1) :=
        fun hlt => ⟨⟨nofun, fun h => by omega⟩, fun _ => rfl⟩
      have hbehind : index + 1 = common → (if child.isNil then (nil : Node U B) else
          unary choice (index + 1) numBits (F.newUnary params) false nil).StartsAt (index + 1) ∧
          (if child.isNil then (nil : Node U B) else
            unary choice (index + 1) numBits (F.newUnary params) false nil).Covers {choice} := by
        intro hlast
        split
        next hnil =>
          rw [hlast]
          exact ⟨⟨⟨fun _ => hstart.1.mp hnil, fun _ => rfl⟩, nofun⟩, trivial⟩
        next hsome =>
          have hne : common ≠ numBits := fun h => hsome (hstart.1.mpr h)
          exact ⟨hnewStart (by omega), hnew (by omega)⟩
      -- the rest of the node, behind the bit that differs
      have hrest : index + 1 < common →
          (unary pref (index + 1) common snow r child).Covers S ∧
          (unary pref (index + 1) common snow r child).StartsAt (index + 1) := by
        intro hrest
        refine ⟨⟨hrest, hle, hpref, fun id hid => (hagree id hid).mono (by omega) (le_refl _), hstart,
          hchild⟩, ⟨nofun, fun h => by omega⟩, fun _ => rfl⟩
      -- the node that remains in front of it
      have hfront : ∀ id ∈ insert choice S, Agree decided index pref id := by
        rintro id (rfl | hid)
        · exact hbefore
        · exact (hagree id hid).mono (le_refl _) (by omega)
      have hchildStart : ∀ (reset : Bool) (c d : Node U B), (branch (pref.bit index) index
          (F.extend snow (pref.bit index)) reset pref choice c d).StartsAt index := by
        intro reset c d
        refine ⟨⟨fun h => ?_, fun h => by omega⟩, fun _ => branch_decidedPrefix _ _ _ _ _ _ _ _⟩
        rw [branch_isNil] at h
        cases h
      split
      next hone =>
        have hlast : index + 1 = common := by omega
        exact branch_covers _ _ (by omega) hpref hdiff hsame (hlast ▸ hstart) (hbehind hlast).1 hchild
          (hbehind hlast).2
      split
      next hfirst =>
        rw [← hfirst]
        exact branch_covers _ _ (by omega) hpref hdiff hsame (hrest (by omega)).2 (hnewStart (by omega))
          (hrest (by omega)).1 (hnew (by omega))
      split
      next hlast =>
        rw [show common - 1 = index by omega]
        exact ⟨by omega, by omega, .inr hpref, hfront, hchildStart _ _ _,
          branch_covers _ _ (by omega) hpref hdiff hsame (hlast ▸ hstart) (hbehind hlast).1 hchild
            (hbehind hlast).2⟩
      next hinner =>
        exact ⟨by omega, by omega, .inr hpref, hfront, hchildStart _ _ _,
          branch_covers _ _ (by omega) hpref hdiff hsame (hrest (by omega)).2 (hnewStart (by omega))
            (hrest (by omega)).1 (hnew (by omega))⟩
  | binary p₀ p₁ index snow r₀ r₁ c₀ c₁ ih₀ ih₁ =>
    rcases h with ⟨hlt, hp₀, hp₁, hs₀, hs₁, h₀, h₁⟩
    unfold Node.add
    split
    next hbit =>
      refine ⟨hlt, ⟨.inr hp₀.1, hp₀.2⟩, ⟨.inr hp₁.1, hp₁.2⟩, hs₀, h₁.add_startsAt hs₁ choice, ?_, ?_⟩
      · rw [withBit_insert_of_ne (by simp [hbit])]
        exact h₀
      · rw [withBit_insert hbit]
        exact ih₁ h₁ hopen.2.2
    next hbit =>
      refine ⟨hlt, ⟨.inr hp₀.1, hp₀.2⟩, ⟨.inr hp₁.1, hp₁.2⟩, h₀.add_startsAt hs₀ choice, hs₁, ?_, ?_⟩
      · rw [withBit_insert (by simpa using hbit)]
        exact ih₀ h₀ hopen.2.1
      · rw [withBit_insert_of_ne hbit]
        exact h₁

/-! ### Polls -/

/-- The choices that a node which starts at `start` still decides on, when the node `n` takes
its place. -/
def remaining (F : Factory U B) (S : Set ID) (start : ℕ) (n : Node U B) : Set ID :=
  {id | id ∈ S ∧ Agree start n.decidedPrefix (n.preference F) id}

/-- What a poll does to the shape of a node `n`: the changed node covers the same, the
returned one what remains. -/
structure PollCovers (F : Factory U B) (S : Set ID) (n : Node U B) (res : Node U B × Node U B × Bool) :
    Prop where
  changed : res.1.Covers S
  changed_isNil : res.1.isNil = n.isNil
  changed_start : res.1.decidedPrefix = n.decidedPrefix
  returned : res.2.1.Covers (remaining F S n.decidedPrefix res.2.1)
  returned_isNil : res.2.1.isNil = n.isNil
  returned_start : n.decidedPrefix ≤ res.2.1.decidedPrefix

theorem PollCovers.self {m : Node U B} (ok : Bool) (h : m.Covers S) (hnil : m.isNil = n.isNil)
    (hfront : m.decidedPrefix = n.decidedPrefix) : PollCovers F S n (m, m, ok) := by
  have hall : remaining F S n.decidedPrefix m = S := by
    ext id
    exact ⟨fun hid => hid.1, fun hid => ⟨hid, .empty hfront.le⟩⟩
  refine ⟨h, hnil, hfront, ?_, hnil, hfront.ge⟩
  rw [hall]
  exact h

variable {res : Node U B × Node U B × Bool}

theorem StartsAt.changed (h : n.StartsAt start)
    (hres : PollCovers F S n res) : res.1.StartsAt start := by
  unfold StartsAt
  rw [hres.changed_isNil, hres.changed_start]
  exact h

/-- A node that finalizes is replaced by what its child returns. -/
theorem PollCovers.replaced {T : Set ID} {child m : Node U B}
    (ok : Bool) (h : PollCovers F T child res) (hstart : child.StartsAt start)
    (hsome : child.isNil = false) (hlt : n.decidedPrefix < start) (hnil : n.isNil = false)
    (hm : m.Covers S) (hmNil : m.isNil = n.isNil) (hmPrefix : m.decidedPrefix = n.decidedPrefix)
    (hT : ∀ p ∈ T, ∀ id, id ∈ T ↔ id ∈ S ∧ Agree n.decidedPrefix start p id) :
    PollCovers F S n (m, res.2.1, ok) := by
  have hfront := h.returned_start
  rw [hstart.2 hsome] at hfront
  have hpref : res.2.1.preference F ∈ T := by
    have := h.returned.preference_mem (F := F) (h.returned_isNil.trans hsome)
    exact this.1
  have hall : remaining F T child.decidedPrefix res.2.1 = remaining F S n.decidedPrefix res.2.1 := by
    rw [hstart.2 hsome]
    ext id
    constructor
    · rintro ⟨hid, hagree⟩
      rcases (hT _ hpref id).mp hid with ⟨hS, hfront⟩
      exact ⟨hS, hfront.append hagree⟩
    · rintro ⟨hS, hagree⟩
      exact ⟨(hT _ hpref id).mpr ⟨hS, hagree.mono (le_refl _) hfront⟩,
        hagree.mono (by omega) (le_refl _)⟩
  refine ⟨hm, hmNil, hmPrefix, ?_, h.returned_isNil.trans (hsome.trans hnil.symm), ?_⟩
  · show res.2.1.Covers (remaining F S n.decidedPrefix res.2.1)
    rw [← hall]
    exact h.returned
  · show n.decidedPrefix ≤ res.2.1.decidedPrefix
    omega

theorem Covers.recordPoll (h : n.Covers S) (votes : Bag ID) (reset : Bool) :
    PollCovers F S n (n.recordPoll F params votes reset) := by
  induction n generalizing S votes reset with
  | nil => exact .self false trivial rfl rfl
  | unary pref decided common snow r child ih =>
    rcases h with ⟨hlt, hle, hpref, hagree, hstart, hchild⟩
    have hres := ih hchild votes (r || reset)
    unfold Node.recordPoll
    dsimp only
    generalize (if reset = true then F.unaryRecordUnsuccessfulPoll snow else snow) = snow'
    split
    · exact .self false ⟨hlt, hle, hpref, hagree, hstart, hchild⟩ rfl rfl
    split
    next hnil =>
      refine .self true ⟨hlt, hle, hpref, hagree, ?_, trivial⟩ rfl rfl
      rwa [eq_nil_of_isNil hnil] at hstart
    next hsome =>
      have hsome : child.isNil = false := Bool.eq_false_iff.mpr hsome
      have hstart' := hstart.changed hres
      split
      · refine .replaced true hres hstart hsome ?_ rfl ?_ rfl rfl ?_
        · exact hlt
        · exact ⟨hlt, hle, hpref, hagree, hstart', hres.changed⟩
        · exact fun p hp id => ⟨fun hid => ⟨hid, (hagree p hp).symm.trans (hagree id hid)⟩, fun hid => hid.1⟩
      · have hpref' := hres.changed.preference_mem (F := F) (hres.changed_isNil.trans hsome)
        refine .self true ?_ rfl rfl
        exact ⟨hlt, hle, hpref', fun id hid => (hagree _ hpref').symm.trans (hagree id hid), hstart',
          hres.changed⟩
  | binary p₀ p₁ index snow r₀ r₁ c₀ c₁ ih₀ ih₁ =>
    rcases h with ⟨hlt, hp₀, hp₁, hs₀, hs₁, h₀, h₁⟩
    have hside : ∀ bit, ∀ p ∈ withBit S index bit, ∀ id,
        id ∈ withBit S index bit ↔ id ∈ S ∧ Agree index (index + 1) p id := by
      intro bit p hp id
      constructor
      · exact fun hid => ⟨hid.1, .bit (hp.2.trans hid.2.symm)⟩
      · exact fun hid => ⟨hid.1, (hid.2 index (le_refl _) (by omega)).symm.trans hp.2⟩
    unfold Node.recordPoll
    dsimp only
    generalize (if reset = true then F.binaryRecordUnsuccessfulPoll snow else snow) = snow'
    split
    · have hres := ih₁ h₁ (votes.filter fun id => id.bit index) (r₁ || reset)
      split
      next hnil =>
        refine .self true ⟨hlt, hp₀, hp₁, hs₀, ?_, h₀, trivial⟩ rfl rfl
        rwa [eq_nil_of_isNil hnil] at hs₁
      next hsome =>
        have hsome : c₁.isNil = false := Bool.eq_false_iff.mpr hsome
        have hs₁' := hs₁.changed hres
        split
        · refine .replaced true hres hs₁ hsome ?_ rfl ?_ rfl rfl (hside true)
          · exact Nat.lt_succ_self index
          · exact ⟨hlt, hp₀, hp₁, hs₀, hs₁', h₀, hres.changed⟩
        · have hpref' := (hres.returned.preference_mem (F := F) (hres.returned_isNil.trans hsome)).1
          refine .self true ?_ rfl rfl
          exact ⟨hlt, hp₀, hpref', hs₀, hs₁', h₀, hres.changed⟩
    split
    · exact .self false ⟨hlt, hp₀, hp₁, hs₀, hs₁, h₀, h₁⟩ rfl rfl
    · have hres := ih₀ h₀ (votes.filter fun id => !id.bit index) (r₀ || reset)
      split
      next hnil =>
        refine .self true ⟨hlt, hp₀, hp₁, ?_, hs₁, trivial, h₁⟩ rfl rfl
        rwa [eq_nil_of_isNil hnil] at hs₀
      next hsome =>
        have hsome : c₀.isNil = false := Bool.eq_false_iff.mpr hsome
        have hs₀' := hs₀.changed hres
        split
        · refine .replaced true hres hs₀ hsome ?_ rfl ?_ rfl rfl (hside false)
          · exact Nat.lt_succ_self index
          · exact ⟨hlt, hp₀, hp₁, hs₀', hs₁, hres.changed, h₁⟩
        · have hpref' := (hres.returned.preference_mem (F := F) (hres.returned_isNil.trans hsome)).1
          refine .self true ?_ rfl rfl
          exact ⟨hlt, hpref', hp₁, hs₀', hs₁, hres.changed, h₁⟩

end Node

end Titan.Snow
