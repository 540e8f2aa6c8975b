import Titan.Snow.Instance

/-!
# Titan.Snow.Tree — the snowball tree

A modified Patricia tree of snow instances over the bits of block identifiers.
The source mutates nodes in place: `RecordPoll` changes the node it is called on
and also returns a node, and its callers do not always keep the one returned.
`Node.recordPoll` therefore gives both, the changed node and the returned one.

What consensus above the tree needs of it:

* `add_preference`: adding a choice never changes the preference;
* `recordPoll_prefersIn`: a poll only ever prefers choices that were added.
-/

namespace Titan.Snow

abbrev ID := BitVec 256

instance : LawfulBEq ID := inferInstance

def numBits : ℕ := 256

/-- `ID.Bit`: bit `i % 8` of byte `i / 8`, that is, bit `i` of the little-endian
number the bytes spell. -/
def ID.bit (id : ID) (i : ℕ) : Bool := BitVec.getLsbD id i

/-- `EqualSubset`: the bits in `[start, stop)` agree. -/
def equalSubset (start stop : ℕ) (id₁ id₂ : ID) : Bool :=
  if stop ≤ start then true
  else if numBits < stop then false
  else (List.range stop).all fun i => i < start || id₁.bit i = id₂.bit i

/-- `FirstDifferenceSubset`: the first bit in `[start, stop)` that differs. -/
def firstDifferenceSubset (start stop : ℕ) (id₁ id₂ : ID) : Option ℕ :=
  if stop ≤ start ∨ numBits < stop then none
  else (List.range stop).find? fun i => start ≤ i && id₁.bit i ≠ id₂.bit i

/-! ## Bags -/

/-- `bag.Bag`: the entries of the count map, one for each key. The size of the
source is the sum of the counts. -/
structure Bag (α : Type) where
  counts : List (α × ℕ)
  nodup : (counts.map Prod.fst).Nodup

namespace Bag

variable {α : Type}

def empty : Bag α := ⟨[], List.nodup_nil⟩

def len (b : Bag α) : ℕ := (b.counts.map Prod.snd).sum

@[simp] theorem len_empty : (empty : Bag α).len = 0 := rfl

def list (b : Bag α) : List α := b.counts.map Prod.fst

def filter (b : Bag α) (p : α → Bool) : Bag α where
  counts := b.counts.filter fun e => p e.1
  nodup := b.nodup.sublist (List.filter_sublist.map _)

variable [DecidableEq α]

def count (b : Bag α) (elt : α) : ℕ := (b.counts.lookup elt).getD 0

def addCount (b : Bag α) (elt : α) (n : ℕ) : Bag α :=
  if n = 0 then b
  else
    { counts := (elt, b.count elt + n) :: (b.filter (· ≠ elt)).counts
      nodup := by
        rw [List.map_cons, List.nodup_cons]
        refine ⟨?_, (b.filter _).nodup⟩
        simp [filter] }

theorem count_addCount (b : Bag α) (elt : α) (n : ℕ) (c : α) :
    (b.addCount elt n).count c = b.count c + if c = elt then n else 0 := by
  unfold addCount
  split
  · simp [*]
  by_cases hc : c = elt
  · simp [count, hc]
  · have hne : (c == elt) = false := by simpa using hc
    have hrest : (b.filter (· ≠ elt)).counts.lookup c = b.counts.lookup c := by
      simp only [filter]
      induction b.counts with
      | nil => rfl
      | cons e rest ih =>
        by_cases he : e.1 = elt
        · have hce : (c == e.1) = false := by rwa [he]
          rw [List.filter_cons_of_neg (by simpa using he), ih, List.lookup_cons, hce]
        · rw [List.filter_cons_of_pos (by simpa using he), List.lookup_cons, List.lookup_cons, ih]
    simp only [count, List.lookup_cons, hne, hrest, if_neg hc, Nat.add_zero]

theorem count_eq_zero {b : Bag α} {c : α} (hc : c ∉ b.list) : b.count c = 0 := by
  have hnone : b.counts.lookup c = none := by
    rw [List.lookup_eq_none_iff]
    intro e he
    have : c ≠ e.1 := fun heq => hc (List.mem_map.mpr ⟨e, he, heq.symm⟩)
    simpa using this
  simp [count, hnone]

/-- The counts of the keys add up to the size. -/
theorem sum_count (b : Bag α) : (b.list.map b.count).sum = b.len := by
  obtain ⟨counts, hnodup⟩ := b
  simp only [list, len, List.map_map]
  congr 1
  refine List.map_congr_left ?_
  intro e he
  have hlookup : counts.lookup e.1 = some e.2 := by
    induction counts with
    | nil => cases he
    | cons f rest ih =>
      rw [List.map_cons, List.nodup_cons] at hnodup
      rcases List.mem_cons.mp he with rfl | he
      · rw [List.lookup_cons]
        simp
      · have hne : (e.1 == f.1) = false := by
          have : e.1 ≠ f.1 := fun heq => hnodup.1 (List.mem_map.mpr ⟨e, he, heq⟩)
          simpa using this
        rw [List.lookup_cons, hne]
        exact ih hnodup.2 he
  simp [count, hlookup]

end Bag

/-! ## Nodes -/

/-- A node of the tree; `nil` is the nil child of the source. -/
inductive Node (U B : Type) where
  | nil
  | unary (preference : ID) (decidedPrefix commonPrefix : ℕ) (snow : U) (shouldReset : Bool)
      (child : Node U B)
  | binary (preference₀ preference₁ : ID) (bit : ℕ) (snow : B) (shouldReset₀ shouldReset₁ : Bool)
      (child₀ child₁ : Node U B)

variable {U B : Type}

namespace Node

def isNil : Node U B → Bool
  | nil => true
  | _ => false

/-- A binary node whose sides are given for a bit and its complement. -/
def branch (bit : Bool) (index : ℕ) (snow : B) (reset : Bool) (pref other : ID)
    (child otherChild : Node U B) : Node U B :=
  if bit then .binary other pref index snow reset reset otherChild child
  else .binary pref other index snow reset reset child otherChild

variable (F : Factory U B)

def preference : Node U B → ID
  | nil => 0
  | unary pref _ _ _ _ _ => pref
  | binary p₀ p₁ _ snow _ _ _ _ => if F.binaryPreference snow then p₁ else p₀

def decidedPrefix : Node U B → ℕ
  | nil => 0
  | unary _ decided _ _ _ _ => decided
  | binary _ _ bit _ _ _ _ _ => bit

def finalized : Node U B → Bool
  | nil => false
  | unary _ _ _ snow _ _ => F.unaryFinalized snow
  | binary _ _ _ snow _ _ _ _ => F.binaryFinalized snow

/-- `Add`. The five cases of a unary node are those of the source's comment. -/
def add (params : Parameters) : Node U B → ID → Node U B
  | nil, _ => nil
  | unary pref decided common snow reset child, choice =>
    if F.unaryFinalized snow then
      unary pref decided common snow reset child
    else
      match firstDifferenceSubset decided common pref choice with
      | none => unary pref decided common snow reset (child.add params choice)
      | some index =>
        let bit := pref.bit index
        let newChild := unary choice (index + 1) numBits (F.newUnary params) false nil
        if decided + 1 = common then
          -- one bit only: the node becomes the branch
          branch bit index (F.extend snow bit) reset pref choice child
            (if child.isNil then nil else newChild)
        else if index = decided then
          -- split on the first bit
          branch bit index (F.extend snow bit) reset pref choice
            (unary pref (decided + 1) common snow reset child) newChild
        else if index + 1 = common then
          -- split on the last bit
          unary pref decided (common - 1) snow reset
            (branch bit index (F.extend snow bit) reset pref choice child
              (if child.isNil then nil else newChild))
        else
          -- split on an interior bit
          unary pref decided index snow false
            (branch bit index (F.extend snow bit) reset pref choice
              (unary pref (index + 1) common snow reset child) newChild)
  | binary p₀ p₁ bit snow r₀ r₁ c₀ c₁, choice =>
    if choice.bit bit then binary p₀ p₁ bit snow r₀ r₁ c₀ (c₁.add params choice)
    else binary p₀ p₁ bit snow r₀ r₁ (c₀.add params choice) c₁

/-- `RecordPoll`: the changed node, the returned node, and whether the poll was
successful. -/
def recordPoll (params : Parameters) : Node U B → Bag ID → Bool → Node U B × Node U B × Bool
  | nil, _, _ => (nil, nil, false)
  | unary pref decided common snow shouldReset child, votes, reset =>
    let snow := if reset then F.unaryRecordUnsuccessfulPoll snow else snow
    let shouldReset := shouldReset || reset
    if votes.len < params.alphaPreference then
      let u := unary pref decided common (F.unaryRecordUnsuccessfulPoll snow) true child
      (u, u, false)
    else
      let snow := F.unaryRecordPoll snow votes.len
      let (child', newChild, _) := child.recordPoll params votes shouldReset
      if child.isNil then
        let u := unary pref decided common snow false nil
        (u, u, true)
      else if F.unaryFinalized snow then
        (unary pref decided common snow shouldReset child', newChild, true)
      else
        -- the preference is that of the old child, which the poll has changed
        let u := unary (child'.preference F) decided common snow false child'
        (u, u, true)
  | binary p₀ p₁ index snow r₀ r₁ c₀ c₁, votes, reset =>
    let votes₁ := votes.filter (fun id => id.bit index)
    let votes₀ := votes.filter (fun id => !id.bit index)
    let snow := if reset then F.binaryRecordUnsuccessfulPoll snow else snow
    if params.alphaPreference ≤ votes₁.len then
      let snow := F.binaryRecordPoll snow votes₁.len true
      let (c₁', newChild, _) := c₁.recordPoll params votes₁ (r₁ || reset)
      if c₁.isNil then
        let b := binary p₀ p₁ index snow true false c₀ nil
        (b, b, true)
      else if F.binaryFinalized snow then
        (binary p₀ p₁ index snow true (r₁ || reset) c₀ c₁', newChild, true)
      else
        let b := binary p₀ (newChild.preference F) index snow true false c₀ c₁'
        (b, b, true)
    else if votes₀.len < params.alphaPreference then
      let b := binary p₀ p₁ index (F.binaryRecordUnsuccessfulPoll snow) true true c₀ c₁
      (b, b, false)
    else
      let snow := F.binaryRecordPoll snow votes₀.len false
      let (c₀', newChild, _) := c₀.recordPoll params votes₀ (r₀ || reset)
      if c₀.isNil then
        let b := binary p₀ p₁ index snow false true nil c₁
        (b, b, true)
      else if F.binaryFinalized snow then
        (binary p₀ p₁ index snow (r₀ || reset) true c₀' c₁, newChild, true)
      else
        let b := binary (newChild.preference F) p₁ index snow false true c₀' c₁
        (b, b, true)

/-! ## Preferences are added choices -/

/-- Every choice a node stores satisfies `S`. -/
def PrefersIn (S : ID → Prop) : Node U B → Prop
  | nil => True
  | unary pref _ _ _ _ child => S pref ∧ child.PrefersIn S
  | binary p₀ p₁ _ _ _ _ c₀ c₁ => S p₀ ∧ S p₁ ∧ c₀.PrefersIn S ∧ c₁.PrefersIn S

theorem prefersIn_true (n : Node U B) : n.PrefersIn fun _ => True := by
  induction n with
  | nil => trivial
  | unary pref decided common snow reset child ih => exact ⟨trivial, ih⟩
  | binary p₀ p₁ bit snow r₀ r₁ c₀ c₁ ih₀ ih₁ => exact ⟨trivial, trivial, ih₀, ih₁⟩

variable {S : ID → Prop} {n : Node U B}

theorem PrefersIn.mono {T : ID → Prop} (h : ∀ id, S id → T id) (hn : n.PrefersIn S) :
    n.PrefersIn T := by
  induction n with
  | nil => trivial
  | unary pref decided common snow reset child ih => exact ⟨h _ hn.1, ih hn.2⟩
  | binary p₀ p₁ bit snow r₀ r₁ c₀ c₁ ih₀ ih₁ =>
    exact ⟨h _ hn.1, h _ hn.2.1, ih₀ hn.2.2.1, ih₁ hn.2.2.2⟩

theorem PrefersIn.preference_mem (hn : n.PrefersIn S) (hnil : n.isNil = false) :
    S (n.preference F) := by
  cases n with
  | nil => cases hnil
  | unary pref decided common snow reset child => exact hn.1
  | binary p₀ p₁ bit snow r₀ r₁ c₀ c₁ =>
    obtain ⟨h₀, h₁, -, -⟩ := hn
    by_cases hbit : F.binaryPreference snow = true
    · simpa [Node.preference, hbit] using h₁
    · simpa [Node.preference, hbit] using h₀

theorem branch_prefersIn (bit : Bool) (index : ℕ) (snow : B) (reset : Bool) {pref other : ID}
    {child otherChild : Node U B} (hpref : S pref) (hother : S other) (hchild : child.PrefersIn S)
    (hotherChild : otherChild.PrefersIn S) :
    (branch bit index snow reset pref other child otherChild).PrefersIn S := by
  unfold branch
  split
  · exact ⟨hother, hpref, hotherChild, hchild⟩
  · exact ⟨hpref, hother, hchild, hotherChild⟩

theorem add_prefersIn (params : Parameters) {choice : ID} (hn : n.PrefersIn S) (hchoice : S choice) :
    (n.add F params choice).PrefersIn S := by
  induction n with
  | nil => trivial
  | unary pref decided common snow reset child ih =>
    obtain ⟨hpref, hchild⟩ := hn
    have hnew : ∀ i, (unary choice i numBits (F.newUnary params) false
        (nil : Node U B)).PrefersIn S := fun _ => ⟨hchoice, trivial⟩
    have hlast : ∀ i, (if child.isNil then (nil : Node U B) else
        unary choice i numBits (F.newUnary params) false nil).PrefersIn S := by
      intro i
      split
      · trivial
      · exact hnew i
    unfold Node.add
    split
    · exact ⟨hpref, hchild⟩
    split
    · exact ⟨hpref, ih hchild⟩
    split
    · exact branch_prefersIn _ _ _ _ hpref hchoice hchild (hlast _)
    split
    · exact branch_prefersIn _ _ _ _ hpref hchoice ⟨hpref, hchild⟩ (hnew _)
    split
    · exact ⟨hpref, branch_prefersIn _ _ _ _ hpref hchoice hchild (hlast _)⟩
    · exact ⟨hpref, branch_prefersIn _ _ _ _ hpref hchoice ⟨hpref, hchild⟩ (hnew _)⟩
  | binary p₀ p₁ bit snow r₀ r₁ c₀ c₁ ih₀ ih₁ =>
    obtain ⟨h₀, h₁, hc₀, hc₁⟩ := hn
    unfold Node.add
    split
    · exact ⟨h₀, h₁, hc₀, ih₁ hc₁⟩
    · exact ⟨h₀, h₁, ih₀ hc₀, hc₁⟩

/-! ## Adding a choice keeps the preference -/

theorem branch_preference (hF : F.Lawful) (bit : Bool) (index : ℕ) (u : U) (reset : Bool)
    (pref other : ID) (child otherChild : Node U B) :
    (branch bit index (F.extend u bit) reset pref other child otherChild).preference F = pref := by
  unfold branch
  cases bit with
  | false => simp [Node.preference, hF.extend_preference]
  | true => simp [Node.preference, hF.extend_preference]

theorem add_preference (hF : F.Lawful) (params : Parameters) (n : Node U B) (choice : ID) :
    (n.add F params choice).preference F = n.preference F := by
  cases n with
  | nil => rfl
  | unary pref decided common snow reset child =>
    unfold Node.add
    split
    · rfl
    split
    · rfl
    split
    · exact branch_preference F hF _ _ _ _ _ _ _ _
    split
    · exact branch_preference F hF _ _ _ _ _ _ _ _
    split
    · rfl
    · rfl
  | binary p₀ p₁ bit snow r₀ r₁ c₀ c₁ =>
    unfold Node.add
    split <;> rfl

theorem branch_isNil (bit : Bool) (index : ℕ) (snow : B) (reset : Bool) (pref other : ID)
    (child otherChild : Node U B) :
    (branch bit index snow reset pref other child otherChild).isNil = false := by
  cases bit <;> rfl

theorem add_isNil (params : Parameters) (n : Node U B) (choice : ID) :
    (n.add F params choice).isNil = n.isNil := by
  cases n with
  | nil => rfl
  | unary pref decided common snow reset child =>
    unfold Node.add
    split
    · rfl
    split
    · rfl
    split
    · exact branch_isNil _ _ _ _ _ _ _ _
    split
    · exact branch_isNil _ _ _ _ _ _ _ _
    split
    · rfl
    · rfl
  | binary p₀ p₁ bit snow r₀ r₁ c₀ c₁ =>
    unfold Node.add
    split <;> rfl

/-! ## Polls -/

/-- A poll neither makes a node vanish nor lets it store a choice that was not
stored before; and so for the node it returns. -/
theorem recordPoll_prefersIn (params : Parameters) (votes : Bag ID) (reset : Bool)
    (hn : n.PrefersIn S) (hnil : n.isNil = false) :
    ((n.recordPoll F params votes reset).1.PrefersIn S ∧
      (n.recordPoll F params votes reset).1.isNil = false) ∧
    ((n.recordPoll F params votes reset).2.1.PrefersIn S ∧
      (n.recordPoll F params votes reset).2.1.isNil = false) := by
  induction n generalizing votes reset with
  | nil => cases hnil
  | unary pref decided common snow shouldReset child ih =>
    obtain ⟨hpref, hchild⟩ := hn
    unfold Node.recordPoll
    dsimp only
    -- whether the instance was reset first does not matter here
    generalize (if reset = true then F.unaryRecordUnsuccessfulPoll snow else snow) = snow'
    split
    · exact ⟨⟨⟨hpref, hchild⟩, rfl⟩, ⟨hpref, hchild⟩, rfl⟩
    split
    · exact ⟨⟨⟨hpref, trivial⟩, rfl⟩, ⟨hpref, trivial⟩, rfl⟩
    rename_i hsome
    obtain ⟨hself, hret⟩ := ih votes (shouldReset || reset) hchild (by simpa using hsome)
    split
    · exact ⟨⟨⟨hpref, hself.1⟩, rfl⟩, hret⟩
    · have hnew := hself.1.preference_mem F hself.2
      exact ⟨⟨⟨hnew, hself.1⟩, rfl⟩, ⟨hnew, hself.1⟩, rfl⟩
  | binary p₀ p₁ index snow r₀ r₁ c₀ c₁ ih₀ ih₁ =>
    obtain ⟨h₀, h₁, hc₀, hc₁⟩ := hn
    unfold Node.recordPoll
    dsimp only
    generalize (if reset = true then F.binaryRecordUnsuccessfulPoll snow else snow) = snow'
    split
    · -- bit 1 reached the threshold
      split
      · exact ⟨⟨⟨h₀, h₁, hc₀, trivial⟩, rfl⟩, ⟨h₀, h₁, hc₀, trivial⟩, rfl⟩
      rename_i hsome
      obtain ⟨hself, hret⟩ := ih₁ (votes.filter fun id => id.bit index) (r₁ || reset) hc₁
        (by simpa using hsome)
      split
      · exact ⟨⟨⟨h₀, h₁, hc₀, hself.1⟩, rfl⟩, hret⟩
      · have hnew := hret.1.preference_mem F hret.2
        exact ⟨⟨⟨h₀, hnew, hc₀, hself.1⟩, rfl⟩, ⟨h₀, hnew, hc₀, hself.1⟩, rfl⟩
    split
    · exact ⟨⟨⟨h₀, h₁, hc₀, hc₁⟩, rfl⟩, ⟨h₀, h₁, hc₀, hc₁⟩, rfl⟩
    · split
      · exact ⟨⟨⟨h₀, h₁, trivial, hc₁⟩, rfl⟩, ⟨h₀, h₁, trivial, hc₁⟩, rfl⟩
      rename_i hsome
      obtain ⟨hself, hret⟩ := ih₀ (votes.filter fun id => !id.bit index) (r₀ || reset) hc₀
        (by simpa using hsome)
      split
      · exact ⟨⟨⟨h₀, h₁, hself.1, hc₁⟩, rfl⟩, hret⟩
      · have hnew := hret.1.preference_mem F hret.2
        exact ⟨⟨⟨hnew, h₁, hself.1, hc₁⟩, rfl⟩, ⟨hnew, h₁, hself.1, hc₁⟩, rfl⟩

end Node

/-! ## The tree -/

/-- `Tree`. Its root is never nil, which is part of the structure. -/
structure Tree (U B : Type) where
  node : Node U B
  shouldReset : Bool
  root : node.isNil = false

namespace Tree

variable (F : Factory U B) (params : Parameters)

/-- `NewTree`. -/
def new (choice : ID) : Tree U B where
  node := .unary choice 0 numBits (F.newUnary params) false .nil
  shouldReset := false
  root := rfl

def preference (t : Tree U B) : ID := t.node.preference F

def finalized (t : Tree U B) : Bool := t.node.finalized F

/-- `Add`: ignored when the decided prefix already excludes the choice. -/
def add (t : Tree U B) (choice : ID) : Tree U B :=
  if equalSubset 0 t.node.decidedPrefix (t.preference F) choice then
    { t with
      node := t.node.add F params choice
      root := by rw [Node.add_isNil]; exact t.root }
  else t

/-- `RecordPoll`: votes outside the decided prefix are dropped. -/
def recordPoll (t : Tree U B) (votes : Bag ID) : Tree U B × Bool :=
  let filtered := votes.filter fun id =>
    equalSubset 0 t.node.decidedPrefix (t.preference F) id
  ({ node := (t.node.recordPoll F params filtered t.shouldReset).2.1
     shouldReset := false
     root := (Node.recordPoll_prefersIn F params filtered t.shouldReset
       (S := fun _ => True) t.node.prefersIn_true t.root).2.2 },
    (t.node.recordPoll F params filtered t.shouldReset).2.2)

def recordUnsuccessfulPoll (t : Tree U B) : Tree U B := { t with shouldReset := true }

/-! ### Laws -/

variable {S : ID → Prop} {t : Tree U B}

theorem preference_mem (h : t.node.PrefersIn S) :
    S (t.preference F) :=
  h.preference_mem F t.root

theorem add_prefersIn {choice : ID} (h : t.node.PrefersIn S) (hchoice : S choice) :
    (t.add F params choice).node.PrefersIn S := by
  unfold Tree.add
  split
  · exact Node.add_prefersIn F params h hchoice
  · exact h

theorem recordPoll_prefersIn (votes : Bag ID) (h : t.node.PrefersIn S) :
    (t.recordPoll F params votes).1.node.PrefersIn S :=
  (Node.recordPoll_prefersIn F params _ _ h t.root).2.1

theorem add_preference (hF : F.Lawful) (t : Tree U B) (choice : ID) :
    (t.add F params choice).preference F = t.preference F := by
  unfold Tree.add
  split
  · exact Node.add_preference F hF params t.node choice
  · rfl

end Tree

end Titan.Snow
