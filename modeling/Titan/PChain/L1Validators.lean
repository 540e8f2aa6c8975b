import Titan.PChain.Types

/-!
# Titan.PChain.L1Validators — the L1 validators of a diff

A diff keeps what `PutL1Validator` changed in five places: the number of
validators that became active, the total weight of each subnet, the written
validators, the (subnet, node) pairs and an ordered tree of the active written
validators. Reads combine these with the parent state.

`LiveSet` is what the bookkeeping is for: the validators that exist, no two with
one validation ID or one (subnet, node) pair. `L1View.Tracks` says that every
read answers for a live set, and `l1_bookkeeping` that this stays so over every
sequence of calls, failing ones included.

The ordered tree is an external library and enters through the laws of
`Lib.TreeOps`; iterators are the lists they yield.
-/

namespace Titan.PChain

open Lib

/-- An ACP-77 validator. -/
structure L1Validator where
  validationID : ID
  subnetID : ID
  nodeID : NodeID
  publicKey : Bytes
  remainingBalanceOwner : Bytes
  deactivationOwner : Bytes
  startTime : ℕ
  weight : ℕ
  minNonce : ℕ
  endAccumulatedFee : ℕ
deriving DecidableEq, Repr

namespace L1Validator

def compare (v o : L1Validator) : Ordering :=
  if v.endAccumulatedFee < o.endAccumulatedFee then .lt
  else if o.endAccumulatedFee < v.endAccumulatedFee then .gt
  else if v.validationID < o.validationID then .lt
  else if o.validationID < v.validationID then .gt
  else .eq

def less (v o : L1Validator) : Bool := v.compare o == .lt

def immutableFieldsAreUnmodified (v o : L1Validator) : Bool :=
  if v.validationID ≠ o.validationID then true
  else
    v.subnetID == o.subnetID && v.nodeID == o.nodeID && v.publicKey == o.publicKey &&
      v.remainingBalanceOwner == o.remainingBalanceOwner &&
      v.deactivationOwner == o.deactivationOwner && v.startTime == o.startTime

def isDeleted (v : L1Validator) : Bool := v.weight == 0

def isActive (v : L1Validator) : Bool := v.weight != 0 && v.endAccumulatedFee != 0

/-- The (subnet, node) pair of a validator, `subnetIDNodeID`. -/
def pair (v : L1Validator) : ID × NodeID := (v.subnetID, v.nodeID)

theorem less_iff (v o : L1Validator) : v.less o ↔ v.endAccumulatedFee < o.endAccumulatedFee ∨
    v.endAccumulatedFee = o.endAccumulatedFee ∧ v.validationID < o.validationID := by
  unfold less compare
  split
  next h => simp [h]
  next h =>
    split
    next h' => simp; omega
    next h' =>
      have heq : v.endAccumulatedFee = o.endAccumulatedFee := by omega
      split
      next hid => simp [heq, hid]
      next hid => split <;> simp [heq, hid]

theorem less_trans (a b c : L1Validator) (hab : a.less b) (hbc : b.less c) : a.less c := by
  rw [less_iff] at *
  rcases hab with h | ⟨h, hid⟩ <;> rcases hbc with h' | ⟨h', hid'⟩
  · exact .inl (h.trans h')
  · exact .inl (h'.symm ▸ h)
  · exact .inl (h ▸ h')
  · exact .inr ⟨h.trans h', hid.trans hid'⟩

/-- Validators with different IDs are ordered. -/
theorem less_or_less {a b : L1Validator} (h : a.validationID ≠ b.validationID) :
    a.less b ∨ b.less a := by
  rw [less_iff, less_iff]
  rcases lt_trichotomy a.endAccumulatedFee b.endAccumulatedFee with hf | hf | hf
  · exact .inl (.inl hf)
  · rcases lt_or_gt_of_ne h with hid | hid
    · exact .inl (.inr ⟨hf, hid⟩)
    · exact .inr (.inr ⟨hf.symm, hid⟩)
  · exact .inr (.inl hf)

theorem not_less_self (a : L1Validator) : ¬ a.less a := by
  rw [less_iff]
  simp

theorem isActive_iff (v : L1Validator) : v.isActive ↔ v.weight ≠ 0 ∧ v.endAccumulatedFee ≠ 0 := by
  simp [isActive]

theorem pair_eq_of_unmodified {v o : L1Validator} (h : v.immutableFieldsAreUnmodified o)
    (hid : v.validationID = o.validationID) : v.pair = o.pair := by
  simp only [immutableFieldsAreUnmodified, hid, ne_eq, not_true_eq_false, if_false,
    Bool.and_eq_true, beq_iff_eq] at h
  simp only [pair, h.1.1.1.1.1, h.1.1.1.1.2]

end L1Validator

/-! ## Reads and the diff -/

/-- What a chain state answers about L1 validators, and about the legacy validator
of a (subnet, node) pair. -/
structure L1View where
  getActiveL1ValidatorsIterator : Except StateError (List L1Validator)
  numActiveL1Validators : ℤ
  weightOfL1Validators : ID → Except StateError ℕ
  getL1Validator : ID → Except StateError L1Validator
  hasL1Validator : ID → NodeID → Except StateError Bool
  getCurrentValidator : ID → NodeID → Except StateError Staker

/-- `l1ValidatorsDiff`, over an ordered tree. -/
structure L1ValidatorsDiff (T : TreeOps L1Validator) where
  netAddedActive : ℤ
  modifiedTotalWeight : GoMap ID ℕ
  modified : GoMap ID L1Validator
  modifiedHasNodeIDs : GoMap (ID × NodeID) Bool
  active : T.Tree

/-- The two checks `putL1Validator` makes before it looks at weights. On success,
the weight and the activity of the validator it replaces. -/
def checkPrior (state : L1View) (v : L1Validator) : Except StateError (ℕ × Bool) :=
  match state.getL1Validator v.validationID with
  | .ok prior =>
    if prior.immutableFieldsAreUnmodified v then .ok (prior.weight, prior.isActive)
    else .error .mutatedL1Validator
  | .error .notFound =>
    -- no legacy validator with the same subnetID+nodeID
    match state.getCurrentValidator v.subnetID v.nodeID with
    | .ok _ => .error .conflictingL1Validator
    | .error .notFound =>
      match state.hasL1Validator v.subnetID v.nodeID with
      | .ok true => .error .duplicateL1Validator
      | .ok false => .ok (0, false)
      | .error e => .error e
    | .error e => .error e
  | .error e => .error e

/-- The subnet's new total weight, when the validator's weight changes. -/
def checkWeight (state : L1View) (prevWeight : ℕ) (v : L1Validator) :
    Except StateError (Option ℕ) :=
  if prevWeight = v.weight then .ok none
  else do
    let weight ← state.weightOfL1Validators v.subnetID
    let weight ← mathSub weight prevWeight
    let weight ← mathAdd weight v.weight
    return some weight

namespace L1ValidatorsDiff

variable {T : TreeOps L1Validator}

/-- `newL1ValidatorsDiff`. -/
def new (T : TreeOps L1Validator) : L1ValidatorsDiff T where
  netAddedActive := 0
  modifiedTotalWeight := ∅
  modified := ∅
  modifiedHasNodeIDs := ∅
  active := T.empty

/-- The parent's active validators without the modified ones, merged with the
modified active ones. -/
def getActiveL1ValidatorsIterator (d : L1ValidatorsDiff T) (parent : List L1Validator) :
    List L1Validator :=
  mergeBy L1Validator.less
    (parent.filter (fun v => !(d.modified.lookup v.validationID).isSome)) (T.ascend d.active)

/-- The writes of a `putL1Validator` that passed its checks. -/
def record (d : L1ValidatorsDiff T) (prevActive : Bool) (weight : Option ℕ) (v : L1Validator) :
    L1ValidatorsDiff T where
  modifiedTotalWeight :=
    match weight with
    | some w => d.modifiedTotalWeight.insert v.subnetID w
    | none => d.modifiedTotalWeight
  netAddedActive :=
    if prevActive && !v.isActive then d.netAddedActive - 1
    else if !prevActive && v.isActive then d.netAddedActive + 1
    else d.netAddedActive
  modified := d.modified.insert v.validationID v
  modifiedHasNodeIDs := d.modifiedHasNodeIDs.insert v.pair (!v.isDeleted)
  active :=
    let active := match d.modified.lookup v.validationID with
      | some prev => T.delete d.active prev
      | none => d.active
    if v.isActive then T.replaceOrInsert active v else active

@[simp] theorem record_modified (d : L1ValidatorsDiff T) (prevActive : Bool) (weight : Option ℕ)
    (v : L1Validator) :
    (d.record prevActive weight v).modified = d.modified.insert v.validationID v := rfl

@[simp] theorem record_modifiedHasNodeIDs (d : L1ValidatorsDiff T) (prevActive : Bool)
    (weight : Option ℕ) (v : L1Validator) : (d.record prevActive weight v).modifiedHasNodeIDs =
      d.modifiedHasNodeIDs.insert v.pair (!v.isDeleted) := rfl

/-- `putL1Validator` on a diff whose reads are `state`: its result and the diff it
leaves behind. -/
def putL1Validator (d : L1ValidatorsDiff T) (state : L1View) (v : L1Validator) :
    Except StateError Unit × L1ValidatorsDiff T :=
  match checkPrior state v with
  | .error e => (.error e, d)
  | .ok (prevWeight, prevActive) =>
    match checkWeight state prevWeight v with
    | .error e => (.error e, d)
    | .ok weight => (.ok (), d.record prevActive weight v)

/-- The reads of a diff over `parent`. The number of active validators of the
parent was read when the diff was made; `legacy` is the diff's
`GetCurrentValidator`. -/
def view (d : L1ValidatorsDiff T) (parent : L1View) (parentNumActiveL1Validators : ℤ)
    (legacy : ID → NodeID → Except StateError Staker) : L1View where
  getActiveL1ValidatorsIterator := do
    let parentIterator ← parent.getActiveL1ValidatorsIterator
    return d.getActiveL1ValidatorsIterator parentIterator
  numActiveL1Validators := parentNumActiveL1Validators + d.netAddedActive
  weightOfL1Validators subnetID :=
    match d.modifiedTotalWeight.lookup subnetID with
    | some weight => .ok weight
    | none => parent.weightOfL1Validators subnetID
  getL1Validator validationID :=
    match d.modified.lookup validationID with
    | some v => if v.isDeleted then .error .notFound else .ok v
    | none => parent.getL1Validator validationID
  hasL1Validator subnetID nodeID :=
    match d.modifiedHasNodeIDs.lookup (subnetID, nodeID) with
    | some has => .ok has
    | none => parent.hasL1Validator subnetID nodeID
  getCurrentValidator := legacy

end L1ValidatorsDiff

/-! ## Live validators -/

/-- The L1 validators that exist. -/
structure LiveSet where
  carrier : Finset L1Validator
  weight_ne : ∀ v ∈ carrier, v.weight ≠ 0
  id_inj : ∀ v ∈ carrier, ∀ w ∈ carrier, v.validationID = w.validationID → v = w
  pair_inj : ∀ v ∈ carrier, ∀ w ∈ carrier, v.pair = w.pair → v = w

/-- The effect of a successful put on the set of validators that exist. -/
def putLive (S : Finset L1Validator) (v : L1Validator) : Finset L1Validator :=
  S.filter (fun w => w.validationID ≠ v.validationID) ∪ if v.weight = 0 then ∅ else {v}

variable {v : L1Validator}

theorem mem_putLive {S : Finset L1Validator} {w : L1Validator} :
    w ∈ putLive S v ↔ w ∈ S ∧ w.validationID ≠ v.validationID ∨ w = v ∧ v.weight ≠ 0 := by
  unfold putLive
  rw [Finset.mem_union, Finset.mem_filter]
  split
  next h => simp [h]
  next h => simp [h]

namespace LiveSet

/-- No L1 validators. -/
def empty : LiveSet := ⟨∅, by simp, by simp, by simp⟩

/-- The total weight of a subnet's validators. -/
def weight (S : LiveSet) (subnetID : ID) : ℕ :=
  ∑ v ∈ S.carrier with v.subnetID = subnetID, v.weight

/-- The number of active validators. -/
def numActive (S : LiveSet) : ℕ := (S.carrier.filter (fun v => v.endAccumulatedFee ≠ 0)).card

/-- Whether a (subnet, node) pair is taken. -/
def has (S : LiveSet) (subnetID : ID) (nodeID : NodeID) : Prop :=
  ∃ v ∈ S.carrier, v.pair = (subnetID, nodeID)

instance (S : LiveSet) (subnetID : ID) (nodeID : NodeID) : Decidable (S.has subnetID nodeID) :=
  inferInstanceAs (Decidable (∃ v ∈ S.carrier, v.pair = (subnetID, nodeID)))

/-- Put a validator whose pair is free, or taken by the same validation ID. -/
def put (S : LiveSet) (v : L1Validator)
    (hfree : ∀ w ∈ S.carrier, w.pair = v.pair → w.validationID = v.validationID) : LiveSet where
  carrier := putLive S.carrier v
  weight_ne := by
    intro w hw
    rcases mem_putLive.mp hw with ⟨hw, -⟩ | ⟨rfl, hw⟩
    · exact S.weight_ne w hw
    · exact hw
  id_inj := by
    intro a ha b hb hab
    rcases mem_putLive.mp ha with ⟨ha, hav⟩ | ⟨rfl, -⟩ <;>
      rcases mem_putLive.mp hb with ⟨hb, hbv⟩ | ⟨rfl, -⟩
    · exact S.id_inj a ha b hb hab
    · exact absurd hab hav
    · exact absurd hab.symm hbv
    · rfl
  pair_inj := by
    intro a ha b hb hab
    rcases mem_putLive.mp ha with ⟨ha', hav⟩ | ⟨rfl, -⟩ <;>
      rcases mem_putLive.mp hb with ⟨hb', hbv⟩ | ⟨rfl, -⟩
    · exact S.pair_inj a ha' b hb' hab
    · exact absurd (hfree a ha' hab) hav
    · exact absurd (hfree b hb' hab.symm) hbv
    · rfl

/-- What the live validator with an ID, if any, contributes to a sum. -/
def prior (S : LiveSet) (validationID : ID) (f : L1Validator → ℕ) : ℕ :=
  ∑ w ∈ S.carrier with w.validationID = validationID, f w

theorem prior_of_mem (S : LiveSet) {p : L1Validator} (hp : p ∈ S.carrier) (f : L1Validator → ℕ) :
    S.prior p.validationID f = f p := by
  have hsingle : S.carrier.filter (fun w => w.validationID = p.validationID) = {p} := by
    ext w
    rw [Finset.mem_filter, Finset.mem_singleton]
    constructor
    · rintro ⟨hw, hid⟩
      exact S.id_inj w hw p hp hid
    · rintro rfl
      exact ⟨hp, rfl⟩
  rw [prior, hsingle, Finset.sum_singleton]

theorem prior_of_not_mem (S : LiveSet) {id : ID} (h : ∀ v ∈ S.carrier, v.validationID ≠ id)
    (f : L1Validator → ℕ) : S.prior id f = 0 := by
  rw [prior, Finset.filter_eq_empty_iff.mpr (fun w hw => h w hw), Finset.sum_empty]

/-- A put replaces, in every sum over the live validators, what the validator
contributed before by what it contributes now. -/
theorem sum_put (S : LiveSet) (v : L1Validator) (f : L1Validator → ℕ)
    (hf : v.weight = 0 → f v = 0) :
    ∑ w ∈ putLive S.carrier v, f w + S.prior v.validationID f = ∑ w ∈ S.carrier, f w + f v := by
  have hdisj : Disjoint (S.carrier.filter (fun w => w.validationID ≠ v.validationID))
      (if v.weight = 0 then ∅ else {v}) := by
    split
    next => exact Finset.disjoint_empty_right _
    next => rw [Finset.disjoint_singleton_right]; simp
  have hnew : ∑ w ∈ (if v.weight = 0 then (∅ : Finset L1Validator) else {v}), f w = f v := by
    split
    next h => rw [Finset.sum_empty, hf h]
    next => exact Finset.sum_singleton f v
  have hsplit := Finset.sum_filter_add_sum_filter_not S.carrier
    (fun w => w.validationID = v.validationID) f
  rw [putLive, Finset.sum_union hdisj, hnew, prior, ← hsplit]
  simp only [ne_eq]
  omega

end LiveSet

/-- Every read answers for the live set. -/
structure L1View.Tracks (V : L1View) (S : LiveSet) : Prop where
  get_live : ∀ v ∈ S.carrier, V.getL1Validator v.validationID = .ok v
  get_absent : ∀ id, (∀ v ∈ S.carrier, v.validationID ≠ id) →
    V.getL1Validator id = .error .notFound
  has_eq : ∀ subnetID nodeID,
    V.hasL1Validator subnetID nodeID = .ok (decide (S.has subnetID nodeID))
  weight_eq : ∀ subnetID, V.weightOfL1Validators subnetID = .ok (S.weight subnetID)
  numActive_eq : V.numActiveL1Validators = S.numActive
  iterator_eq : ∃ l, V.getActiveL1ValidatorsIterator = .ok l ∧ l.Pairwise (fun a b => a.less b) ∧
    ∀ v, v ∈ l ↔ v ∈ S.carrier ∧ v.endAccumulatedFee ≠ 0

/-! ## The diff as an overlay -/

namespace L1ValidatorsDiff

variable {T : TreeOps L1Validator}

/-- The diff over a parent with live set `P` stands for the live set `S`. -/
structure Overlay (d : L1ValidatorsDiff T) (P S : LiveSet) : Prop where
  key : ∀ id v, d.modified.lookup id = some v → v.validationID = id
  live : ∀ v, v ∈ S.carrier ↔ d.modified.lookup v.validationID = some v ∧ v.weight ≠ 0 ∨
    d.modified.lookup v.validationID = none ∧ v ∈ P.carrier
  has : ∀ subnetID nodeID, (d.modifiedHasNodeIDs.lookup (subnetID, nodeID)).getD
    (decide (P.has subnetID nodeID)) = decide (S.has subnetID nodeID)
  weight : ∀ subnetID, (d.modifiedTotalWeight.lookup subnetID).getD (P.weight subnetID) =
    S.weight subnetID
  numActive : P.numActive + d.netAddedActive = S.numActive
  active : ∀ v, v ∈ T.ascend d.active ↔
    d.modified.lookup v.validationID = some v ∧ v.isActive

theorem overlay_new (hT : T.Lawful L1Validator.less) (P : LiveSet) : (new T).Overlay P P := by
  constructor
  · intro id v h
    simp [new] at h
  · intro v
    simp [new]
  · intro subnetID nodeID
    simp [new]
  · intro subnetID
    simp [new]
  · simp [new]
  · intro v
    simp [new, hT.ascend_empty]

/-- The reads of a diff that stands for a live set answer for it. -/
theorem Overlay.tracks (hT : T.Lawful L1Validator.less) {d : L1ValidatorsDiff T} {P S : LiveSet}
    (h : d.Overlay P S) {parent : L1View} (hP : parent.Tracks P)
    (legacy : ID → NodeID → Except StateError Staker) :
    (d.view parent parent.numActiveL1Validators legacy).Tracks S := by
  constructor
  case get_live =>
    intro v hv
    rcases (h.live v).mp hv with ⟨hlook, hw⟩ | ⟨hlook, hv⟩
    · simp [view, hlook, L1Validator.isDeleted, hw]
    · simp [view, hlook, hP.get_live v hv]
  case get_absent =>
    intro id habs
    cases hlook : d.modified.lookup id with
    | some v =>
      have hid := h.key id v hlook
      have hdel : v.weight = 0 := by
        by_contra hw
        exact habs v ((h.live v).mpr (.inl ⟨hid ▸ hlook, hw⟩)) hid
      simp [view, hlook, L1Validator.isDeleted, hdel]
    | none =>
      have hpar : parent.getL1Validator id = .error .notFound := by
        apply hP.get_absent
        rintro v hv rfl
        exact habs v ((h.live v).mpr (.inr ⟨hlook, hv⟩)) rfl
      simp [view, hlook, hpar]
  case has_eq =>
    intro subnetID nodeID
    rw [← h.has subnetID nodeID]
    cases hlook : d.modifiedHasNodeIDs.lookup (subnetID, nodeID) with
    | some b => simp [view, hlook]
    | none => simp [view, hlook, hP.has_eq]
  case weight_eq =>
    intro subnetID
    rw [← h.weight subnetID]
    cases hlook : d.modifiedTotalWeight.lookup subnetID with
    | some w => simp [view, hlook]
    | none => simp [view, hlook, hP.weight_eq]
  case numActive_eq =>
    rw [← h.numActive, ← hP.numActive_eq]
    rfl
  case iterator_eq =>
    rcases hP.iterator_eq with ⟨l, hl, hsorted, hmem⟩
    refine ⟨d.getActiveL1ValidatorsIterator l, ?_, ?_, ?_⟩
    · simp only [view, hl]
      rfl
    · apply pairwise_mergeBy L1Validator.less_trans (hsorted.filter _) (hT.ascend_sorted _)
      -- a parent validator that is left has an ID the tree does not have
      intro a ha b hb
      apply L1Validator.less_or_less
      intro hid
      have hnone := (List.mem_filter.mp ha).2
      rw [hid, ((h.active b).mp hb).1] at hnone
      simp at hnone
    · intro v
      rw [getActiveL1ValidatorsIterator, mem_mergeBy, List.mem_filter, hmem, h.active,
        L1Validator.isActive_iff, h.live]
      cases d.modified.lookup v.validationID with
      | some w => simp; tauto
      | none => simp

end L1ValidatorsDiff

/-! ## One call -/

/-- What a validator adds to the weight of a subnet. -/
def weightIn (subnetID : ID) (v : L1Validator) : ℕ := if v.subnetID = subnetID then v.weight else 0

/-- What a validator adds to the number of active validators. -/
def activeUnit (v : L1Validator) : ℕ := if v.isActive then 1 else 0

theorem LiveSet.weight_eq_sum (S : LiveSet) (subnetID : ID) :
    S.weight subnetID = ∑ v ∈ S.carrier, weightIn subnetID v := by
  rw [LiveSet.weight, Finset.sum_filter]
  rfl

theorem LiveSet.numActive_eq_sum (S : LiveSet) :
    S.numActive = ∑ v ∈ S.carrier, activeUnit v := by
  rw [LiveSet.numActive, Finset.card_filter]
  apply Finset.sum_congr rfl
  intro v hv
  have hw := S.weight_ne v hv
  simp [activeUnit, L1Validator.isActive, hw]

/-- What the checks of `putL1Validator` establish before it writes: a validator
`v` may be put into `S`, with the activity of the validator it replaces and the
new weight of its subnet. -/
structure Admitted (S : LiveSet) (v : L1Validator) (prevActive : Bool) (weight : Option ℕ) :
    Prop where
  pair_free : ∀ w ∈ S.carrier, w.pair = v.pair → w.validationID = v.validationID
  same_pair : ∀ w ∈ S.carrier, w.validationID = v.validationID → w.pair = v.pair
  prevActive_eq : (if prevActive then 1 else 0) = S.prior v.validationID activeUnit
  weight_eq : weight.getD (S.weight v.subnetID) + S.prior v.validationID (·.weight) =
    S.weight v.subnetID + v.weight

variable {S : LiveSet} {V : L1View}

theorem checkPrior_ok (hV : V.Tracks S) {prevWeight : ℕ} {prevActive : Bool}
    (h : checkPrior V v = .ok (prevWeight, prevActive)) :
    (∀ w ∈ S.carrier, w.pair = v.pair → w.validationID = v.validationID) ∧
      (∀ w ∈ S.carrier, w.validationID = v.validationID → w.pair = v.pair) ∧
      (if prevActive then 1 else 0) = S.prior v.validationID activeUnit ∧
      prevWeight = S.prior v.validationID (·.weight) := by
  by_cases hlive : ∃ p ∈ S.carrier, p.validationID = v.validationID
  · -- the validator exists: its constant fields are compared
    rcases hlive with ⟨p, hp, hid⟩
    have hget := hV.get_live p hp
    rw [hid] at hget
    simp only [checkPrior, hget] at h
    split at h
    next hsame =>
      have hpair := L1Validator.pair_eq_of_unmodified hsame hid
      have heq := Except.ok.inj h
      rw [Prod.mk.injEq] at heq
      refine ⟨?_, ?_, ?_, ?_⟩
      · intro w hw hwv
        rw [S.pair_inj w hw p hp (hwv.trans hpair.symm), hid]
      · intro w hw hwv
        rw [S.id_inj w hw p hp (hwv.trans hid.symm), hpair]
      · rw [← hid, S.prior_of_mem hp, ← heq.2, activeUnit]
      · rw [← hid, S.prior_of_mem hp, ← heq.1]
    next => cases h
  · -- it does not: its (subnet, node) pair has to be free
    have habs : ∀ p ∈ S.carrier, p.validationID ≠ v.validationID :=
      fun p hp hid => hlive ⟨p, hp, hid⟩
    simp only [checkPrior, hV.get_absent _ habs] at h
    split at h
    next => cases h
    next =>
      rw [hV.has_eq] at h
      split at h
      next => cases h
      next heq =>
        have hfree : ¬ S.has v.subnetID v.nodeID := by simpa using Except.ok.inj heq
        have hzero := Except.ok.inj h
        rw [Prod.mk.injEq] at hzero
        refine ⟨?_, ?_, ?_, ?_⟩
        · intro w hw hpair
          exact absurd ⟨w, hw, hpair⟩ hfree
        · intro w hw hid
          exact absurd hid (habs w hw)
        · rw [S.prior_of_not_mem habs, ← hzero.2]
          rfl
        · rw [S.prior_of_not_mem habs, ← hzero.1]
      next => cases h
    next => cases h

theorem checkWeight_ok (hV : V.Tracks S) {prevWeight : ℕ} {weight : Option ℕ}
    (h : checkWeight V prevWeight v = .ok weight) :
    weight.getD (S.weight v.subnetID) + prevWeight = S.weight v.subnetID + v.weight := by
  unfold checkWeight at h
  split at h
  next heq =>
    rw [← Except.ok.inj h, heq]
    rfl
  next =>
    rw [hV.weight_eq] at h
    obtain ⟨w, hw, h⟩ := bind_ok h
    obtain ⟨w₁, hsub, h⟩ := bind_ok h
    obtain ⟨w₂, hadd, h⟩ := bind_ok h
    have h₁ := checkedSub_ok hsub
    have h₂ := checkedAdd_ok hadd
    rw [← Except.ok.inj h, Option.getD_some, ← Except.ok.inj hw] at *
    omega

/-- A call either fails and leaves the diff alone, or was admitted and is recorded. -/
theorem L1ValidatorsDiff.putL1Validator_cases {T : TreeOps L1Validator} (d : L1ValidatorsDiff T)
    (hV : V.Tracks S) (v : L1Validator) :
    (∃ e, d.putL1Validator V v = (.error e, d)) ∨
      ∃ prevActive weight, Admitted S v prevActive weight ∧
        d.putL1Validator V v = (.ok (), d.record prevActive weight v) := by
  unfold putL1Validator
  split
  next e he => exact .inl ⟨e, rfl⟩
  next prevWeight prevActive hprior =>
    split
    next e he => exact .inl ⟨e, rfl⟩
    next weight hweight =>
      rcases checkPrior_ok hV hprior with ⟨hfree, hsame, hact, rfl⟩
      exact .inr ⟨prevActive, weight, ⟨hfree, hsame, hact, checkWeight_ok hV hweight⟩, rfl⟩

section Record

variable {S : LiveSet} {v : L1Validator} {prevActive : Bool} {weight : Option ℕ}

section

variable (h : Admitted S v prevActive weight)
include h

theorem Admitted.put_weight (subnetID : ID) : (S.put v h.pair_free).weight subnetID =
      if subnetID = v.subnetID then weight.getD (S.weight v.subnetID) else S.weight subnetID := by
  have hsum := S.sum_put v (weightIn subnetID) (by simp +contextual [weightIn])
  have hput : (S.put v h.pair_free).weight subnetID =
      ∑ w ∈ putLive S.carrier v, weightIn subnetID w := LiveSet.weight_eq_sum _ _
  rw [← hput, ← S.weight_eq_sum] at hsum
  -- whatever is replaced has the subnet of what replaces it
  have hsubnet : ∀ w ∈ S.carrier.filter (fun w => w.validationID = v.validationID),
      w.subnetID = v.subnetID := by
    intro w hw
    rw [Finset.mem_filter] at hw
    exact congrArg Prod.fst (h.same_pair w hw.1 hw.2)
  have hprior : S.prior v.validationID (weightIn subnetID) =
      if subnetID = v.subnetID then S.prior v.validationID (·.weight) else 0 := by
    split
    next heq =>
      apply Finset.sum_congr rfl
      intro w hw
      rw [weightIn, if_pos ((hsubnet w hw).trans heq.symm)]
    next hne =>
      apply Finset.sum_eq_zero
      intro w hw
      rw [weightIn, if_neg (fun hs => hne (hs.symm.trans (hsubnet w hw)))]
  have hw := h.weight_eq
  split
  next heq =>
    subst heq
    rw [hprior, if_pos rfl, weightIn, if_pos rfl] at hsum
    omega
  next hne =>
    rw [hprior, if_neg hne, weightIn, if_neg (Ne.symm hne)] at hsum
    omega

theorem Admitted.put_numActive : (S.put v h.pair_free).numActive + (if prevActive then 1 else 0) =
      S.numActive + activeUnit v := by
  have hsum := S.sum_put v activeUnit (by simp +contextual [activeUnit, L1Validator.isActive])
  have hput : (S.put v h.pair_free).numActive = ∑ w ∈ putLive S.carrier v, activeUnit w :=
    LiveSet.numActive_eq_sum _
  rw [h.prevActive_eq, hput, hsum, S.numActive_eq_sum]

theorem Admitted.put_has (subnetID : ID) (nodeID : NodeID) :
    (S.put v h.pair_free).has subnetID nodeID ↔
      if (subnetID, nodeID) = v.pair then v.weight ≠ 0 else S.has subnetID nodeID := by
  split
  next heq =>
    constructor
    · rintro ⟨w, hw, hpair⟩
      rcases mem_putLive.mp hw with ⟨hw, hid⟩ | ⟨rfl, hw⟩
      · exact absurd (h.pair_free w hw (hpair.trans heq)) hid
      · exact hw
    · intro hv
      exact ⟨v, mem_putLive.mpr (.inr ⟨rfl, hv⟩), heq.symm⟩
  next hne =>
    constructor
    · rintro ⟨w, hw, hpair⟩
      rcases mem_putLive.mp hw with ⟨hw, -⟩ | ⟨rfl, -⟩
      · exact ⟨w, hw, hpair⟩
      · exact absurd hpair.symm hne
    · rintro ⟨w, hw, hpair⟩
      have hid : w.validationID ≠ v.validationID :=
        fun hid => hne (hpair.symm.trans (h.same_pair w hw hid))
      exact ⟨w, mem_putLive.mpr (.inl ⟨hw, hid⟩), hpair⟩

end

namespace L1ValidatorsDiff

variable {T : TreeOps L1Validator} {d : L1ValidatorsDiff T} {P : LiveSet}

/-- The tree after a put: the validators with other IDs, and the new one if it is
active. -/
theorem Overlay.mem_record_active (hT : T.Lawful L1Validator.less) (h : d.Overlay P S)
    (w : L1Validator) : w ∈ T.ascend (d.record prevActive weight v).active ↔
      w ∈ T.ascend d.active ∧ w.validationID ≠ v.validationID ∨ w = v ∧ v.isActive := by
  -- first the previous version is deleted: nothing with the ID is left
  have hdel : ∀ w, w ∈ T.ascend (match d.modified.lookup v.validationID with
      | some prev => T.delete d.active prev
      | none => d.active) ↔ w ∈ T.ascend d.active ∧ w.validationID ≠ v.validationID := by
    intro w
    cases hlook : d.modified.lookup v.validationID with
    | none =>
      constructor
      · intro hw
        refine ⟨hw, fun hid => ?_⟩
        have := ((h.active w).mp hw).1
        rw [hid, hlook] at this
        cases this
      · exact And.left
    | some prev =>
      have hkey := h.key _ _ hlook
      rw [hT.mem_delete]
      constructor
      · rintro ⟨hw, hlt⟩
        refine ⟨hw, fun hid => ?_⟩
        have hlook' := ((h.active w).mp hw).1
        rw [hid, hlook] at hlook'
        rw [← Option.some.inj hlook'] at hlt
        exact hlt.elim (L1Validator.not_less_self _) (L1Validator.not_less_self _)
      · rintro ⟨hw, hid⟩
        exact ⟨hw, L1Validator.less_or_less (by rwa [hkey])⟩
  unfold record
  dsimp only
  split
  next hact =>
    rw [hT.mem_replaceOrInsert, hdel]
    constructor
    · rintro (rfl | ⟨hw, -⟩)
      · exact .inr ⟨rfl, hact⟩
      · exact .inl hw
    · rintro (⟨hw, hid⟩ | ⟨rfl, -⟩)
      · exact .inr ⟨⟨hw, hid⟩, L1Validator.less_or_less hid⟩
      · exact .inl rfl
  next hact =>
    rw [hdel]
    simp [hact]

/-- Recording an admitted validator is putting it into the live set. -/
theorem Overlay.record (hT : T.Lawful L1Validator.less) (h : d.Overlay P S)
    (hv : Admitted S v prevActive weight) :
    (d.record prevActive weight v).Overlay P (S.put v hv.pair_free) := by
  constructor
  case key =>
    intro id w hw
    rw [record_modified] at hw
    by_cases hid : id = v.validationID
    · rw [hid, AList.lookup_insert] at hw
      rw [hid, ← Option.some.inj hw]
    · rw [AList.lookup_insert_ne hid] at hw
      exact h.key id w hw
  case live =>
    intro w
    rw [record_modified, LiveSet.put, mem_putLive, h.live]
    by_cases hid : w.validationID = v.validationID
    · rw [hid, AList.lookup_insert]
      simp only [ne_eq, not_true_eq_false, and_false, false_or, Option.some.injEq, reduceCtorEq,
        false_and, or_false]
      constructor
      · rintro ⟨rfl, hw⟩
        exact ⟨rfl, hw⟩
      · rintro ⟨rfl, hw⟩
        exact ⟨rfl, hw⟩
    · have hne : w ≠ v := fun hwv => hid (congrArg _ hwv)
      simp [hid, hne]
  case has =>
    intro subnetID nodeID
    have hput := hv.put_has subnetID nodeID
    rw [record_modifiedHasNodeIDs]
    by_cases heq : (subnetID, nodeID) = v.pair
    · rw [if_pos heq] at hput
      rw [heq, AList.lookup_insert, Option.getD_some]
      by_cases hw : v.weight = 0 <;> simp [hput, hw, L1Validator.isDeleted]
    · rw [if_neg heq] at hput
      rw [AList.lookup_insert_ne heq, h.has, decide_eq_decide.mpr hput]
  case weight =>
    intro subnetID
    rw [hv.put_weight]
    by_cases heq : subnetID = v.subnetID
    · subst heq
      rw [if_pos rfl]
      cases weight with
      | none => exact h.weight _
      | some w => simp [L1ValidatorsDiff.record]
    · rw [if_neg heq, ← h.weight]
      cases weight with
      | none => rfl
      | some w => simp [L1ValidatorsDiff.record, AList.lookup_insert_ne heq]
  case numActive =>
    have hput := hv.put_numActive
    have hnum := h.numActive
    unfold activeUnit at hput
    unfold L1ValidatorsDiff.record
    cases prevActive <;> cases hact : v.isActive <;> simp_all <;> omega
  case active =>
    intro w
    rw [record_modified, h.mem_record_active hT, h.active]
    by_cases hid : w.validationID = v.validationID
    · rw [hid, AList.lookup_insert]
      simp only [ne_eq, not_true_eq_false, and_false, false_or, Option.some.injEq]
      constructor
      · rintro ⟨rfl, hact⟩
        exact ⟨rfl, hact⟩
      · rintro ⟨rfl, hact⟩
        exact ⟨rfl, hact⟩
    · have hne : w ≠ v := fun hwv => hid (congrArg _ hwv)
      simp [hid, hne]

end L1ValidatorsDiff

end Record

/-! ## Sequences of calls -/

/-- A call of `PutL1Validator`, with what `GetCurrentValidator` of the diff answers
at that moment. -/
structure PutCall where
  legacy : ID → NodeID → Except StateError Staker
  validator : L1Validator

section Calls

variable {T : TreeOps L1Validator}

/-- One call on a diff over `parent`; the successful ones update the set of live
validators. -/
def putStep (parent : L1View) (x : L1ValidatorsDiff T × Finset L1Validator) (c : PutCall) :
    L1ValidatorsDiff T × Finset L1Validator :=
  match x.1.putL1Validator (x.1.view parent parent.numActiveL1Validators c.legacy) c.validator with
  | (.ok (), d) => (d, putLive x.2 c.validator)
  | (.error _, d) => (d, x.2)

/-- The calls, in order, on a new diff over `parent`. -/
def putAll (T : TreeOps L1Validator) (parent : L1View) (live : Finset L1Validator)
    (calls : List PutCall) : L1ValidatorsDiff T × Finset L1Validator :=
  calls.foldl (putStep parent) (L1ValidatorsDiff.new T, live)

variable (hT : T.Lawful L1Validator.less) {parent : L1View} {P : LiveSet} (hP : parent.Tracks P)
include hT hP

/-- A call keeps the diff an overlay of the parent. -/
theorem overlay_putStep {x : L1ValidatorsDiff T × Finset L1Validator} (hx : x.2 = S.carrier)
    (h : x.1.Overlay P S) (c : PutCall) :
    ∃ S' : LiveSet, (putStep parent x c).2 = S'.carrier ∧ (putStep parent x c).1.Overlay P S' := by
  rcases x.1.putL1Validator_cases (h.tracks hT hP c.legacy) c.validator with
    ⟨e, he⟩ | ⟨prevActive, weight, hv, hok⟩
  · refine ⟨S, ?_, ?_⟩
    · simp only [putStep, he, hx]
    · simp only [putStep, he]
      exact h
  · refine ⟨S.put c.validator hv.pair_free, ?_, ?_⟩
    · simp only [putStep, hok, hx, LiveSet.put]
    · simp only [putStep, hok]
      exact h.record hT hv

theorem overlay_putAll (calls : List PutCall) :
    ∃ S : LiveSet, (putAll T parent P.carrier calls).2 = S.carrier ∧
      (putAll T parent P.carrier calls).1.Overlay P S := by
  induction calls using List.reverseRecOn with
  | nil => exact ⟨P, rfl, L1ValidatorsDiff.overlay_new hT P⟩
  | append_singleton calls c ih =>
    rcases ih with ⟨S, hS, hov⟩
    unfold putAll at *
    rw [List.foldl_append]
    exact overlay_putStep hT hP hS hov c

/-- **Bookkeeping of L1 validators.** After every sequence of calls on a diff, the
live validators have distinct IDs and distinct (subnet, node) pairs, and every
read of the diff answers for them: total weights, the number of active
validators, their iterator in increasing order, and the taken pairs. A call that
fails leaves the diff as it was. -/
theorem l1_bookkeeping (calls : List PutCall) :
    (∃ S : LiveSet, S.carrier = (putAll T parent P.carrier calls).2 ∧
      ∀ legacy, ((putAll T parent P.carrier calls).1.view parent
        parent.numActiveL1Validators legacy).Tracks S) ∧
    ∀ (legacy : ID → NodeID → Except StateError Staker) (v : L1Validator) (e : StateError)
      (d : L1ValidatorsDiff T),
      (putAll T parent P.carrier calls).1.putL1Validator ((putAll T parent P.carrier calls).1.view
        parent parent.numActiveL1Validators legacy) v = (.error e, d) →
      d = (putAll T parent P.carrier calls).1 := by
  rcases overlay_putAll hT hP calls with ⟨S, hS, hov⟩
  constructor
  · exact ⟨S, hS.symm, fun legacy => hov.tracks hT hP legacy⟩
  · intro legacy v e d hd
    rcases L1ValidatorsDiff.putL1Validator_cases _ (hov.tracks hT hP legacy) v with
      ⟨e', he⟩ | ⟨prevActive, weight, -, hok⟩
    · rw [he] at hd
      exact (Prod.mk.inj hd).2.symm
    · rw [hok] at hd
      exact absurd (Prod.mk.inj hd).1 (by simp)

end Calls

/-- The reads of a state without L1 validators and without legacy validators. -/
def L1View.empty : L1View where
  getActiveL1ValidatorsIterator := .ok []
  numActiveL1Validators := 0
  weightOfL1Validators _ := .ok 0
  getL1Validator _ := .error .notFound
  hasL1Validator _ _ := .ok false
  getCurrentValidator _ _ := .error .notFound

theorem L1View.empty_tracks : L1View.empty.Tracks LiveSet.empty := by
  constructor
  · simp [LiveSet.empty]
  · intro id _
    rfl
  · intro subnetID nodeID
    simp [L1View.empty, LiveSet.has, LiveSet.empty]
  · intro subnetID
    rfl
  · rfl
  · exact ⟨[], rfl, List.Pairwise.nil, by simp [LiveSet.empty]⟩

/-- Increasing lists of L1 validators as ordered trees. -/
def l1Tree : TreeOps L1Validator := TreeOps.ofLess L1Validator.less L1Validator.less_trans

theorem l1Tree_lawful : l1Tree.Lawful L1Validator.less := TreeOps.ofLess_lawful _ _

/-- A call for a validator of node 7 on subnet 3, seeing no legacy validators. -/
def nodeSevenCall (validationID : ID) (weight endAccumulatedFee : ℕ) : PutCall where
  legacy _ _ := .error .notFound
  validator :=
    { validationID, weight, endAccumulatedFee, subnetID := 3, nodeID := 7, publicKey := [],
      remainingBalanceOwner := [], deactivationOwner := [], startTime := 0, minNonce := 0 }

/-- A node is registered, cannot be registered under a second ID, is removed, and is
then registered under that ID. -/
def replacementCalls : List PutCall :=
  [nodeSevenCall 1 5 90, nodeSevenCall 2 6 80, nodeSevenCall 1 0 90, nodeSevenCall 2 6 80]

theorem l1_bookkeeping_replacement :
    (putAll l1Tree L1View.empty LiveSet.empty.carrier replacementCalls).2 =
        {(nodeSevenCall 2 6 80).validator} ∧
      ∃ S : LiveSet, S.carrier = {(nodeSevenCall 2 6 80).validator} ∧
        ∀ legacy, ((putAll l1Tree L1View.empty LiveSet.empty.carrier replacementCalls).1.view
          L1View.empty 0 legacy).Tracks S := by
  have hlive : (putAll l1Tree L1View.empty LiveSet.empty.carrier replacementCalls).2 =
      {(nodeSevenCall 2 6 80).validator} := by decide
  refine ⟨hlive, ?_⟩
  rcases (l1_bookkeeping l1Tree_lawful L1View.empty_tracks replacementCalls).1 with ⟨S, hS, htracks⟩
  exact ⟨S, hS.trans hlive, htracks⟩

end Titan.PChain
