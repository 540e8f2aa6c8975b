import Titan.PChain.L1Chain

/-!
# Titan.PChain.L1Spec — what each operation does to the live validators

One lemma per operation of `L1Chain`, in terms of the set of live validators
the state stands for (`ChainState.For`): a put, a deactivation, a time advance,
each of the five transactions, and the deactivation at the end of a block. The
results about runs use these and never unfold the operations.

What an operation does to the validators is said by `LiveSet.fee`, the
`EndAccumulatedFee` under each validation ID, which is 0 where there is no active
validator.
-/

namespace Titan.PChain

open Lib

section Except

variable {α : Type}

@[simp] theorem liftState_eq_ok {x : Except StateError α} {a : α} :
    liftState x = .ok a ↔ x = .ok a := by
  cases x <;> simp [liftState, Except.mapError]

end Except

namespace LiveSet

/-- The `EndAccumulatedFee` of the validator with an ID; 0 if it is inactive or
does not exist. -/
def fee (S : LiveSet) (id : ID) : ℕ := S.prior id (·.endAccumulatedFee)

variable {v : L1Validator}

theorem fee_of_mem (S : LiveSet) (hv : v ∈ S.carrier) :
    S.fee v.validationID = v.endAccumulatedFee :=
  S.prior_of_mem hv _

theorem exists_of_fee_ne_zero (S : LiveSet) {id : ID} (h : S.fee id ≠ 0) :
    ∃ v ∈ S.carrier, v.validationID = id := by
  by_contra hnone
  exact h (S.prior_of_not_mem (fun v hv hid => hnone ⟨v, hv, hid⟩) _)

variable {S S' : LiveSet}

/-- A put changes what is under one ID. -/
theorem fee_put (h : S'.carrier = putLive S.carrier v) :
    S'.fee = Function.update S.fee v.validationID
      (if v.weight = 0 then 0 else v.endAccumulatedFee) := by
  funext id
  by_cases hid : id = v.validationID
  · subst hid
    rw [Function.update_self]
    split
    next hw =>
      apply S'.prior_of_not_mem
      intro w hw'
      rw [h, mem_putLive] at hw'
      rcases hw' with ⟨-, hne⟩ | ⟨-, hne⟩
      · exact hne
      · exact absurd hw hne
    next hw =>
      apply S'.fee_of_mem
      rw [h, mem_putLive]
      exact .inr ⟨rfl, hw⟩
  · rw [Function.update_of_ne hid]
    have hsame : ∀ w : L1Validator, w.validationID = id → (w ∈ S'.carrier ↔ w ∈ S.carrier) := by
      rintro w rfl
      rw [h, mem_putLive]
      constructor
      · rintro (⟨hw, -⟩ | ⟨rfl, -⟩)
        · exact hw
        · exact absurd rfl hid
      · intro hw
        exact .inl ⟨hw, hid⟩
    unfold fee prior
    congr 1
    ext w
    rw [Finset.mem_filter, Finset.mem_filter]
    exact and_congr_left (hsame w)

/-- The number of active validators is the number of IDs with a fee. -/
theorem numActive_le (h : ∀ id, S'.fee id ≠ 0 → S.fee id ≠ 0) :
    S'.numActive ≤ S.numActive := by
  unfold numActive
  have hinj : ∀ U : LiveSet, Set.InjOn L1Validator.validationID
      (U.carrier.filter (fun v => v.endAccumulatedFee ≠ 0)) := by
    intro U v hv w hw
    exact U.id_inj v (Finset.mem_filter.mp hv).1 w (Finset.mem_filter.mp hw).1
  rw [← Finset.card_image_of_injOn (hinj S'), ← Finset.card_image_of_injOn (hinj S)]
  apply Finset.card_le_card
  intro id hid
  rw [Finset.mem_image] at hid ⊢
  rcases hid with ⟨v, hv, rfl⟩
  rw [Finset.mem_filter] at hv
  have hfee : S.fee v.validationID ≠ 0 := by
    apply h
    rw [S'.fee_of_mem hv.1]
    exact hv.2
  rcases S.exists_of_fee_ne_zero hfee with ⟨w, hw, hid⟩
  refine ⟨w, Finset.mem_filter.mpr ⟨hw, ?_⟩, hid⟩
  rwa [← S.fee_of_mem hw, hid]

/-- `Q` holds of the ID and the stored owner of every validator. -/
def All (S : LiveSet) (Q : ID → Bytes → Prop) : Prop :=
  ∀ v ∈ S.carrier, Q v.validationID v.remainingBalanceOwner

theorem All.put {Q : ID → Bytes → Prop} (hS : S.All Q)
    (h : S'.carrier = putLive S.carrier v) (hv : Q v.validationID v.remainingBalanceOwner) :
    S'.All Q := by
  intro w hw
  rw [h, mem_putLive] at hw
  rcases hw with ⟨hw, -⟩ | ⟨rfl, -⟩
  · exact hS w hw
  · exact hv

end LiveSet

namespace ChainState

variable {T : TreeOps L1Validator}

/-- Nothing but the L1 validators differs. -/
structure OnlyL1 (s s' : ChainState T) : Prop where
  timestamp : s'.timestamp = s.timestamp
  excess : s'.l1ValidatorExcess = s.l1ValidatorExcess
  accruedFees : s'.accruedFees = s.accruedFees
  expiries : s'.expiries = s.expiries
  conversions : s'.conversions = s.conversions
  utxoWrites : s'.utxoWrites = s.utxoWrites

theorem OnlyL1.refl (s : ChainState T) : OnlyL1 s s := ⟨rfl, rfl, rfl, rfl, rfl, rfl⟩

theorem OnlyL1.trans {s₁ s₂ s₃ : ChainState T} (h : OnlyL1 s₁ s₂) (h' : OnlyL1 s₂ s₃) :
    OnlyL1 s₁ s₃ where
  timestamp := h'.timestamp.trans h.timestamp
  excess := h'.excess.trans h.excess
  accruedFees := h'.accruedFees.trans h.accruedFees
  expiries := h'.expiries.trans h.expiries
  conversions := h'.conversions.trans h.conversions
  utxoWrites := h'.utxoWrites.trans h.utxoWrites

/-- The state stands for the live set `S`, over a committed state with live set `P`. -/
def For (s : ChainState T) (P S : LiveSet) : Prop := s.l1ValidatorsDiff.Overlay P S

section Reads

variable (hT : T.Lawful L1Validator.less) {base : L1View} {P S : LiveSet} (hP : base.Tracks P)
  {s : ChainState T} (h : s.For P S)
include hT hP h

theorem For.tracks : (s.view base).Tracks S :=
  L1ValidatorsDiff.Overlay.tracks hT h hP s.staking.getCurrentValidator

theorem For.numActive_eq : s.numActive base = S.numActive := by
  rw [numActive, (h.tracks hT hP).numActive_eq]
  rfl

theorem For.get_ok {id : ID} {v : L1Validator} (hget : (s.view base).getL1Validator id = .ok v) :
    v ∈ S.carrier ∧ v.validationID = id := by
  by_cases hlive : ∃ w ∈ S.carrier, w.validationID = id
  · rcases hlive with ⟨w, hw, rfl⟩
    rw [(h.tracks hT hP).get_live w hw] at hget
    rw [← Except.ok.inj hget]
    exact ⟨hw, rfl⟩
  · rw [(h.tracks hT hP).get_absent id (fun w hw hid => hlive ⟨w, hw, hid⟩)] at hget
    cases hget

/-- A put, on the live set. -/
theorem For.put_ok {v : L1Validator} {s' : ChainState T}
    (hput : s.putL1Validator base v = .ok s') :
    ∃ S', s'.For P S' ∧ S'.carrier = putLive S.carrier v ∧ OnlyL1 s s' := by
  rcases s.l1ValidatorsDiff.putL1Validator_cases (h.tracks hT hP) v with
    ⟨e, he⟩ | ⟨prevActive, weight, hv, hok⟩
  · simp only [putL1Validator, he] at hput
    cases hput
  · simp only [putL1Validator, hok] at hput
    rw [← Except.ok.inj hput]
    exact ⟨S.put v hv.pair_free, h.record hT hv, rfl, ⟨rfl, rfl, rfl, rfl, rfl, rfl⟩⟩

/-- The active validators, in the order of the iterator. -/
theorem For.iterator : ∃ l, (s.view base).getActiveL1ValidatorsIterator = .ok l ∧
    l.Pairwise (fun a b => a.endAccumulatedFee ≤ b.endAccumulatedFee) ∧
    ∀ v, v ∈ l ↔ v ∈ S.carrier ∧ v.endAccumulatedFee ≠ 0 := by
  rcases (h.tracks hT hP).iterator_eq with ⟨l, hl, hsorted, hmem⟩
  refine ⟨l, hl, hsorted.imp ?_, hmem⟩
  intro a b hab
  rcases (L1Validator.less_iff a b).mp hab with hlt | ⟨heq, -⟩
  · exact hlt.le
  · exact heq.le

end Reads

section Deactivate

variable (hT : T.Lawful L1Validator.less) {base : L1View} {P : LiveSet} (hP : base.Tracks P)
include hT hP

theorem For.deactivate_ok {s s' : ChainState T} {S : LiveSet} {vs : List L1Validator}
    (h : s.For P S) (hok : s.deactivate base vs = .ok s') :
    ∃ S', s'.For P S' ∧ OnlyL1 s s' ∧
      (∀ id, S'.fee id = if ∃ v ∈ vs, v.validationID = id then 0 else S.fee id) ∧
      ∀ Q, S.All Q → (∀ v ∈ vs, Q v.validationID v.remainingBalanceOwner) → S'.All Q := by
  induction vs generalizing s S with
  | nil =>
    rw [← Except.ok.inj hok]
    exact ⟨S, h, OnlyL1.refl s, fun id => by simp, fun _ hS _ => hS⟩
  | cons v vs ih =>
    rcases bind_ok hok with ⟨s₁, hput, hrest⟩
    rcases h.put_ok hT hP hput with ⟨S₁, h₁, hS₁, hs₁⟩
    rcases ih h₁ hrest with ⟨S', h', hs', hfee, hall⟩
    refine ⟨S', h', hs₁.trans hs', ?_, ?_⟩
    · intro id
      have hv := congrFun (LiveSet.fee_put hS₁) id
      rw [hfee, hv]
      by_cases hid : v.validationID = id
      · simp [hid]
      · simp [hid, Function.update_of_ne (Ne.symm hid)]
    · intro Q hS hvs
      rw [List.forall_mem_cons] at hvs
      exact hall Q (hS.put hS₁ hvs.1) hvs.2

/-- Deactivating a prefix of the iterator deactivates every validator below a
limit. -/
theorem For.deactivate_below {s s' : ChainState T} {S : LiveSet} (h : s.For P S)
    {l : List L1Validator} (hl : (s.view base).getActiveL1ValidatorsIterator = .ok l)
    {p : ℕ → Bool} (hp : ∀ a b, a ≤ b → p b → p a)
    (hok : s.deactivate base (l.takeWhile (fun v => p v.endAccumulatedFee)) = .ok s') :
    ∃ S', s'.For P S' ∧ OnlyL1 s s' ∧
      (∀ id, S'.fee id = if p (S.fee id) then 0 else S.fee id) ∧ ∀ Q, S.All Q → S'.All Q := by
  rcases h.iterator hT hP with ⟨l', hl', hsorted, hmem⟩
  have hll : l' = l := Except.ok.inj (hl'.symm.trans hl)
  subst hll
  have htake : ∀ v, v ∈ l'.takeWhile (fun v => p v.endAccumulatedFee) ↔
      (v ∈ S.carrier ∧ v.endAccumulatedFee ≠ 0) ∧ p v.endAccumulatedFee := by
    intro v
    rw [mem_takeWhile_of_pairwise (hsorted.imp (fun hab => hp _ _ hab)), hmem]
  rcases h.deactivate_ok hT hP hok with ⟨S', h', hs', hfee, hall⟩
  refine ⟨S', h', hs', ?_, fun Q hS => hall Q hS (fun v hv => hS v ((htake v).mp hv).1.1)⟩
  intro id
  rw [hfee]
  by_cases hz : S.fee id = 0
  · simp [hz]
  · -- the validator under the ID is in the prefix exactly if its fee passes the test
    rcases S.exists_of_fee_ne_zero hz with ⟨w, hw, rfl⟩
    have hfw := S.fee_of_mem hw
    rw [hfw] at hz ⊢
    congr 1
    apply propext
    constructor
    · rintro ⟨v, hv, hid⟩
      rw [← S.id_inj v ((htake v).mp hv).1.1 w hw hid]
      exact ((htake v).mp hv).2
    · intro hpw
      exact ⟨w, (htake w).mpr ⟨⟨hw, hz⟩, hpw⟩, rfl⟩

/-! ## Time -/

variable {config : ValidatorFee.Config} {s s' : ChainState T} {S : LiveSet}

/-- What a time advance does besides changing the L1 validators. -/
structure Advanced (config : ValidatorFee.Config) (base : L1View) (s s' : ChainState T)
    (newChainTime : ℕ) : Prop where
  timestamp : s'.timestamp = newChainTime
  accruedFees : s'.accruedFees = s.accruedFees +
    (s.feeState base).costOf config (secondsBetween s.timestamp newChainTime)
  excess : s'.l1ValidatorExcess = ((s.feeState base).advanceTime config.target
    (secondsBetween s.timestamp newChainTime)).excess
  expiries : s'.expiries = s.expiries.filter (fun e => newChainTime < e.timestamp)
  conversions : s'.conversions = s.conversions
  utxoWrites : s'.utxoWrites = s.utxoWrites

/-- The effect of a time advance: everyone is charged, and who cannot pay more is
deactivated. -/
theorem For.advanceTimeTo_ok (h : s.For P S) {newChainTime : ℕ} {staking : Staking}
    (hok : advanceTimeTo config base s newChainTime staking = .ok s') :
    Advanced config base s s' newChainTime ∧
    ∃ S', s'.For P S' ∧ (∀ Q, S.All Q → S'.All Q) ∧
      ∀ id, S'.fee id = if S.fee id ≤ s'.accruedFees then 0 else S.fee id := by
  rcases bind_ok hok with ⟨s₁, hadv, hs'⟩
  rcases bind_ok hadv with ⟨accruedFees, hadd, hadv⟩
  rcases bind_ok hadv with ⟨l, hl, hadv⟩
  rcases bind_ok hadv with ⟨s₂, hdeact, hs₁⟩
  rw [liftState_eq_ok] at hadd hl
  have hsum := checkedAdd_ok hadd
  have h₀ : ({ s with
      staking
      expiries := s.expiries.filter (fun e => newChainTime < e.timestamp) } :
        ChainState T).For P S := h
  rcases h₀.deactivate_below hT hP hl
    (fun a b hab hb => decide_eq_true (hab.trans (of_decide_eq_true hb))) hdeact with
    ⟨S', h', hrest, hfee, hall⟩
  have heq := (Except.ok.inj hs').symm
  rw [← Except.ok.inj hs₁] at heq
  subst heq
  constructor
  · exact ⟨rfl, hsum.2, rfl, hrest.expiries, hrest.conversions, hrest.utxoWrites⟩
  · refine ⟨S', h', hall, ?_⟩
    intro id
    rw [hfee]
    simp only [decide_eq_true_eq]

/-- The effect of the deactivation at the end of a block: who cannot pay for one more
second is deactivated. -/
theorem For.deactivateLowBalance_ok (h : s.For P S)
    (hok : deactivateLowBalanceL1Validators config base s = .ok s') :
    ∃ S', s'.For P S' ∧ OnlyL1 s s' ∧
      (∀ id, S'.fee id = if S.fee id < s.accruedFees + (s.feeState base).costOf config 1 then 0
        else S.fee id) ∧ ∀ Q, S.All Q → S'.All Q := by
  rcases bind_ok hok with ⟨limit, hadd, hok⟩
  rcases bind_ok hok with ⟨l, hl, hdeact⟩
  rw [liftState_eq_ok] at hadd hl
  have hsum := (checkedAdd_ok hadd).2
  rcases h.deactivate_below hT hP hl
    (fun a b hab hb => decide_eq_true (hab.trans_lt (of_decide_eq_true hb))) hdeact with
    ⟨S', h', hrest, hfee, hall⟩
  refine ⟨S', h', hrest, ?_, hall⟩
  intro id
  rw [hfee, ← hsum]
  simp only [decide_eq_true_eq]

end Deactivate

end ChainState

/-! ## Transactions -/

/-- The writes to the UTXO set for the inputs and outputs of a transaction. -/
def BaseTx.writes (tx : BaseTx) : List UTXOWrite :=
  tx.ins.map (fun i => .deleteUTXO i.1 i.2) ++
    tx.outs.mapIdx (fun index out => .addUTXO ⟨tx.txID, index % 2 ^ 32, out⟩)

/-- The `EndAccumulatedFee` of a new validator with a balance. -/
def initialFee (accruedFees balance : ℕ) : ℕ := if balance = 0 then 0 else balance + accruedFees

/-- What every transaction leaves alone, and its writes to the UTXO set. -/
structure TxStep {T : TreeOps L1Validator} (s s' : ChainState T) (writes : List UTXOWrite) :
    Prop where
  timestamp : s'.timestamp = s.timestamp
  excess : s'.l1ValidatorExcess = s.l1ValidatorExcess
  accruedFees : s'.accruedFees = s.accruedFees
  utxoWrites : s'.utxoWrites = s.utxoWrites ++ writes
  expiries : s.expiries ⊆ s'.expiries
  conversions : ∀ id, (s.conversions.lookup id).isSome → (s'.conversions.lookup id).isSome

section

variable {T : TreeOps L1Validator}

theorem TxStep.trans {s s' s'' : ChainState T} {ws ws' : List UTXOWrite}
    (h : TxStep s s' ws) (h' : TxStep s' s'' ws') : TxStep s s'' (ws ++ ws') where
  timestamp := h'.timestamp.trans h.timestamp
  excess := h'.excess.trans h.excess
  accruedFees := h'.accruedFees.trans h.accruedFees
  utxoWrites := by rw [h'.utxoWrites, h.utxoWrites, List.append_assoc]
  expiries := h.expiries.trans h'.expiries
  conversions := fun id hid => h'.conversions id (h.conversions id hid)

theorem ChainState.OnlyL1.txStep {s s' : ChainState T}
    (h : ChainState.OnlyL1 s s') : TxStep s s' [] where
  timestamp := h.timestamp
  excess := h.excess
  accruedFees := h.accruedFees
  utxoWrites := by rw [h.utxoWrites, List.append_nil]
  expiries := h.expiries.ge
  conversions := fun _ hid => h.conversions ▸ hid

/-- Writing to the UTXO set does nothing else. -/
theorem ChainState.write_step (s : ChainState T) (ws : List UTXOWrite) :
    TxStep s { s with utxoWrites := s.utxoWrites ++ ws } ws :=
  ⟨rfl, rfl, rfl, rfl, Finset.Subset.refl _, fun _ h => h⟩

theorem ChainState.produce_consume_step (s : ChainState T) (tx : BaseTx) :
    TxStep s ((s.consume tx).produce tx) tx.writes :=
  (s.write_step _).trans (ChainState.write_step _ _)

end

section Transactions

variable {T : TreeOps L1Validator} {B : Backend T} (hT : T.Lawful L1Validator.less)
  {base : L1View} {P : LiveSet} (hP : base.Tracks P) {s s' : ChainState T} {S : LiveSet}
  (h : s.For P S)

theorem initialEndAccumulatedFee_ok {balance e : ℕ}
    (hok : initialEndAccumulatedFee B base s balance = .ok e) :
    e = initialFee s.accruedFees balance := by
  unfold initialEndAccumulatedFee at hok
  unfold initialFee
  split at hok
  next hz => rw [if_pos hz, Except.ok.inj hok]
  next hz =>
    rcases bind_ok hok with ⟨-, -, hadd⟩
    rw [liftState_eq_ok] at hadd
    rw [if_neg hz]
    exact (checkedAdd_ok hadd).2

theorem verifyExpiry_ok {expiry : ExpiryEntry} {u : Unit} (hok : verifyExpiry s expiry = .ok u) :
    s.timestamp < expiry.timestamp ∧ expiry ∉ s.expiries := by
  rcases guard_ok hok with ⟨hlate, hok⟩
  rcases guard_ok hok with ⟨-, hok⟩
  rcases guard_ok hok with ⟨hnew, -⟩
  exact ⟨Nat.not_le.mp hlate, hnew⟩

variable {v : L1Validator} {id : ID}

theorem loadL1Validator_ok (hok : loadL1Validator base s id = .ok v) :
    (s.view base).getL1Validator id = .ok v := by
  unfold loadL1Validator at hok
  cases hx : (s.view base).getL1Validator id with
  | error e => simp [hx, Except.mapError] at hok
  | ok w => simpa [hx, Except.mapError] using hok

include hT hP h

variable {tx : BaseTx}

theorem registerL1ValidatorTx_ok {balance : ℕ} {source : WarpSource} {msg : RegisterL1Validator}
    (hok : registerL1ValidatorTx B base s tx balance source msg = .ok s') :
    TxStep s s' tx.writes ∧ s.timestamp < msg.expiry ∧
      (⟨msg.expiry, B.validationID msg⟩ : ExpiryEntry) ∉ s.expiries ∧
      (⟨msg.expiry, B.validationID msg⟩ : ExpiryEntry) ∈ s'.expiries ∧
      ∃ S', s'.For P S' ∧
        S'.fee = Function.update S.fee (B.validationID msg) (initialFee s.accruedFees balance) ∧
        ∀ Q, S.All Q → (∀ o bytes, PChainOwner.unmarshal bytes = some o →
          Q (B.validationID msg) bytes) → S'.All Q := by
  rcases bind_ok hok with ⟨-, -, hok⟩
  rcases bind_ok hok with ⟨fee, -, hok⟩
  rcases bind_ok hok with ⟨fee', -, hok⟩
  rcases bind_ok hok with ⟨-, -, hok⟩
  rcases bind_ok hok with ⟨_, hverify, hok⟩
  rcases bind_ok hok with ⟨-, -, hok⟩
  rcases bind_ok hok with ⟨_, hexpiry, hok⟩
  rcases bind_ok hok with ⟨owner, howner, hok⟩
  rcases bind_ok hok with ⟨deactivationOwner, -, hok⟩
  rcases bind_ok hok with ⟨e, he, hok⟩
  rcases bind_ok hok with ⟨s₁, hput, hok⟩
  have hs' := (Except.ok.inj hok).symm
  subst hs'
  rcases h.put_ok hT hP hput with ⟨S', h', hS', hrest⟩
  have hlate := verifyExpiry_ok hexpiry
  have hstep := hrest.txStep.trans (s₁.produce_consume_step tx)
  refine ⟨{ hstep with expiries := hstep.expiries.trans (Finset.subset_insert _ _) },
    hlate.1, hlate.2, Finset.mem_insert_self _ _, S', h', ?_, ?_⟩
  · rcases guard_ok hverify with ⟨-, hverify⟩
    rw [LiveSet.fee_put hS']
    rw [if_neg (guard_ok hverify).1, initialEndAccumulatedFee_ok he]
  · intro Q hQ hnewQ
    exact hQ.put hS' (hnewQ _ _ (PChainOwner.unmarshal_marshal howner))

theorem increaseL1ValidatorBalanceTx_ok {balance : ℕ}
    (hok : increaseL1ValidatorBalanceTx B base s tx id balance = .ok s') :
    TxStep s s' tx.writes ∧ balance ≠ 0 ∧ ∃ S', s'.For P S' ∧
      S'.fee = Function.update S.fee id
        ((if S.fee id = 0 then s.accruedFees else S.fee id) + balance) ∧
      ∀ Q, S.All Q → S'.All Q := by
  rcases bind_ok hok with ⟨_, hpos, hok⟩
  rcases bind_ok hok with ⟨-, -, hok⟩
  rcases bind_ok hok with ⟨fee, -, hok⟩
  rcases bind_ok hok with ⟨fee', -, hok⟩
  rcases bind_ok hok with ⟨-, -, hok⟩
  rcases bind_ok hok with ⟨v, hget, hok⟩
  rcases bind_ok hok with ⟨e, hactivate, hok⟩
  rcases bind_ok hok with ⟨e', hadd, hok⟩
  rcases bind_ok hok with ⟨s₁, hput, hok⟩
  have hs' := (Except.ok.inj hok).symm
  subst hs'
  rw [liftState_eq_ok] at hget hadd
  rcases h.get_ok hT hP hget with ⟨hv, rfl⟩
  rcases h.put_ok hT hP hput with ⟨S', h', hS', hrest⟩
  refine ⟨hrest.txStep.trans (s₁.produce_consume_step tx), ?_, S', h', ?_, fun Q hQ => hQ.put hS' (hQ v hv)⟩
  · intro hz
    simp [verifyPositive, hz] at hpos
  · have he : e = if v.endAccumulatedFee = 0 then s.accruedFees else v.endAccumulatedFee := by
      unfold activate at hactivate
      split at hactivate
      next hz =>
        rcases bind_ok hactivate with ⟨-, -, he⟩
        rw [if_pos hz, ← Except.ok.inj he]
      next hz => rw [if_neg hz, ← Except.ok.inj hactivate]
    rw [LiveSet.fee_put hS', S.fee_of_mem hv, ← he, (checkedAdd_ok hadd).2]
    rw [if_neg (S.weight_ne v hv)]

omit hT hP h in
/-- The write of a refund: the first output index that the transaction itself does
not use, and what is left of the validator's fee. -/
theorem refund_ok {malformed : ExecError}
    (hok : refund B malformed s tx v = .ok s') :
    s.accruedFees < v.endAccumulatedFee ∧ ∃ owner, s' = s.addUTXO ⟨tx.txID, tx.outs.length,
        ⟨B.avaxAssetID, v.endAccumulatedFee - s.accruedFees, owner⟩⟩ := by
  unfold refund at hok
  split at hok
  next => cases hok
  next owner _ =>
    rcases guard_ok hok with ⟨hlt, hok⟩
    refine ⟨Nat.not_le.mp hlt, owner, ?_⟩
    rw [← Except.ok.inj hok, Nat.mod_eq_of_lt tx.outs_lt]

/-- The writes of a transaction that ends the activity of a validator: the refund, if
there was a balance left to refund, before or after those for inputs and outputs. -/
def Refunds (B : Backend T) (s : ChainState T) (tx : BaseTx) (fee : ℕ)
    (writes : List UTXOWrite) : Prop :=
  if fee = 0 then writes = tx.writes
  else s.accruedFees < fee ∧ ∃ owner,
    writes.Perm (.addUTXO ⟨tx.txID, tx.outs.length, ⟨B.avaxAssetID, fee - s.accruedFees, owner⟩⟩ ::
      tx.writes)

omit hT hP h in
theorem Refunds.of_zero {fee : ℕ} (hz : fee = 0) : Refunds B s tx fee tx.writes := by
  rw [Refunds, if_pos hz]

omit hT hP h in
theorem Refunds.of_lt {fee : ℕ} {writes : List UTXOWrite} (owner : PChainOwner)
    (hlt : s.accruedFees < fee)
    (hperm : writes.Perm (.addUTXO ⟨tx.txID, tx.outs.length, ⟨B.avaxAssetID, fee - s.accruedFees, owner⟩⟩ :: tx.writes)) :
    Refunds B s tx fee writes := by
  rw [Refunds, if_neg (by omega)]
  exact ⟨hlt, owner, hperm⟩

omit hT hP h in
theorem settleWeight_ok {msg : L1ValidatorWeight}
    (hok : settleWeight B base s tx msg v = .ok s') :
    s'.l1ValidatorsDiff = s.l1ValidatorsDiff ∧
      if msg.weight = 0 ∧ v.endAccumulatedFee ≠ 0 then
        s.accruedFees < v.endAccumulatedFee ∧ ∃ owner, s' = s.addUTXO ⟨tx.txID, tx.outs.length,
          ⟨B.avaxAssetID, v.endAccumulatedFee - s.accruedFees, owner⟩⟩
      else s' = s := by
  unfold settleWeight at hok
  split at hok
  next hz =>
    rcases bind_ok hok with ⟨w, -, hok⟩
    rcases guard_ok hok with ⟨-, hok⟩
    split at hok
    next hfee =>
      rw [← Except.ok.inj hok, if_neg (by simp [hfee])]
      exact ⟨rfl, rfl⟩
    next hfee =>
      rcases refund_ok hok with ⟨hlt, owner, rfl⟩
      rw [if_pos ⟨hz, hfee⟩]
      exact ⟨rfl, hlt, owner, rfl⟩
  next hz =>
    rw [← Except.ok.inj hok, if_neg (by simp [hz])]
    exact ⟨rfl, rfl⟩

theorem setL1ValidatorWeightTx_ok {source : WarpSource} {msg : L1ValidatorWeight}
    (hok : setL1ValidatorWeightTx B base s tx source msg = .ok s') :
    ∃ S', s'.For P S' ∧ (∀ Q, S.All Q → S'.All Q) ∧
      if msg.weight = 0 then S'.fee = Function.update S.fee msg.validationID 0 ∧
        ∃ writes, TxStep s s' writes ∧ Refunds B s tx (S.fee msg.validationID) writes
      else S'.fee = S.fee ∧ TxStep s s' tx.writes := by
  rcases bind_ok hok with ⟨-, -, hok⟩
  rcases bind_ok hok with ⟨fee, -, hok⟩
  rcases bind_ok hok with ⟨-, -, hok⟩
  rcases bind_ok hok with ⟨-, -, hok⟩
  rcases bind_ok hok with ⟨v, hget, hok⟩
  rcases bind_ok hok with ⟨-, -, hok⟩
  rcases bind_ok hok with ⟨-, -, hok⟩
  rcases bind_ok hok with ⟨s₁, hsettle, hok⟩
  rcases bind_ok hok with ⟨s₂, hput, hok⟩
  have hs' := (Except.ok.inj hok).symm
  rcases h.get_ok hT hP (loadL1Validator_ok hget) with ⟨hv, hid⟩
  rcases settleWeight_ok hsettle with ⟨hdiff, hs₁⟩
  have h₁ : s₁.For P S := by
    unfold ChainState.For
    rw [hdiff]
    exact h
  rcases h₁.put_ok hT hP hput with ⟨S', h', hS', hrest⟩
  have hstep := hrest.txStep.trans (s₂.produce_consume_step tx)
  rw [← hs'] at hstep
  have hfor : s'.For P S' := by
    rw [hs']
    exact h'
  refine ⟨S', hfor, fun Q hQ => hQ.put hS' (hQ v hv), ?_⟩
  rw [LiveSet.fee_put hS', ← hid, S.fee_of_mem hv]
  by_cases hz : msg.weight = 0
  · rw [if_pos hz]
    rw [if_pos hz]
    refine ⟨rfl, ?_⟩
    by_cases hfee : v.endAccumulatedFee = 0
    · rw [if_neg (by simp [hfee])] at hs₁
      rw [hs₁] at hstep
      exact ⟨tx.writes, hstep, Refunds.of_zero hfee⟩
    · rw [if_pos ⟨hz, hfee⟩] at hs₁
      rcases hs₁ with ⟨hlt, owner, rfl⟩
      exact ⟨_, (s.write_step _).trans hstep, Refunds.of_lt owner hlt (List.Perm.refl _)⟩
  · rw [if_neg hz]
    rw [if_neg hz]
    rw [if_neg (by simp [hz])] at hs₁
    rw [hs₁] at hstep
    refine ⟨?_, hstep⟩
    rw [← S.fee_of_mem hv, Function.update_eq_self]

theorem disableL1ValidatorTx_ok (hok : disableL1ValidatorTx B base s tx id = .ok s') :
    ∃ S', s'.For P S' ∧ (∀ Q, S.All Q → S'.All Q) ∧ S'.fee = Function.update S.fee id 0 ∧
      ∃ writes, TxStep s s' writes ∧ Refunds B s tx (S.fee id) writes := by
  rcases bind_ok hok with ⟨v, hget, hok⟩
  rcases bind_ok hok with ⟨-, -, hok⟩
  rcases bind_ok hok with ⟨-, -, hok⟩
  rcases bind_ok hok with ⟨fee, -, hok⟩
  rcases bind_ok hok with ⟨-, -, hsettle⟩
  rcases h.get_ok hT hP (loadL1Validator_ok hget) with ⟨hv, hid⟩
  have hproduce := s.produce_consume_step tx
  rw [← hid, S.fee_of_mem hv]
  unfold settleDisable at hsettle
  split at hsettle
  next hfee =>
    rw [← Except.ok.inj hsettle]
    refine ⟨S, h, fun Q hQ => hQ, ?_, tx.writes, hproduce, Refunds.of_zero hfee⟩
    rw [← hfee, ← S.fee_of_mem hv, Function.update_eq_self]
  next hfee =>
    rcases bind_ok hsettle with ⟨s₁, hrefund, hput⟩
    rcases refund_ok hrefund with ⟨hlt, owner, rfl⟩
    have h₁ : (((s.consume tx).produce tx).addUTXO ⟨tx.txID, tx.outs.length, ⟨B.avaxAssetID,
      v.endAccumulatedFee - ((s.consume tx).produce tx).accruedFees, owner⟩⟩).For P S := h
    rcases h₁.put_ok hT hP hput with ⟨S', h', hS', hrest⟩
    have hstep := hproduce.trans ((ChainState.write_step _ _).trans hrest.txStep)
    refine ⟨S', h', fun Q hQ => hQ.put hS' (hQ v hv), ?_, tx.writes ++ [_], hstep,
      Refunds.of_lt owner hlt (List.perm_append_singleton _ _)⟩
    rw [LiveSet.fee_put hS']
    rw [ite_self]

variable {vdrs : List ConvertSubnetToL1Validator}

omit hT hP h in
theorem convert_weight_ne_zero {subnet : ID} {address : Bytes} {u : Unit}
    (hok : convertSyntacticVerify subnet address vdrs = .ok u) : ∀ vdr ∈ vdrs, vdr.weight ≠ 0 := by
  have hforM : vdrs.forM (fun v => v.verify) = .ok u → ∀ vdr ∈ vdrs, vdr.weight ≠ 0 := by
    intro h vdr hvdr hz
    have hverify := forM_ok h vdr hvdr
    unfold ConvertSubnetToL1Validator.verify at hverify
    rw [if_pos hz] at hverify
    cases hverify
  unfold convertSyntacticVerify at hok
  repeat' split at hok
  all_goals first
    | exact hforM hok
    | cases hok

/-- The fees after the loop over the validators of a conversion. -/
def convertFees (B : Backend T) (subnet : ID) (accruedFees : ℕ) :
    ℕ → List ConvertSubnetToL1Validator → (ID → ℕ) → ID → ℕ
  | _, [], f => f
  | i, vdr :: vdrs, f => convertFees B subnet accruedFees (i + 1) vdrs
      (Function.update f (B.append subnet i) (initialFee accruedFees vdr.balance))

theorem convertValidators_ok {subnet : ID} {i fee fee' : ℕ} (hw : ∀ vdr ∈ vdrs, vdr.weight ≠ 0)
    (hok : convertValidators B base subnet i vdrs s fee = .ok (s', fee')) :
    ∃ S', s'.For P S' ∧ ChainState.OnlyL1 s s' ∧
      S'.fee = convertFees B subnet s.accruedFees i vdrs S.fee ∧
      ∀ Q, S.All Q → (∀ j < i + vdrs.length, ∀ o bytes, PChainOwner.unmarshal bytes = some o →
        Q (B.append subnet j) bytes) → S'.All Q := by
  induction vdrs generalizing i s S fee with
  | nil =>
    have heq := (Prod.mk.inj (Except.ok.inj hok)).1
    subst heq
    exact ⟨S, h, ChainState.OnlyL1.refl s, rfl, fun _ hQ _ => hQ⟩
  | cons vdr vdrs ih =>
    rw [List.forall_mem_cons] at hw
    rcases bind_ok hok with ⟨⟨s₁, fee₁⟩, hone, hrest⟩
    rcases bind_ok hone with ⟨owner, howner, hone⟩
    rcases bind_ok hone with ⟨deactivationOwner, -, hone⟩
    rcases bind_ok hone with ⟨e, he, hone⟩
    rcases bind_ok hone with ⟨fee₂, -, hone⟩
    rcases bind_ok hone with ⟨s₂, hput, hone⟩
    have hs₂ := (Prod.mk.inj (Except.ok.inj hone)).1
    subst hs₂
    rcases h.put_ok hT hP hput with ⟨S₁, h₁, hS₁, hrest₁⟩
    rcases ih h₁ hw.2 hrest with ⟨S', h', hrest', hfee, hall⟩
    refine ⟨S', h', hrest₁.trans hrest', ?_, ?_⟩
    · rw [hfee, LiveSet.fee_put hS₁, hrest₁.accruedFees, convertFees]
      rw [if_neg hw.1, initialEndAccumulatedFee_ok he]
    · intro Q hQ hnew
      rw [List.length_cons] at hnew
      apply hall Q
      · exact hQ.put hS₁ (hnew i (by omega) _ _ (PChainOwner.unmarshal_marshal howner))
      · exact fun j hj => hnew j (by omega)

theorem convertSubnetToL1Tx_ok {subnet chainID : ID} {address : Bytes}
    (hok : convertSubnetToL1Tx B base s tx subnet chainID address vdrs = .ok s') :
    TxStep s s' tx.writes ∧ s.conversions.lookup subnet = none ∧
      (s'.conversions.lookup subnet).isSome ∧ ∃ S', s'.For P S' ∧
        S'.fee = convertFees B subnet s.accruedFees 0 vdrs S.fee ∧
        ∀ Q, S.All Q → (∀ j < vdrs.length, ∀ o bytes, PChainOwner.unmarshal bytes = some o →
          Q (B.append subnet j) bytes) → S'.All Q := by
  rcases bind_ok hok with ⟨_, hverify, hok⟩
  rcases bind_ok hok with ⟨-, -, hok⟩
  rcases bind_ok hok with ⟨_, hnew, hok⟩
  rcases bind_ok hok with ⟨fee, -, hok⟩
  rcases bind_ok hok with ⟨⟨s₁, fee₁⟩, hloop, hok⟩
  rcases bind_ok hok with ⟨-, -, hok⟩
  rcases bind_ok hok with ⟨conversionID, -, hok⟩
  have hs' := (Except.ok.inj hok).symm
  subst hs'
  rcases convertValidators_ok hT hP h (convert_weight_ne_zero hverify) hloop with
    ⟨S', h', hrest, hfee, hall⟩
  have hstep := hrest.txStep.trans (s₁.produce_consume_step tx)
  have hnone : s.conversions.lookup subnet = none := by
    rcases guard_ok hnew with ⟨hsome, -⟩
    simpa using hsome
  refine ⟨{ hstep with conversions := ?_ },
    hnone, ?_, S', h', hfee, by simpa only [Nat.zero_add] using hall⟩
  · intro id hid
    show (AList.lookup id (AList.insert subnet _ s₁.conversions)).isSome
    by_cases heq : id = subnet
    · rw [heq, AList.lookup_insert]
      rfl
    · rw [AList.lookup_insert_ne heq, hrest.conversions]
      exact hid
  · show (AList.lookup subnet (AList.insert subnet _ s₁.conversions)).isSome
    rw [AList.lookup_insert]
    rfl

end Transactions

end Titan.PChain
