import Titan.PChain.L1Spec

/-!
# Titan.PChain.L1Fees — validators are never overcharged and never stall the chain

Two bounds alternate along a run. After a block every active validator can pay
for one more second (`accruedFees + costOf 1 ≤ fee`). A time that
`verifyNewChainTime` allows is one every active validator can pay for, so the
time advance charges nobody more than it has; who has nothing left is
deactivated, and between the advance and the end of the block every active
validator has something left (`accruedFees < fee`). The transactions keep that,
and the deactivation at the end of the block restores the first bound: fewer
active validators never make the next second dearer.
-/

namespace Titan.PChain

open Lib

/-- Every fee that is not zero is at least `limit`. -/
def Covers (fee : ID → ℕ) (limit : ℕ) : Prop := ∀ id, fee id ≠ 0 → limit ≤ fee id

variable {limit : ℕ}

theorem Covers.update {fee : ID → ℕ} {x : ℕ} (h : Covers fee limit) (id : ID)
    (hx : x ≠ 0 → limit ≤ x) : Covers (Function.update fee id x) limit := by
  intro id' hid'
  by_cases heq : id' = id
  · subst heq
    rw [Function.update_self] at hid' ⊢
    exact hx hid'
  · rw [Function.update_of_ne heq] at hid' ⊢
    exact h id' hid'

/-- A new validator is inactive or has something left. -/
theorem lt_initialFee {accruedFees balance : ℕ} (h : initialFee accruedFees balance ≠ 0) :
    accruedFees + 1 ≤ initialFee accruedFees balance := by
  unfold initialFee at *
  split
  next hz => simp [hz] at h
  next => omega

/-- An owner that can be unpacked. -/
def OwnerOk (_ : ID) (bytes : Bytes) : Prop := ∃ owner, PChainOwner.unmarshal bytes = some owner

/-- The state stands for `S`, whose active validators have fees of at least `limit`. -/
structure Charged {T : TreeOps L1Validator} (P : LiveSet) (s : ChainState T) (S : LiveSet)
    (limit : ℕ) : Prop where
  for_live : s.For P S
  owners : S.All OwnerOk
  excess_le : s.l1ValidatorExcess ≤ maxUint64
  covers : Covers S.fee limit

section Time

variable {T : TreeOps L1Validator} (hT : T.Lawful L1Validator.less) {base : L1View} {P : LiveSet}
  (hP : base.Tracks P) {config : ValidatorFee.Config} {s s' : ChainState T} {S : LiveSet}

theorem earlier_le (nextTime : ℕ) (time : Option ℕ) : earlier nextTime time ≤ nextTime := by
  cases time with
  | none => exact le_refl _
  | some t =>
    show (if t < nextTime then t else nextTime) ≤ nextTime
    split <;> omega

theorem secondsBetween_le (a b : ℕ) : secondsBetween a b ≤ maxUint64 :=
  (Nat.min_le_right _ _).trans (by decide)

include hT hP

variable (h : Charged P s S limit)
include h

section

variable (hlimit : s.accruedFees ≤ limit)
include hlimit

/-- The eviction time is computed from a validator with the smallest fee. -/
theorem Charged.evictionTime_cases (nextTime : ℕ) :
    (∀ id, S.fee id = 0) ∧ getNextL1ValidatorEvictionTime config base s nextTime = .ok nextTime ∨
    ∃ id, S.fee id ≠ 0 ∧ (∀ id', S.fee id' ≠ 0 → S.fee id ≤ S.fee id') ∧
      getNextL1ValidatorEvictionTime config base s nextTime =
        match (s.feeState base).secondsRemaining config (secondsBetween s.timestamp nextTime)
          (S.fee id - s.accruedFees) with
        | none => .error .panic
        | some r => .ok (if s.timestamp + r < nextTime then s.timestamp + r else nextTime) := by
  rcases h.for_live.iterator hT hP with ⟨l, hl, hsorted, hmem⟩
  have hlift : liftState (s.view base).getActiveL1ValidatorsIterator = .ok l := by
    rw [hl]
    rfl
  unfold getNextL1ValidatorEvictionTime
  rw [hlift, ok_bind]
  cases l with
  | nil =>
    left
    refine ⟨fun id => ?_, rfl⟩
    by_contra hid
    rcases S.exists_of_fee_ne_zero hid with ⟨v, hv, rfl⟩
    rw [S.fee_of_mem hv] at hid
    exact absurd ((hmem v).mpr ⟨hv, hid⟩) List.not_mem_nil
  | cons v l =>
    right
    have hv := (hmem v).mp List.mem_cons_self
    have hfee := S.fee_of_mem hv.1
    refine ⟨v.validationID, by rw [hfee]; exact hv.2, ?_, ?_⟩
    · intro id hid
      rcases S.exists_of_fee_ne_zero hid with ⟨w, hw, rfl⟩
      rw [S.fee_of_mem hw] at hid ⊢
      rw [hfee]
      rcases List.mem_cons.mp ((hmem w).mpr ⟨hw, hid⟩) with rfl | hwl
      · exact le_refl _
      · exact (List.pairwise_cons.mp hsorted).1 w hwl
    · -- the subtraction does not underflow
      have hle : s.accruedFees ≤ v.endAccumulatedFee := by
        have := h.covers v.validationID (by rw [hfee]; exact hv.2)
        omega
      have hsub : liftState (mathSub v.endAccumulatedFee s.accruedFees) =
          .ok (v.endAccumulatedFee - s.accruedFees) := by
        rcases checkedSub_cases StateError.underflow v.endAccumulatedFee s.accruedFees with
          ⟨hlt, -⟩ | ⟨-, heq⟩
        · omega
        · rw [mathSub, heq]
          rfl
      dsimp only
      rw [hsub, ok_bind, hfee]
      generalize (s.feeState base).secondsRemaining config (secondsBetween s.timestamp nextTime)
        (v.endAccumulatedFee - s.accruedFees) = remaining
      cases remaining <;> rfl

/-- The eviction time is not after the time it is limited to. -/
theorem Charged.evictionTime_le
    {nextTime t : ℕ} (ht : getNextL1ValidatorEvictionTime config base s nextTime = .ok t) :
    t ≤ nextTime := by
  rcases h.evictionTime_cases hT hP hlimit nextTime with ⟨-, heq⟩ | ⟨id, -, -, heq⟩
  · rw [heq] at ht
    exact (Except.ok.inj ht).ge
  · rw [heq] at ht
    split at ht
    next => cases ht
    next r _ =>
      have := Except.ok.inj ht
      split at this <;> omega

/-- Up to the eviction time everyone can pay. -/
theorem Charged.cost_le_of_evictionTime
    {nextTime t : ℕ} (ht : getNextL1ValidatorEvictionTime config base s nextTime = .ok t)
    (hnext : nextTime ≤ t) :
    Covers S.fee (s.accruedFees +
      (s.feeState base).costOf config (secondsBetween s.timestamp nextTime)) := by
  intro id hid
  rcases h.evictionTime_cases hT hP hlimit nextTime with ⟨hnone, -⟩ | ⟨least, hleast, hmin, heq⟩
  · exact absurd (hnone id) hid
  · rw [heq] at ht
    split at ht
    next => cases ht
    next r hr =>
      have hok := Except.ok.inj ht
      have hsec : secondsBetween s.timestamp nextTime ≤ r := by
        have hle : secondsBetween s.timestamp nextTime ≤ nextTime - s.timestamp :=
          Nat.min_le_left _ _
        split at hok <;> omega
      have hcost := ValidatorFee.costOf_le_of_le_secondsRemaining (secondsBetween_le _ _) hr hsec
      have hcov := h.covers least hleast
      have := hmin id hid
      omega

/-- A chain time that is allowed is one that everyone can pay for. -/
theorem Charged.verifyNewChainTime_ok
    {newChainTime now : ℕ} (hok : verifyNewChainTime config base s newChainTime now = .ok ()) :
    Covers S.fee (s.accruedFees +
      (s.feeState base).costOf config (secondsBetween s.timestamp newChainTime)) := by
  rcases guard_ok hok with ⟨-, hok⟩
  rcases guard_ok hok with ⟨-, hok⟩
  split at hok
  next => cases hok
  next t ht =>
    rcases guard_ok hok with ⟨hle, hok⟩
    -- nothing happens before the new time: all three limits are that time
    unfold getNextStakerChangeTime at ht
    have h₁ := earlier_le newChainTime s.staking.nextCurrent
    have h₂ := earlier_le (earlier newChainTime s.staking.nextCurrent) s.staking.nextPending
    have h₃ := h.evictionTime_le hT hP hlimit ht
    have hsame : earlier (earlier newChainTime s.staking.nextCurrent) s.staking.nextPending =
        newChainTime := by omega
    rw [hsame] at ht
    exact h.cost_le_of_evictionTime hT hP hlimit ht (by omega)

/-- A time advance charges nobody more than it has, and leaves every active validator
with something. -/
theorem Charged.advance {newChainTime now : ℕ} {staking : Staking}
    (hverify : verifyNewChainTime config base s newChainTime now = .ok ())
    (hok : advanceTimeTo config base s newChainTime staking = .ok s') :
    Covers S.fee s'.accruedFees ∧ ∃ S', Charged P s' S' (s'.accruedFees + 1) := by
  rcases h.for_live.advanceTimeTo_ok hT hP hok with ⟨hadv, S', h', hall, hfee⟩
  constructor
  · rw [hadv.accruedFees]
    exact h.verifyNewChainTime_ok hT hP hlimit hverify
  · refine ⟨S', h', hall _ h.owners, ?_, ?_⟩
    · rw [hadv.excess]
      exact ValidatorFee.advanceTime_excess_le h.excess_le _ _
    · intro id hid
      rw [hfee] at hid ⊢
      split at hid
      next => exact absurd rfl hid
      next hlt => rw [if_neg hlt]; omega

end

/-- The deactivation at the end of a block leaves those who can pay for a second. -/
theorem Charged.deactivateLowBalance (hconst : 1 ≤ config.excessConversionConstant)
    (hok : deactivateLowBalanceL1Validators config base s = .ok s') :
    ∃ S', Charged P s' S' (s'.accruedFees + (s'.feeState base).costOf config 1) := by
  rcases h.for_live.deactivateLowBalance_ok hT hP hok with ⟨S', h', hrest, hfee, hall⟩
  refine ⟨S', h', hall _ h.owners, hrest.excess ▸ h.excess_le, ?_⟩
  -- who is left can pay the old price, and the new one is not higher
  have hactive : s'.numActive base ≤ s.numActive base := by
    rw [h'.numActive_eq hT hP, h.for_live.numActive_eq hT hP]
    apply LiveSet.numActive_le
    intro id hid
    rw [hfee] at hid
    split at hid
    next => exact absurd rfl hid
    next => exact hid
  have hcost : (s'.feeState base).costOf config 1 ≤ (s.feeState base).costOf config 1 := by
    unfold ChainState.feeState
    rw [hrest.excess]
    exact ValidatorFee.costOf_one_mono hconst hactive h.excess_le
  intro id hid
  rw [hfee] at hid ⊢
  rw [hrest.accruedFees]
  split at hid
  next => exact absurd rfl hid
  next hge => rw [if_neg hge]; omega

end Time

section Transactions

variable {T : TreeOps L1Validator} {B : Backend T} (hT : T.Lawful L1Validator.less)
  {base : L1View} {P : LiveSet} (hP : base.Tracks P) {s s' : ChainState T} {S : LiveSet}

theorem covers_convertFees (B : Backend T) (subnet : ID) {accruedFees : ℕ} {fee : ID → ℕ}
    (h : Covers fee (accruedFees + 1)) (i : ℕ) (vdrs : List ConvertSubnetToL1Validator) :
    Covers (convertFees B subnet accruedFees i vdrs fee) (accruedFees + 1) := by
  induction vdrs generalizing i fee with
  | nil => exact h
  | cons vdr vdrs ih => exact ih (h.update _ lt_initialFee) _

variable (h : Charged P s S (s.accruedFees + 1))
include h

theorem Charged.of_txStep {S' : LiveSet} {writes : List UTXOWrite} (hstep : TxStep s s' writes)
    (h' : s'.For P S')
    (howners : S'.All OwnerOk) (hcovers : Covers S'.fee (s.accruedFees + 1)) :
    Charged P s' S' (s'.accruedFees + 1) where
  for_live := h'
  owners := howners
  excess_le := hstep.excess ▸ h.excess_le
  covers := hstep.accruedFees ▸ hcovers

include hT hP

/-- Every transaction leaves the active validators with something. -/
theorem Charged.standardTx {tx : Tx}
    (hok : standardTx B base s tx = .ok s') : ∃ S', Charged P s' S' (s'.accruedFees + 1) := by
  cases tx with
  | convertSubnetToL1 tx subnet chainID address vdrs =>
    rcases convertSubnetToL1Tx_ok hT hP h.for_live hok with ⟨hstep, -, -, S', h', hfee, hall⟩
    refine ⟨S', h.of_txStep hstep h' ?_ ?_⟩
    · exact hall _ h.owners (fun _ _ o _ ho => ⟨o, ho⟩)
    · rw [hfee]
      exact covers_convertFees B subnet h.covers 0 vdrs
  | registerL1Validator tx balance source msg =>
    rcases registerL1ValidatorTx_ok hT hP h.for_live hok with ⟨hstep, -, -, -, S', h', hfee, hall⟩
    refine ⟨S', h.of_txStep hstep h' ?_ ?_⟩
    · exact hall _ h.owners (fun o _ ho => ⟨o, ho⟩)
    · rw [hfee]
      exact h.covers.update _ lt_initialFee
  | setL1ValidatorWeight tx source msg =>
    rcases setL1ValidatorWeightTx_ok hT hP h.for_live hok with ⟨S', h', hall, heffect⟩
    split at heffect
    next =>
      rcases heffect with ⟨hfee, writes, hstep, -⟩
      refine ⟨S', h.of_txStep hstep h' (hall _ h.owners) ?_⟩
      rw [hfee]
      exact h.covers.update _ (fun hz => absurd rfl hz)
    next =>
      rcases heffect with ⟨hfee, hstep⟩
      refine ⟨S', h.of_txStep hstep h' (hall _ h.owners) ?_⟩
      rw [hfee]
      exact h.covers
  | increaseL1ValidatorBalance tx id balance =>
    rcases increaseL1ValidatorBalanceTx_ok hT hP h.for_live hok with
      ⟨hstep, hpos, S', h', hfee, hall⟩
    refine ⟨S', h.of_txStep hstep h' (hall _ h.owners) ?_⟩
    rw [hfee]
    apply h.covers.update
    intro _
    split
    next => omega
    next hid => exact (h.covers id hid).trans (Nat.le_add_right _ _)
  | disableL1Validator tx id =>
    rcases disableL1ValidatorTx_ok hT hP h.for_live hok with ⟨S', h', hall, hfee, writes, hstep, -⟩
    refine ⟨S', h.of_txStep hstep h' (hall _ h.owners) ?_⟩
    rw [hfee]
    exact h.covers.update _ (fun hz => absurd rfl hz)
  | other staking writes =>
    have hs' := (Except.ok.inj hok).symm
    subst hs'
    exact ⟨S, ⟨h.for_live, h.owners, h.excess_le, h.covers⟩⟩

theorem Charged.standardTxs {txs : List Tx}
    (hok : standardTxs B base s txs = .ok s') : ∃ S', Charged P s' S' (s'.accruedFees + 1) := by
  induction txs generalizing s S with
  | nil =>
    rw [← Except.ok.inj hok]
    exact ⟨S, h⟩
  | cons tx txs ih =>
    rcases bind_ok hok with ⟨s₁, htx, hrest⟩
    rcases h.standardTx hT hP htx with ⟨S₁, h₁⟩
    exact ih h₁ hrest

end Transactions

/-! ## State corruption -/

/-- The computation does not report a corrupted state. -/
def Sound {α : Type} (x : Except ExecError α) : Prop := ∀ text, x ≠ .error (.stateCorruption text)

namespace Sound

variable {α β : Type}

theorem ok (a : α) : Sound (.ok a : Except ExecError α) := fun _ => by simp

variable {f : α → Except ExecError β}

theorem bind {x : Except ExecError α} (hx : Sound x)
    (hf : ∀ a, x = .ok a → Sound (f a)) : Sound (x >>= f) := by
  cases x with
  | ok a => exact hf a rfl
  | error e =>
    intro text heq
    exact hx text (congrArg _ (Except.error.inj heq))

theorem liftState (x : Except StateError α) : Sound (liftState x) := by
  intro text
  cases x <;> simp [PChain.liftState, Except.mapError]

theorem liftCheck (x : Except String α) : Sound (liftCheck x) := by
  intro text
  cases x <;> simp [PChain.liftCheck, Except.mapError]

theorem ite {c : Prop} [Decidable c] {x y : Except ExecError α} (hx : Sound x) (hy : Sound y) :
    Sound (if c then x else y) := by
  split
  next => exact hx
  next => exact hy

theorem error {e : ExecError} (he : ∀ text, e ≠ .stateCorruption text) :
    Sound (.error e : Except ExecError α) := by
  intro text heq
  exact he text (Except.error.inj heq)

/-- A check with an error of its own. -/
theorem guard {c : Prop} [Decidable c] {e : ExecError} {x : Except ExecError α}
    (hx : Sound x) (he : ∀ text, e ≠ .stateCorruption text := by simp) :
    Sound (if c then .error e else x) := ite (error he) hx

theorem check {x : Except String α} (hf : ∀ a, Sound (f a)) :
    Sound (PChain.liftCheck x >>= f) := bind (liftCheck x) fun a _ => hf a

end Sound

section Corruption

variable {T : TreeOps L1Validator} {B : Backend T} (hT : T.Lawful L1Validator.less)
  {base : L1View} {P : LiveSet} (hP : base.Tracks P) {s s' : ChainState T} {S : LiveSet}

section

variable (s : ChainState T)

theorem sound_put (base : L1View) (v : L1Validator) :
    Sound (s.putL1Validator base v) := by
  unfold ChainState.putL1Validator
  split
  next => exact Sound.ok _
  next => exact Sound.error (by simp)

theorem sound_owner_verify (o : PChainOwner) : Sound o.verify :=
  Sound.guard (Sound.guard (Sound.guard (Sound.ok _)))

theorem sound_marshal (o : PChainOwner) : Sound o.marshal :=
  Sound.guard (Sound.ok _)

theorem sound_initialEndAccumulatedFee (balance : ℕ) :
    Sound (initialEndAccumulatedFee B base s balance) :=
  Sound.ite (Sound.ok _) (Sound.bind (Sound.guard (Sound.ok _))
    (fun _ _ => Sound.liftState _))

theorem sound_verifyL1Conversion (subnetID : ID) (source : WarpSource) :
    Sound (verifyL1Conversion s subnetID source) := by
  unfold verifyL1Conversion
  split
  next => exact Sound.error (by simp)
  next =>
    exact Sound.guard (Sound.guard (Sound.ok _))

theorem sound_loadL1Validator (id : ID) : Sound (loadL1Validator base s id) := by
  unfold loadL1Validator
  intro text
  cases (s.view base).getL1Validator id <;> simp [Except.mapError]

end

theorem sound_convertSyntacticVerify (subnet : ID) (address : Bytes)
    (vdrs : List ConvertSubnetToL1Validator) :
    Sound (convertSyntacticVerify subnet address vdrs) := by
  have hforM : ∀ l : List ConvertSubnetToL1Validator, Sound (l.forM (fun v => v.verify)) := by
    intro l
    induction l with
    | nil => exact Sound.ok _
    | cons a l ih =>
      apply Sound.bind
      · exact Sound.guard (Sound.guard (Sound.bind (sound_owner_verify _) (fun _ _ => sound_owner_verify _)))
      · exact fun _ _ => ih
  exact Sound.guard (Sound.guard (Sound.guard (Sound.guard (hforM vdrs))))

theorem sound_convertValidators (subnet : ID) (i : ℕ) (vdrs : List ConvertSubnetToL1Validator)
    (s : ChainState T) (fee : ℕ) : Sound (convertValidators B base subnet i vdrs s fee) := by
  induction vdrs generalizing i s fee with
  | nil => exact Sound.ok _
  | cons vdr vdrs ih =>
    apply Sound.bind
    · apply Sound.bind (sound_marshal _)
      intro _ _
      apply Sound.bind (sound_marshal _)
      intro _ _
      apply Sound.bind (sound_initialEndAccumulatedFee s _)
      intro _ _
      apply Sound.bind (Sound.ite (Sound.ok _) (Sound.liftState _))
      intro _ _
      apply Sound.bind (sound_put s base _)
      exact fun _ _ => Sound.ok _
    · rintro ⟨s₁, fee₁⟩ _
      exact ih (i + 1) s₁ fee₁

/-- With something left and an owner that can be unpacked, a refund succeeds. -/
theorem Charged.sound_refund {malformed : ExecError} {tx : BaseTx} {v : L1Validator}
    (h : Charged P s S limit) (hlimit : s'.accruedFees < limit) (hv : v ∈ S.carrier)
    (hfee : v.endAccumulatedFee ≠ 0) : Sound (refund B malformed s' tx v) := by
  rcases h.owners v hv with ⟨owner, howner⟩
  have hcov := h.covers v.validationID (by rwa [S.fee_of_mem hv])
  rw [S.fee_of_mem hv] at hcov
  unfold refund
  rw [howner]
  dsimp only
  rw [if_neg (by omega)]
  exact Sound.ok _

include hT hP

/-- No transaction finds a corrupted state. -/
theorem Charged.sound_standardTx (h : Charged P s S (s.accruedFees + 1)) (tx : Tx) :
    Sound (PChain.standardTx B base s tx) := by
  cases tx with
  | convertSubnetToL1 tx subnet chainID address vdrs =>
    apply Sound.bind (sound_convertSyntacticVerify subnet address vdrs)
    intro _ _
    refine Sound.check fun _ => ?_
    apply Sound.bind (Sound.guard (Sound.ok _))
    intro _ _
    refine Sound.check fun _ => ?_
    apply Sound.bind (sound_convertValidators subnet 0 vdrs s _)
    rintro ⟨s₁, fee₁⟩ _
    refine Sound.check fun _ => ?_
    exact Sound.check fun _ => Sound.ok _
  | registerL1Validator tx balance source msg =>
    refine Sound.check fun _ => ?_
    refine Sound.check fun _ => ?_
    apply Sound.bind (Sound.liftState _)
    intro _ _
    refine Sound.check fun _ => ?_
    apply Sound.bind
    · exact Sound.guard (Sound.guard (Sound.guard (Sound.bind (sound_owner_verify _) (fun _ _ => sound_owner_verify _))))
    intro _ _
    apply Sound.bind (sound_verifyL1Conversion s _ _)
    intro _ _
    apply Sound.bind
    · exact Sound.guard (Sound.guard (Sound.guard (Sound.ok _)))
    intro _ _
    apply Sound.bind (sound_marshal _)
    intro _ _
    apply Sound.bind (sound_marshal _)
    intro _ _
    apply Sound.bind (sound_initialEndAccumulatedFee s _)
    intro _ _
    apply Sound.bind (sound_put s base _)
    exact fun _ _ => Sound.ok _
  | setL1ValidatorWeight tx source msg =>
    refine Sound.check fun _ => ?_
    refine Sound.check fun _ => ?_
    refine Sound.check fun _ => ?_
    apply Sound.bind (Sound.guard (Sound.ok _))
    intro _ _
    apply Sound.bind (sound_loadL1Validator s _)
    intro v hv
    have hmem := (h.for_live.get_ok hT hP (loadL1Validator_ok hv)).1
    apply Sound.bind (Sound.guard (Sound.ok _))
    intro _ _
    apply Sound.bind (sound_verifyL1Conversion s _ _)
    intro _ _
    apply Sound.bind
    · -- the only place where a refund can go wrong
      unfold settleWeight
      split
      next =>
        apply Sound.bind (Sound.liftState _)
        intro _ _
        split
        next => exact Sound.error (by simp)
        next =>
          split
          next => exact Sound.ok _
          next hfee => exact h.sound_refund (Nat.lt_succ_self _) hmem hfee
      next => exact Sound.ok _
    intro s₁ _
    apply Sound.bind (sound_put s₁ base _)
    exact fun _ _ => Sound.ok _
  | increaseL1ValidatorBalance tx id balance =>
    apply Sound.bind (Sound.guard (Sound.ok _))
    intro _ _
    refine Sound.check fun _ => ?_
    refine Sound.check fun _ => ?_
    apply Sound.bind (Sound.liftState _)
    intro _ _
    refine Sound.check fun _ => ?_
    apply Sound.bind (Sound.liftState _)
    intro v _
    apply Sound.bind
    · exact Sound.ite (Sound.bind (Sound.guard (Sound.ok _))
        (fun _ _ => Sound.ok _)) (Sound.ok _)
    intro _ _
    apply Sound.bind (Sound.liftState _)
    intro _ _
    apply Sound.bind (sound_put s base _)
    exact fun _ _ => Sound.ok _
  | disableL1Validator tx id =>
    apply Sound.bind (sound_loadL1Validator s _)
    intro v hv
    have hmem := (h.for_live.get_ok hT hP (loadL1Validator_ok hv)).1
    apply Sound.bind
    · unfold verifyDisableOwner
      split
      next => exact Sound.error (by simp)
      next => exact Sound.ok _
    intro _ _
    refine Sound.check fun _ => ?_
    refine Sound.check fun _ => ?_
    refine Sound.check fun _ => ?_
    unfold settleDisable
    split
    next => exact Sound.ok _
    next hfee =>
      apply Sound.bind
      · exact h.sound_refund (Nat.lt_succ_self _) hmem hfee
      · exact fun s₁ _ => sound_put s₁ base _
  | other staking writes => exact Sound.ok _

end Corruption

/-! ## Runs -/

/-- The states after accepted blocks, from a state in which nothing was written about
L1 validators. -/
inductive Accepted {T : TreeOps L1Validator} (B : Backend T) (base : L1View) : ChainState T → Prop
  | start (s : ChainState T) (hnew : s.l1ValidatorsDiff = L1ValidatorsDiff.new T)
      (hexcess : s.l1ValidatorExcess ≤ maxUint64) : Accepted B base s
  | block (s s' : ChainState T) (b : Block) (h : Accepted B base s)
      (hok : executeBlock B base s b = .ok s') : Accepted B base s'

/-- Without validators every bound holds. -/
theorem Charged.start {T : TreeOps L1Validator} (hT : T.Lawful L1Validator.less) {s : ChainState T}
    (hnew : s.l1ValidatorsDiff = L1ValidatorsDiff.new T) (hexcess : s.l1ValidatorExcess ≤ maxUint64)
    (limit : ℕ) : Charged LiveSet.empty s LiveSet.empty limit := by
  have hfee : ∀ id, LiveSet.empty.fee id = 0 := fun id =>
    LiveSet.empty.prior_of_not_mem (fun v hv => absurd hv (Finset.notMem_empty v)) _
  refine ⟨?_, fun v hv => absurd hv (Finset.notMem_empty v), hexcess,
    fun id hid => absurd (hfee id) hid⟩
  unfold ChainState.For
  rw [hnew]
  exact L1ValidatorsDiff.overlay_new hT LiveSet.empty

section Runs

variable {T : TreeOps L1Validator} {B : Backend T} (hT : T.Lawful L1Validator.less)
  {base : L1View} (hbase : base.Tracks LiveSet.empty)
  (hconst : 1 ≤ B.config.excessConversionConstant)
include hT hbase hconst

/-- One block: whoever can pay for a second before it can pay for one after it. -/
theorem Charged.executeBlock {s s' : ChainState T} {S : LiveSet} {b : Block}
    (h : Charged LiveSet.empty s S (s.accruedFees + (s.feeState base).costOf B.config 1))
    (hok : executeBlock B base s b = .ok s') :
    ∃ S', Charged LiveSet.empty s' S' (s'.accruedFees + (s'.feeState base).costOf B.config 1) := by
  rcases bind_ok hok with ⟨_, hverify, hok⟩
  rcases bind_ok hok with ⟨s₁, hadvance, hok⟩
  rcases bind_ok hok with ⟨s₂, htxs, hlow⟩
  rcases (h.advance hT hbase (Nat.le_add_right _ _) hverify hadvance).2 with ⟨S₁, h₁⟩
  rcases h₁.standardTxs hT hbase htxs with ⟨S₂, h₂⟩
  exact h₂.deactivateLowBalance hT hbase hconst hlow

/-- After every run, every active validator can pay for one more second. -/
theorem Accepted.charged {s : ChainState T} (h : Accepted B base s) :
    ∃ S, Charged LiveSet.empty s S (s.accruedFees + (s.feeState base).costOf B.config 1) := by
  induction h with
  | start s hnew hexcess => exact ⟨LiveSet.empty, Charged.start hT hnew hexcess _⟩
  | block s s' b _ hok ih =>
    rcases ih with ⟨S, hS⟩
    exact hS.executeBlock hT hbase hconst hok

/-- **L1 validators are never overcharged and never stall the chain.** After every
run of blocks every active validator can pay for one more second, and the time of
the next eviction is computed without an error and lies strictly after the chain
time whenever a later time is asked for. The next time advance that is allowed
charges no active validator more than it has, and no transaction after it, in
whatever block, finds the state corrupted. -/
theorem l1_validators_stay_solvent (hmin : 1 ≤ B.config.minPrice) {s : ChainState T}
    (h : Accepted B base s) :
    (∃ l, (s.view base).getActiveL1ValidatorsIterator = .ok l ∧
      (∀ v ∈ l, s.accruedFees + (s.feeState base).costOf B.config 1 ≤ v.endAccumulatedFee) ∧
      ∀ newChainTime now staking s₁, verifyNewChainTime B.config base s newChainTime now = .ok () →
        advanceTimeTo B.config base s newChainTime staking = .ok s₁ →
        (∀ v ∈ l, s₁.accruedFees ≤ v.endAccumulatedFee) ∧
        ∀ txs s₂ tx text, standardTxs B base s₁ txs = .ok s₂ →
          standardTx B base s₂ tx ≠ .error (.stateCorruption text)) ∧
    ∀ nextTime, ∃ t, getNextL1ValidatorEvictionTime B.config base s nextTime = .ok t ∧
      (s.timestamp + 1 ≤ nextTime → s.timestamp < t) := by
  rcases h.charged hT hbase hconst with ⟨S, hS⟩
  constructor
  · rcases hS.for_live.iterator hT hbase with ⟨l, hl, -, hmem⟩
    refine ⟨l, hl, ?_, ?_⟩
    · intro v hv
      have hlive := (hmem v).mp hv
      rw [← S.fee_of_mem hlive.1]
      apply hS.covers
      rw [S.fee_of_mem hlive.1]
      exact hlive.2
    · intro newChainTime now staking s₁ hverify hadvance
      rcases hS.advance hT hbase (Nat.le_add_right _ _) hverify hadvance with ⟨hcov, S₁, hS₁⟩
      constructor
      · intro v hv
        have hlive := (hmem v).mp hv
        rw [← S.fee_of_mem hlive.1]
        apply hcov
        rw [S.fee_of_mem hlive.1]
        exact hlive.2
      · intro txs s₂ tx text htxs
        rcases hS₁.standardTxs hT hbase htxs with ⟨S₂, hS₂⟩
        exact hS₂.sound_standardTx hT hbase tx text
  · intro nextTime
    rcases hS.evictionTime_cases hT hbase (Nat.le_add_right _ _) nextTime with
      ⟨-, heq⟩ | ⟨id, hid, -, heq⟩
    · exact ⟨nextTime, heq, fun hlt => hlt⟩
    · rcases ValidatorFee.secondsRemaining_isSome hmin hconst (s.feeState base)
        (secondsBetween s.timestamp nextTime) (S.fee id - s.accruedFees) with ⟨r, hr⟩
      rw [hr] at heq
      refine ⟨_, heq, fun hlt => ?_⟩
      have hcov := hS.covers id hid
      have hone : 1 ≤ secondsBetween s.timestamp nextTime := by
        unfold secondsBetween
        omega
      have hpos := ValidatorFee.one_le_secondsRemaining (secondsBetween_le _ _) hr hone (by omega)
      split <;> omega

end Runs

/-- A backend whose checks all pass, with a price of one per second. -/
def plainBackend : Backend l1Tree where
  config := ⟨20, 10, 1, 1, by decide⟩
  avaxAssetID := 0
  verifyTx _ _ := .ok ()
  calculateFee _ := .ok 0
  verifySpend _ _ _ := .ok ()
  uncompressed key := key
  validationID msg := Fin.ofNat _ msg.nodeID
  append _ i := Fin.ofNat _ i
  conversionID _ := .ok 0

def plainStaking : Staking := ⟨fun _ _ => .error .notFound, none, none⟩

/-- A state at time 100 without L1 validators. -/
def plainStart : ChainState l1Tree where
  timestamp := 100
  l1ValidatorExcess := 0
  accruedFees := 0
  l1ValidatorsDiff := L1ValidatorsDiff.new l1Tree
  staking := plainStaking
  expiries := ∅
  conversions := ∅
  utxoWrites := []

/-- A block at time 105 that converts subnet 3, with one validator that can pay for
seven seconds. -/
def convertBlock : Block where
  timestamp := 105
  now := 100
  staking := plainStaking
  txs := [.convertSubnetToL1 ⟨9, [], [], no_outs_lt⟩ 3 0 []
    [⟨7, 5, 7, [], ⟨0, []⟩, ⟨0, []⟩⟩]]

theorem l1_validators_stay_solvent_convert :
    ∃ s, executeBlock plainBackend L1View.empty plainStart convertBlock = .ok s ∧
      s.numActive L1View.empty = 1 ∧
      ∃ t, getNextL1ValidatorEvictionTime plainBackend.config L1View.empty s 200 = .ok t ∧
        (s.timestamp + 1 ≤ 200 → s.timestamp < t) := by
  refine ⟨_, rfl, rfl, ?_⟩
  exact (l1_validators_stay_solvent l1Tree_lawful L1View.empty_tracks (by decide) (by decide)
    (Accepted.block plainStart _ convertBlock (Accepted.start plainStart rfl (by decide)) rfl)).2 200

end Titan.PChain
