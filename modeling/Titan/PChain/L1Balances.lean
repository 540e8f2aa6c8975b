import Titan.PChain.L1Fees

/-!
# Titan.PChain.L1Balances — balances of L1 validators are conserved

A balance is not stored: an active validator holds an `EndAccumulatedFee`, and
what is left to it is the distance to the fees accrued so far. This module
follows that distance along any interleaving of time advances, transactions and
low-balance deactivations.

`EventLaw` says what one event can do to one validator: credit a deposit, charge
the growth of the accrued fees, end its activity with a refund, or end it with a
remainder too small for another second. The accounts of a whole run follow from
it. That a registration or a conversion never overwrites a live validator rests
on the hashes that make validation IDs: `CollisionFree` says that no two of the
creations of the run collide.
-/

namespace Titan.PChain

open Lib

/-! ## Runs -/

/-- What changes the L1 validators of a chain. -/
inductive Op where
  | advanceTime (newChainTime now : ℕ) (staking : Staking)
  | tx (t : Tx)
  | deactivateLowBalance

def Op.run {T : TreeOps L1Validator} (B : Backend T) (base : L1View) (s : ChainState T) :
    Op → Except ExecError (ChainState T)
  | .advanceTime newChainTime now staking => do
      verifyNewChainTime B.config base s newChainTime now
      advanceTimeTo B.config base s newChainTime staking
  | .tx t => standardTx B base s t
  | .deactivateLowBalance => deactivateLowBalanceL1Validators B.config base s

/-- An operation that succeeded, with the states around it. -/
structure Event (T : TreeOps L1Validator) where
  before : ChainState T
  op : Op
  after : ChainState T

/-- The events of a run from `s₀`, and the state it ends in. -/
inductive Run {T : TreeOps L1Validator} (B : Backend T) (base : L1View) (s₀ : ChainState T) :
    List (Event T) → ChainState T → Prop
  | start : Run B base s₀ [] s₀
  | step {es : List (Event T)} {s s' : ChainState T} (op : Op) (h : Run B base s₀ es s)
      (hok : op.run B base s = .ok s') : Run B base s₀ (es ++ [⟨s, op, s'⟩]) s'

/-- The `EndAccumulatedFee` of a validator; 0 if it is inactive or does not exist. -/
def endFee {T : TreeOps L1Validator} (base : L1View) (s : ChainState T) (id : ID) : ℕ :=
  match (s.view base).getL1Validator id with
  | .ok v => v.endAccumulatedFee
  | .error _ => 0

/-! ## Deposits and refunds -/

section Amounts

variable {T : TreeOps L1Validator}

/-- The balance that a conversion deposits for an ID, from its `i`-th validator on. -/
def convertDeposit (B : Backend T) (subnet id : ID) : ℕ → List ConvertSubnetToL1Validator → ℕ
  | _, [] => 0
  | i, vdr :: vdrs =>
    (if B.append subnet i = id then vdr.balance else 0) + convertDeposit B subnet id (i + 1) vdrs

/-- The balance that an operation deposits for a validator. -/
def Op.deposit (B : Backend T) (id : ID) : Op → ℕ
  | .tx (.convertSubnetToL1 _ subnet _ _ validators) => convertDeposit B subnet id 0 validators
  | .tx (.registerL1Validator _ balance _ msg) => if B.validationID msg = id then balance else 0
  | .tx (.increaseL1ValidatorBalance _ validationID balance) =>
    if validationID = id then balance else 0
  | _ => 0

def deposited (B : Backend T) (id : ID) (es : List (Event T)) : ℕ :=
  (es.map (fun e => e.op.deposit B id)).sum

@[simp] theorem deposited_concat (B : Backend T) (id : ID) (es : List (Event T)) (e : Event T) :
    deposited B id (es ++ [e]) = deposited B id es + e.op.deposit B id := by
  simp [deposited]

/-- The inputs and outputs of an L1 transaction. -/
def Tx.baseTx : Tx → Option BaseTx
  | .convertSubnetToL1 tx .. => some tx
  | .registerL1Validator tx .. => some tx
  | .setL1ValidatorWeight tx .. => some tx
  | .increaseL1ValidatorBalance tx .. => some tx
  | .disableL1Validator tx _ => some tx
  | .other .. => none

/-- What a write adds to the UTXO set beyond the outputs of the transaction itself. -/
def UTXOWrite.surplus (tx : BaseTx) : UTXOWrite → ℕ
  | .addUTXO u => if u.txID = tx.txID ∧ u.outputIndex < tx.outs.length then 0 else u.out.amount
  | .deleteUTXO _ _ => 0

/-- The writes of an event to the UTXO set. -/
def Event.writes (e : Event T) : List UTXOWrite :=
  e.after.utxoWrites.drop e.before.utxoWrites.length

/-- What an event adds to the UTXO set beyond the outputs of its transaction. -/
def Event.surplus (e : Event T) : ℕ :=
  match e.op with
  | .tx t =>
    match t.baseTx with
    | some tx => (e.writes.map (UTXOWrite.surplus tx)).sum
    | none => 0
  | _ => 0

/-- The validator whose weight is set or that is disabled. -/
def Op.subject : Op → Option ID
  | .tx (.setL1ValidatorWeight _ _ msg) => some msg.validationID
  | .tx (.disableL1Validator _ validationID) => some validationID
  | _ => none

/-- What an event refunds for a validator. -/
def Event.refund (id : ID) (e : Event T) : ℕ := if e.op.subject = some id then e.surplus else 0

def refunded (id : ID) (es : List (Event T)) : ℕ := (es.map (Event.refund id)).sum

@[simp] theorem refunded_concat (id : ID) (es : List (Event T)) (e : Event T) :
    refunded id (es ++ [e]) = refunded id es + e.refund id := by
  simp [refunded]

/-- How the activity of a validator with a remaining balance of `back` ends: the
balance is refunded by one UTXO, at an index that none of the transaction's own
outputs has, or it is forfeited and would not have paid for a second. -/
inductive Ending (B : Backend T) (base : L1View) (id : ID) (e : Event T) (back : ℕ) : Prop
  | refunded (tx : BaseTx) (owner : PChainOwner)
      (hop : e.op = .tx (.disableL1Validator tx id) ∨ ∃ source msg,
        e.op = .tx (.setL1ValidatorWeight tx source msg) ∧ msg.validationID = id ∧ msg.weight = 0)
      (hwrites : e.writes.Perm
        (.addUTXO ⟨tx.txID, tx.outs.length, ⟨B.avaxAssetID, back, owner⟩⟩ :: tx.writes))
      (hindex : ∀ u, .addUTXO u ∈ tx.writes → u.outputIndex ≠ tx.outs.length)
  | forfeited
      (hop : (∃ newChainTime now staking, e.op = .advanceTime newChainTime now staking) ∨
        e.op = .deactivateLowBalance)
      (hwrites : e.writes = [])
      (hsmall : back = 0 ∨ back < (e.before.feeState base).costOf B.config 1)
      (hless : 1 ≤ B.config.minPrice → 1 ≤ B.config.excessConversionConstant →
        back < (e.before.feeState base).costOf B.config 1)

end Amounts

/-! ## Creation of validators -/

/-- What creates a validator: a registration message or a place in a conversion. -/
inductive Creation where
  | register (msg : RegisterL1Validator)
  | convert (subnet : ID) (index : ℕ)

section Creations

variable {T : TreeOps L1Validator}

def Creation.validationID (B : Backend T) : Creation → ID
  | .register msg => B.validationID msg
  | .convert subnet index => B.append subnet index

def Op.creations : Op → List Creation
  | .tx (.convertSubnetToL1 _ subnet _ _ validators) =>
    (List.range validators.length).map (.convert subnet)
  | .tx (.registerL1Validator _ _ _ msg) => [.register msg]
  | _ => []

def creations (es : List (Event T)) : List Creation := es.flatMap (fun e => e.op.creations)

/-- Different creations of the run make different validation IDs. -/
def CollisionFree (B : Backend T) (es : List (Event T)) : Prop :=
  ∀ c ∈ creations es, ∀ c' ∈ creations es, c.validationID B = c'.validationID B → c = c'

/-- The state remembers a creation, so that it cannot happen again. -/
def Recorded (B : Backend T) (s : ChainState T) : Creation → Prop
  | .register msg => ⟨msg.expiry, B.validationID msg⟩ ∈ s.expiries ∨ msg.expiry ≤ s.timestamp
  | .convert subnet _ => (s.conversions.lookup subnet).isSome

/-- The ID belongs to a creation of the run that the state remembers. -/
def Created (B : Backend T) (es : List (Event T)) (s : ChainState T) (id : ID) (_ : Bytes) : Prop :=
  ∃ c ∈ creations es, c.validationID B = id ∧ Recorded B s c

@[simp] theorem creations_concat (es : List (Event T)) (e : Event T) :
    creations (es ++ [e]) = creations es ++ e.op.creations := by
  simp [creations]

variable {B : Backend T}

theorem CollisionFree.left {es : List (Event T)} {e : Event T} (h : CollisionFree B (es ++ [e])) :
    CollisionFree B es := by
  intro c hc c' hc' hid
  rw [CollisionFree, creations_concat] at h
  exact h c (List.mem_append_left _ hc) c' (List.mem_append_left _ hc') hid

variable {s s' : ChainState T} {c : Creation}

/-- What is remembered is kept by a step that forgets registrations only once they have expired. -/
theorem Recorded.mono (hexpiries : ∀ x ∈ s.expiries, x ∈ s'.expiries ∨ x.timestamp ≤ s'.timestamp)
    (htime : s.timestamp ≤ s'.timestamp)
    (hconversions : ∀ subnet, (s.conversions.lookup subnet).isSome → (s'.conversions.lookup subnet).isSome)
    (h : Recorded B s c) : Recorded B s' c := by
  cases c with
  | register msg =>
    rcases h with h | h
    · exact hexpiries _ h
    · exact .inr (h.trans htime)
  | convert subnet index => exact hconversions subnet h

theorem Recorded.txStep {ws : List UTXOWrite} (hstep : TxStep s s' ws)
    (h : Recorded B s c) : Recorded B s' c :=
  h.mono (fun _ hx => .inl (hstep.expiries hx)) hstep.timestamp.ge hstep.conversions

theorem Recorded.advanced {base : L1View} {config : ValidatorFee.Config} {newChainTime : ℕ}
    (hadv : ChainState.Advanced config base s s' newChainTime) (hle : s.timestamp ≤ newChainTime)
    (h : Recorded B s c) : Recorded B s' c := by
  refine h.mono (fun x hx => ?_) (hadv.timestamp ▸ hle) (hadv.conversions ▸ fun _ => id)
  rw [hadv.timestamp, hadv.expiries, Finset.mem_filter]
  rcases Nat.lt_or_ge newChainTime x.timestamp with hlt | hge
  · exact .inl ⟨hx, hlt⟩
  · exact .inr hge

theorem Created.imp {es : List (Event T)} {e : Event T}
    (himp : ∀ c, Recorded B s c → Recorded B s' c) {id : ID} {bytes : Bytes}
    (h : Created B es s id bytes) : Created B (es ++ [e]) s' id bytes := by
  rcases h with ⟨c, hc, hid, hrec⟩
  rw [Created, creations_concat]
  exact ⟨c, List.mem_append_left _ hc, hid, himp c hrec⟩

end Creations

/-! ## One event -/

section Law

variable {T : TreeOps L1Validator}

/-- What one event can do to one validator, whose `EndAccumulatedFee` is 0 while it
is inactive. -/
inductive EventLaw (B : Backend T) (base : L1View) (id : ID) (e : Event T) : Prop
  | credited
      (haccrued : e.after.accruedFees = e.before.accruedFees)
      (hsurplus : e.op.subject = none → e.surplus = 0)
      (hrefund : e.refund id = 0)
      (hfee : endFee base e.after id = if e.op.deposit B id = 0 then endFee base e.before id
        else (if endFee base e.before id = 0 then e.before.accruedFees
          else endFee base e.before id) + e.op.deposit B id)
  | charged
      (haccrued : e.before.accruedFees ≤ e.after.accruedFees)
      (hsurplus : e.surplus = 0)
      (hdeposit : e.op.deposit B id = 0)
      (hcovered : endFee base e.before id ≠ 0 → e.after.accruedFees ≤ endFee base e.before id)
      (hfee : endFee base e.after id = endFee base e.before id ∨
        endFee base e.after id = 0 ∧
          Ending B base id e (endFee base e.before id - e.after.accruedFees))
  | settled
      (haccrued : e.after.accruedFees = e.before.accruedFees)
      (hsubject : e.op.subject = some id)
      (hrefund : e.refund id = endFee base e.before id - e.before.accruedFees)
      (hdeposit : e.op.deposit B id = 0)
      (hfee : endFee base e.after id = 0)
      (hended : endFee base e.before id ≠ 0 → e.before.accruedFees < endFee base e.before id ∧
        Ending B base id e (endFee base e.before id - e.before.accruedFees))

theorem endFee_eq (hT : T.Lawful L1Validator.less) {base : L1View} {P S : LiveSet}
    (hP : base.Tracks P) {s : ChainState T} (h : s.For P S) (id : ID) :
    endFee base s id = S.fee id := by
  unfold endFee
  by_cases hlive : ∃ v ∈ S.carrier, v.validationID = id
  · rcases hlive with ⟨v, hv, rfl⟩
    rw [(h.tracks hT hP).get_live v hv, S.fee_of_mem hv]
  · have habsent : ∀ v ∈ S.carrier, v.validationID ≠ id := fun v hv hid => hlive ⟨v, hv, hid⟩
    rw [(h.tracks hT hP).get_absent id habsent]
    exact (S.prior_of_not_mem habsent _).symm

variable {tx : BaseTx}

/-- A transaction's own outputs have the indices below their number. -/
theorem BaseTx.mem_writes {u : UTXO} (h : .addUTXO u ∈ tx.writes) :
    u.txID = tx.txID ∧ u.outputIndex < tx.outs.length := by
  rcases List.mem_append.mp h with h | h
  · simp at h
  · rcases List.mem_mapIdx.mp h with ⟨i, hi, heq⟩
    rw [← UTXOWrite.addUTXO.inj heq]
    exact ⟨rfl, (Nat.mod_le _ _).trans_lt hi⟩

theorem BaseTx.surplus_writes (tx : BaseTx) : (tx.writes.map (UTXOWrite.surplus tx)).sum = 0 := by
  apply List.sum_eq_zero
  intro n hn
  rcases List.mem_map.mp hn with ⟨w, hw, rfl⟩
  cases w with
  | addUTXO u => exact if_pos (BaseTx.mem_writes hw)
  | deleteUTXO txID index => rfl

variable {e : Event T} {ws : List UTXOWrite}

theorem Event.writes_of_txStep (h : TxStep e.before e.after ws) :
    e.writes = ws := by
  rw [Event.writes, h.utxoWrites, List.drop_left]

variable {t : Tx}

theorem Event.refund_of_surplus (h : e.surplus = 0) (id : ID) : e.refund id = 0 := by
  rw [Event.refund, h, ite_self]

variable {vdrs : List ConvertSubnetToL1Validator}

/-- No balance is deposited for an ID that the conversion does not create. -/
theorem convertDeposit_eq_zero (B : Backend T) (subnet id : ID) {i : ℕ}
    (h : ∀ j, i ≤ j → j < i + vdrs.length → B.append subnet j ≠ id) :
    convertDeposit B subnet id i vdrs = 0 := by
  induction vdrs generalizing i with
  | nil => rfl
  | cons vdr vdrs ih =>
    rw [List.length_cons] at h
    rw [convertDeposit, if_neg (h i (le_refl _) (by omega)), Nat.zero_add]
    exact ih (fun j hij hj => h j (by omega) (by omega))

/-- The fee of a new validator of a conversion is its deposit on top of the accrued
fees. -/
theorem convertFees_eq (B : Backend T) (subnet id : ID) (accruedFees : ℕ) {i : ℕ} {fee : ID → ℕ}
    (hinj : ∀ j k, i ≤ j → j < i + vdrs.length → i ≤ k → k < i + vdrs.length →
      B.append subnet j = B.append subnet k → j = k)
    (hnew : ∀ j, i ≤ j → j < i + vdrs.length → B.append subnet j = id → fee id = 0) :
    convertFees B subnet accruedFees i vdrs fee id =
      if convertDeposit B subnet id i vdrs = 0 then fee id
      else accruedFees + convertDeposit B subnet id i vdrs := by
  induction vdrs generalizing i fee with
  | nil => rfl
  | cons vdr vdrs ih =>
    rw [List.length_cons] at hinj hnew
    have hinj' : ∀ j k, i + 1 ≤ j → j < i + 1 + vdrs.length → i + 1 ≤ k →
        k < i + 1 + vdrs.length → B.append subnet j = B.append subnet k → j = k :=
      fun j k _ _ _ _ => hinj j k (by omega) (by omega) (by omega) (by omega)
    by_cases hid : B.append subnet i = id
    · -- no later validator of the conversion has this ID
      have hlater : ∀ j, i + 1 ≤ j → j < i + 1 + vdrs.length → B.append subnet j ≠ id := by
        intro j hij hj heq
        have := hinj j i (by omega) (by omega) (le_refl _) (by omega) (heq.trans hid.symm)
        omega
      rw [convertFees, ih hinj' (fun j hij hj heq => absurd heq (hlater j hij hj)), convertDeposit,
        convertDeposit_eq_zero B subnet id hlater, if_pos rfl, if_pos hid, hid,
        Function.update_self, hnew i (le_refl _) (by omega) hid, Nat.add_zero, initialFee]
      split <;> omega
    · have hsame : Function.update fee (B.append subnet i) (initialFee accruedFees vdr.balance) id =
          fee id := Function.update_of_ne (Ne.symm hid) _ _
      rw [convertFees, convertDeposit, if_neg hid, Nat.zero_add, ih hinj', hsame]
      rw [hsame]
      exact fun j hij hj => hnew j (by omega) (by omega)

variable {B : Backend T} (hT : T.Lawful L1Validator.less) {base : L1View} {P : LiveSet}
  (hP : base.Tracks P) {e : Event T} {S S' : LiveSet} (h : e.before.For P S)
  (h' : e.after.For P S')
include hT hP h h'

/-- A transaction that writes its inputs and outputs only, and credits its deposits. -/
theorem EventLaw.of_credit (hop : e.op = .tx t) (htx : t.baseTx = some tx)
    (hstep : TxStep e.before e.after tx.writes) {id : ID}
    (hfee : S'.fee id = if e.op.deposit B id = 0 then S.fee id else (if S.fee id = 0 then e.before.accruedFees else S.fee id) + e.op.deposit B id) :
    EventLaw B base id e := by
  have hsurplus : e.surplus = 0 := by
    simp only [Event.surplus, hop, htx, Event.writes_of_txStep hstep]
    exact tx.surplus_writes
  apply EventLaw.credited hstep.accruedFees
  · exact fun _ => hsurplus
  · exact Event.refund_of_surplus hsurplus id
  · rw [endFee_eq hT hP h, endFee_eq hT hP h', hfee]

/-- A transaction that ends the activity of its subject, if it was active. -/
theorem EventLaw.of_settle {target : ID} (hop : e.op = .tx t) (htx : t.baseTx = some tx)
    (hsubject : e.op.subject = some target)
    (hending : t = .disableL1Validator tx target ∨ ∃ source msg, t = .setL1ValidatorWeight tx source msg ∧ msg.validationID = target ∧ msg.weight = 0)
    (hdeposit : ∀ id, e.op.deposit B id = 0) (hfee : S'.fee = Function.update S.fee target 0)
    (hstep : TxStep e.before e.after ws)
    (hrefunds : Refunds B e.before tx (S.fee target) ws) (id : ID) : EventLaw B base id e := by
  by_cases hid : target = id
  · subst hid
    unfold Refunds at hrefunds
    have hsurplus : e.surplus = (ws.map (UTXOWrite.surplus tx)).sum := by
      simp only [Event.surplus, hop, htx, Event.writes_of_txStep hstep]
    have hrefund : e.refund target = e.surplus := if_pos hsubject
    have hend := endFee_eq hT hP h target
    have hamount : e.surplus = S.fee target - e.before.accruedFees := by
      rw [hsurplus]
      split at hrefunds
      next hz => rw [hrefunds, tx.surplus_writes, hz, Nat.zero_sub]
      next =>
        -- the refund is at an index that no output of the transaction has
        rcases hrefunds with ⟨-, owner, hperm⟩
        rw [(hperm.map _).sum_eq, List.map_cons, List.sum_cons, tx.surplus_writes]
        simp [UTXOWrite.surplus]
    apply EventLaw.settled hstep.accruedFees hsubject
    · rw [hrefund, hamount, hend]
    · exact hdeposit target
    · rw [endFee_eq hT hP h', hfee, Function.update_self]
    · intro hne
      rw [hend] at hne ⊢
      rw [if_neg hne] at hrefunds
      rcases hrefunds with ⟨hlt, owner, hperm⟩
      refine ⟨hlt, Ending.refunded tx owner ?_ ?_ ?_⟩
      · rcases hending with rfl | ⟨source, msg, rfl, hmsg⟩
        · exact .inl hop
        · exact .inr ⟨source, msg, hop, hmsg⟩
      · rw [Event.writes_of_txStep hstep]
        exact hperm
      · intro u hu
        exact (BaseTx.mem_writes hu).2.ne
  · apply EventLaw.credited hstep.accruedFees
    · exact fun hnone => absurd (hsubject.symm.trans hnone) (by simp)
    · rw [Event.refund, hsubject, if_neg (fun heq => hid (Option.some.inj heq))]
    · rw [if_pos (hdeposit id), endFee_eq hT hP h, endFee_eq hT hP h', hfee,
        Function.update_of_ne (Ne.symm hid)]

/-- An event that may deactivate validators without a refund. -/
theorem EventLaw.of_charge
    (hop : (∃ newChainTime now staking, e.op = .advanceTime newChainTime now staking) ∨
      e.op = .deactivateLowBalance)
    (haccrued : e.before.accruedFees ≤ e.after.accruedFees)
    (hwrites : e.after.utxoWrites = e.before.utxoWrites)
    (hcovers : Covers S.fee e.after.accruedFees) {id : ID}
    (hfee : S'.fee id = S.fee id ∨ S'.fee id = 0 ∧
      (S.fee id - e.after.accruedFees = 0 ∨
        S.fee id - e.after.accruedFees < (e.before.feeState base).costOf B.config 1)) :
    EventLaw B base id e := by
  apply EventLaw.charged haccrued
  · rcases hop with ⟨_, _, _, hop⟩ | hop <;> simp [Event.surplus, hop]
  · rcases hop with ⟨_, _, _, hop⟩ | hop <;> rw [hop] <;> rfl
  · rw [endFee_eq hT hP h]
    exact hcovers id
  · rw [endFee_eq hT hP h, endFee_eq hT hP h']
    refine hfee.imp_right (fun hz => ⟨hz.1, Ending.forfeited hop ?_ hz.2 ?_⟩)
    · rw [Event.writes, hwrites, List.drop_length]
    · intro hmin hconst
      have hpos := ValidatorFee.one_le_costOf_one hmin hconst (e.before.feeState base)
      rcases hz.2 with hzero | hlt
      · omega
      · exact hlt

end Law

/-! ## The step -/

section Step

variable {T : TreeOps L1Validator} {B : Backend T}

/-- After the events `es` the state stands for `S`: active validators have something
left, and every validator comes from a creation that cannot happen again. -/
structure Accounted (B : Backend T) (es : List (Event T)) (s : ChainState T) (S : LiveSet) :
    Prop where
  charged : Charged LiveSet.empty s S (s.accruedFees + 1)
  created : S.All (Created B es s)

/-- After an event the state is accounted for, and the event followed the law. -/
def Explained (B : Backend T) (base : L1View) (es : List (Event T)) (e : Event T) : Prop :=
  (∃ S, Accounted B (es ++ [e]) e.after S) ∧ ∀ id, EventLaw B base id e

variable (hT : T.Lawful L1Validator.less) {base : L1View} (hbase : base.Tracks LiveSet.empty)

include hT hbase in
/-- A state stands for one live set. -/
theorem ChainState.For.unique {s : ChainState T} {S S' : LiveSet} (h : s.For LiveSet.empty S)
    (h' : s.For LiveSet.empty S') : S = S' := by
  have hsub : ∀ {U V : LiveSet}, s.For LiveSet.empty U → s.For LiveSet.empty V →
      U.carrier ⊆ V.carrier := by
    intro U V hU hV v hv
    exact (hV.get_ok hT hbase ((hU.tracks hT hbase).get_live v hv)).1
  have hcarrier : S.carrier = S'.carrier := (hsub h h').antisymm (hsub h' h)
  cases S
  cases S'
  cases hcarrier
  rfl

variable {es : List (Event T)} {s s' : ChainState T} {S : LiveSet}

variable (h : Accounted B es s S)
include h

variable {e : Event T}

/-- The fee under an ID that an event creates anew. -/
theorem Accounted.fee_eq_zero
    (hfree : CollisionFree B (es ++ [e])) {c : Creation} (hc : c ∈ e.op.creations)
    (hnot : ¬ Recorded B s c) : S.fee (c.validationID B) = 0 := by
  by_contra hne
  rcases S.exists_of_fee_ne_zero hne with ⟨v, hv, hid⟩
  rcases h.created v hv with ⟨c', hc', hid', hrec⟩
  rw [CollisionFree, creations_concat] at hfree
  have heq := hfree c' (List.mem_append_left _ hc') c (List.mem_append_right _ hc) (hid'.trans hid)
  exact hnot (heq ▸ hrec)

theorem Accounted.created_of (e : Event T)
    (himp : ∀ c, Recorded B s c → Recorded B s' c) : S.All (Created B (es ++ [e]) s') :=
  fun v hv => (h.created v hv).imp himp

omit h in
/-- A creation of the event itself is remembered after it. -/
theorem Created.of_event (e : Event T) (c : Creation) (hc : c ∈ e.op.creations)
    (hrec : Recorded B s' c) (bytes : Bytes) :
    Created B (es ++ [e]) s' (c.validationID B) bytes := by
  rw [Created, creations_concat]
  exact ⟨c, List.mem_append_right _ hc, rfl, hrec⟩

include hT hbase

theorem Accounted.advanceTime {newChainTime now : ℕ} {staking : Staking}
    (hok : (Op.advanceTime newChainTime now staking).run B base s = .ok s') :
    Explained B base es ⟨s, .advanceTime newChainTime now staking, s'⟩ := by
  rcases bind_ok hok with ⟨_, hverify, hadvance⟩
  rcases h.charged.for_live.advanceTimeTo_ok hT hbase hadvance with ⟨hadv, S', h', hall, hfee⟩
  rcases h.charged.advance hT hbase (Nat.le_succ _) hverify hadvance with ⟨hcovers, S'', h''⟩
  rw [ChainState.For.unique hT hbase h''.for_live h'] at h''
  have hle : s.timestamp ≤ newChainTime := by
    unfold verifyNewChainTime at hverify
    split at hverify
    next => cases hverify
    next hlt => exact Nat.not_lt.mp hlt
  constructor
  · exact ⟨S', h'', hall _ (h.created_of _ (fun _ hrec => hrec.advanced hadv hle))⟩
  · intro id
    apply EventLaw.of_charge hT hbase h.charged.for_live h' (.inl ⟨_, _, _, rfl⟩)
    · show s.accruedFees ≤ s'.accruedFees
      rw [hadv.accruedFees]
      exact Nat.le_add_right _ _
    · exact hadv.utxoWrites
    · exact hcovers
    · rw [hfee]
      dsimp only
      split
      next hle => exact .inr ⟨rfl, .inl (by omega)⟩
      next => exact .inl rfl

theorem Accounted.deactivateLowBalance (hok : Op.deactivateLowBalance.run B base s = .ok s') :
    Explained B base es ⟨s, .deactivateLowBalance, s'⟩ := by
  rcases h.charged.for_live.deactivateLowBalance_ok hT hbase hok with ⟨S', h', hrest, hfee, hall⟩
  have hkeep : ∀ c, Recorded B s c → Recorded B s' c := fun _ =>
    Recorded.mono (hrest.expiries ▸ fun _ => .inl) hrest.timestamp.ge (hrest.conversions ▸ fun _ => id)
  constructor
  · refine ⟨S', ⟨h', hall _ h.charged.owners, hrest.excess ▸ h.charged.excess_le, ?_⟩,
      hall _ (h.created_of _ hkeep)⟩
    intro id hid
    rw [hfee] at hid ⊢
    rw [hrest.accruedFees]
    split at hid
    next => exact absurd rfl hid
    next hge =>
      rw [if_neg hge]
      exact h.charged.covers id hid
  · intro id
    apply EventLaw.of_charge hT hbase h.charged.for_live h' (.inr rfl)
    · exact hrest.accruedFees.ge
    · exact hrest.utxoWrites
    · intro id' hid'
      have hcov := h.charged.covers id' hid'
      rw [hrest.accruedFees]
      omega
    · show _ ∨ _ ∧ (S.fee id - s'.accruedFees = 0 ∨ S.fee id - s'.accruedFees < _)
      rw [hfee, hrest.accruedFees]
      dsimp only
      split
      next hlt => exact .inr ⟨rfl, by omega⟩
      next => exact .inl rfl

/-- After a transaction, from what it does to the live set. -/
theorem Accounted.of_tx {t : Tx} {S' : LiveSet} {ws : List UTXOWrite}
    (hok : standardTx B base s t = .ok s') (h' : s'.For LiveSet.empty S') (hstep : TxStep s s' ws)
    (hall : S.All (Created B (es ++ [⟨s, .tx t, s'⟩]) s') → S'.All (Created B (es ++ [⟨s, .tx t, s'⟩]) s'))
    (hlaw : ∀ id, EventLaw B base id ⟨s, .tx t, s'⟩) : Explained B base es ⟨s, .tx t, s'⟩ := by
  rcases h.charged.standardTx hT hbase hok with ⟨S'', h''⟩
  rw [ChainState.For.unique hT hbase h''.for_live h'] at h''
  exact ⟨⟨S', h'', hall (h.created_of _ fun _ hrec => hrec.txStep hstep)⟩, hlaw⟩

theorem Accounted.convert {tx : BaseTx} {subnet chainID : ID}
    {address : Bytes} {vdrs : List ConvertSubnetToL1Validator}
    (he : e = ⟨s, .tx (.convertSubnetToL1 tx subnet chainID address vdrs), s'⟩)
    (hfree : CollisionFree B (es ++ [e]))
    (hok : convertSubnetToL1Tx B base s tx subnet chainID address vdrs = .ok s') :
    Explained B base es e := by
  subst he
  rcases convertSubnetToL1Tx_ok hT hbase h.charged.for_live hok with
    ⟨hstep, hnone, hsome, S', h', hfee, hall⟩
  have hmem : ∀ j, j < vdrs.length → Creation.convert subnet j ∈
      (Op.tx (.convertSubnetToL1 tx subnet chainID address vdrs)).creations := by
    intro j hj
    exact List.mem_map.mpr ⟨j, List.mem_range.mpr hj, rfl⟩
  refine h.of_tx hT hbase hok h' hstep (fun hold => hall _ hold ?_) ?_
  · intro j hj o bytes _
    exact Created.of_event _ (.convert subnet j) (hmem j hj) hsome bytes
  · intro id
    apply EventLaw.of_credit hT hbase h.charged.for_live h' rfl rfl hstep
    show S'.fee id = if convertDeposit B subnet id 0 vdrs = 0 then S.fee id else
      (if S.fee id = 0 then s.accruedFees else S.fee id) + convertDeposit B subnet id 0 vdrs
    have hnew : ∀ j, j < vdrs.length → S.fee (B.append subnet j) = 0 := by
      intro j hj
      apply h.fee_eq_zero hfree (hmem j hj)
      intro hrec
      have hrec' : (s.conversions.lookup subnet).isSome := hrec
      simp [hnone] at hrec'
    rw [hfee, convertFees_eq B subnet id s.accruedFees]
    · split
      next => rfl
      next hne =>
        -- a deposit was made, so one of the new validators has this ID
        have hhit : ∃ j < vdrs.length, B.append subnet j = id := by
          by_contra hno
          apply hne
          apply convertDeposit_eq_zero
          intro j _ hj heq
          exact hno ⟨j, by omega, heq⟩
        rcases hhit with ⟨j, hj, rfl⟩
        rw [if_pos (hnew j hj)]
    · intro j k _ hj _ hk heq
      rw [CollisionFree, creations_concat] at hfree
      have hjk := hfree _ (List.mem_append_right _ (hmem j (by omega))) _
        (List.mem_append_right _ (hmem k (by omega))) heq
      exact (Creation.convert.inj hjk).2
    · rintro j - hj rfl
      exact hnew j (by omega)

theorem Accounted.register {tx : BaseTx} {balance : ℕ}
    {source : WarpSource} {msg : RegisterL1Validator}
    (he : e = ⟨s, .tx (.registerL1Validator tx balance source msg), s'⟩)
    (hfree : CollisionFree B (es ++ [e]))
    (hok : registerL1ValidatorTx B base s tx balance source msg = .ok s') :
    Explained B base es e := by
  subst he
  rcases registerL1ValidatorTx_ok hT hbase h.charged.for_live hok with
    ⟨hstep, hlate, hfresh, hmem', S', h', hfee, hall⟩
  have hmem : Creation.register msg ∈
      (Op.tx (.registerL1Validator tx balance source msg)).creations := List.mem_singleton_self _
  refine h.of_tx hT hbase hok h' hstep (fun hold => hall _ hold ?_) ?_
  · intro o bytes _
    exact Created.of_event _ (.register msg) hmem (Or.inl hmem') bytes
  · intro id
    apply EventLaw.of_credit hT hbase h.charged.for_live h' rfl rfl hstep
    show S'.fee id = if (if B.validationID msg = id then balance else 0) = 0 then S.fee id else
      (if S.fee id = 0 then s.accruedFees else S.fee id) + if B.validationID msg = id then balance else 0
    rw [hfee]
    by_cases hid : B.validationID msg = id
    · -- the message was not used before, so the ID is new
      have hzero : S.fee (B.validationID msg) = 0 := by
        apply h.fee_eq_zero hfree hmem
        rintro (hrec | hrec)
        · exact hfresh hrec
        · omega
      rw [← hid, Function.update_self, if_pos rfl, hzero, if_pos rfl, initialFee]
      split <;> omega
    · rw [Function.update_of_ne (Ne.symm hid), if_neg hid, if_pos rfl]

/-- One transaction. -/
theorem Accounted.standardTx {t : Tx}
    (hfree : CollisionFree B (es ++ [⟨s, .tx t, s'⟩])) (hok : standardTx B base s t = .ok s') :
    Explained B base es ⟨s, .tx t, s'⟩ := by
  have hfor := h.charged.for_live
  cases t with
  | convertSubnetToL1 tx subnet chainID address vdrs => exact h.convert hT hbase rfl hfree hok
  | registerL1Validator tx balance source msg => exact h.register hT hbase rfl hfree hok
  | setL1ValidatorWeight tx source msg =>
    rcases setL1ValidatorWeightTx_ok hT hbase hfor hok with ⟨S', h', hall, heffect⟩
    split at heffect
    next hw =>
      rcases heffect with ⟨hfee, writes, hstep, hrefunds⟩
      refine h.of_tx hT hbase hok h' hstep (hall _) ?_
      exact EventLaw.of_settle hT hbase hfor h' rfl rfl rfl (.inr ⟨source, msg, rfl, rfl, hw⟩)
        (fun _ => rfl) hfee hstep hrefunds
    next =>
      rcases heffect with ⟨hfee, hstep⟩
      refine h.of_tx hT hbase hok h' hstep (hall _) ?_
      intro id
      apply EventLaw.of_credit hT hbase hfor h' rfl rfl hstep
      rw [hfee]
      exact (if_pos rfl).symm
  | increaseL1ValidatorBalance tx target balance =>
    rcases increaseL1ValidatorBalanceTx_ok hT hbase hfor hok with ⟨hstep, hpos, S', h', hfee, hall⟩
    refine h.of_tx hT hbase hok h' hstep (hall _) ?_
    intro id
    apply EventLaw.of_credit hT hbase hfor h' rfl rfl hstep
    show S'.fee id = if (if target = id then balance else 0) = 0 then S.fee id else
      (if S.fee id = 0 then s.accruedFees else S.fee id) + if target = id then balance else 0
    rw [hfee]
    by_cases hid : target = id
    · rw [← hid, Function.update_self, if_pos rfl, if_neg hpos]
    · rw [Function.update_of_ne (Ne.symm hid), if_neg hid, if_pos rfl]
  | disableL1Validator tx target =>
    rcases disableL1ValidatorTx_ok hT hbase hfor hok with ⟨S', h', hall, hfee, writes, hstep, hrefunds⟩
    refine h.of_tx hT hbase hok h' hstep (hall _) ?_
    exact EventLaw.of_settle hT hbase hfor h' rfl rfl rfl (.inl rfl) (fun _ => rfl) hfee hstep hrefunds
  | other staking writes =>
    have hs' := (Except.ok.inj hok).symm
    subst hs'
    have h' : ({ s with staking, utxoWrites := s.utxoWrites ++ writes } :
      ChainState T).For LiveSet.empty S := hfor
    refine h.of_tx hT hbase hok h' ⟨rfl, rfl, rfl, rfl, subset_rfl, fun _ => id⟩ id fun id => ?_
    apply EventLaw.credited rfl
    · exact fun _ => rfl
    · exact Event.refund_of_surplus rfl id
    · rw [endFee_eq hT hbase hfor, endFee_eq hT hbase h']
      exact (if_pos rfl).symm

/-- One event. -/
theorem Accounted.step {op : Op}
    (hfree : CollisionFree B (es ++ [⟨s, op, s'⟩])) (hok : op.run B base s = .ok s') :
    Explained B base es ⟨s, op, s'⟩ := by
  cases op with
  | advanceTime newChainTime now staking => exact h.advanceTime hT hbase hok
  | tx t => exact h.standardTx hT hbase hfree hok
  | deactivateLowBalance => exact h.deactivateLowBalance hT hbase hok

end Step

/-! ## Whole runs -/

section Runs

variable {T : TreeOps L1Validator} {B : Backend T} {base : L1View} {s₀ s : ChainState T}
  {es : List (Event T)}

theorem Run.accounted (hT : T.Lawful L1Validator.less) (hbase : base.Tracks LiveSet.empty)
    (hnew : s₀.l1ValidatorsDiff = L1ValidatorsDiff.new T) (hexcess : s₀.l1ValidatorExcess ≤ maxUint64)
    (h : Run B base s₀ es s) (hfree : CollisionFree B es) :
    (∃ S, Accounted B es s S) ∧ ∀ e ∈ es, ∀ id, EventLaw B base id e := by
  induction h with
  | start =>
    refine ⟨⟨LiveSet.empty, Charged.start hT hnew hexcess _, ?_⟩, ?_⟩
    · intro v hv
      exact absurd hv (Finset.notMem_empty v)
    · intro e he
      cases he
  | step op _ hok ih =>
    rcases ih hfree.left with ⟨⟨S, hS⟩, hlaw⟩
    rcases hS.step hT hbase hfree hok with ⟨hS', hlast⟩
    refine ⟨hS', ?_⟩
    intro e he
    rcases List.mem_append.mp he with he | he
    · exact hlaw e he
    · rw [List.mem_singleton.mp he]
      exact hlast

/-- The run before and the run after an event. -/
theorem Run.split {e : Event T} {es' : List (Event T)} (h : Run B base s₀ (es ++ e :: es') s) :
    Run B base s₀ es e.before ∧ Run B base e.after es' s := by
  generalize hall : es ++ e :: es' = all at h
  induction h generalizing es' with
  | start => simp at hall
  | step op h hok ih =>
    rcases List.eq_nil_or_concat es' with rfl | ⟨es', e', rfl⟩
    · obtain ⟨rfl, he⟩ := List.append_inj' hall rfl
      rw [List.singleton_inj.mp he]
      exact ⟨h, .start⟩
    · rw [List.concat_eq_append, ← List.cons_append, ← List.append_assoc] at hall
      obtain ⟨hall, he⟩ := List.append_inj' hall rfl
      rw [List.concat_eq_append, List.singleton_inj.mp he]
      exact ⟨(ih hall).1, (ih hall).2.step op hok⟩

/-- A validator that becomes active has what was deposited for it. -/
theorem EventLaw.activated {id : ID} {e : Event T} (hlaw : EventLaw B base id e)
    (hbefore : endFee base e.before id = 0) (hafter : endFee base e.after id ≠ 0) :
    endFee base e.after id = e.after.accruedFees + e.op.deposit B id := by
  cases hlaw with
  | credited haccrued _ _ hfee =>
    rw [hbefore, if_pos rfl] at hfee
    split at hfee
    next => exact absurd hfee hafter
    next => rw [hfee, haccrued]
  | charged _ _ _ _ hfee =>
    rcases hfee with hfee | ⟨hfee, -⟩
    · exact absurd (hfee.trans hbefore) hafter
    · exact absurd hfee hafter
  | settled _ _ _ _ hfee _ => exact absurd hfee hafter

/-- While a validator stays active, its fee grows by what is deposited for it. -/
theorem Run.endFee_of_active {id : ID} (hrun : Run B base s₀ es s)
    (hlaw : ∀ e ∈ es, EventLaw B base id e) (hstart : endFee base s₀ id ≠ 0)
    (hactive : ∀ e ∈ es, endFee base e.after id ≠ 0) :
    endFee base s id ≠ 0 ∧ s₀.accruedFees ≤ s.accruedFees ∧
      endFee base s id = endFee base s₀ id + deposited B id es := by
  induction hrun with
  | start => exact ⟨hstart, le_refl _, rfl⟩
  | @step es s s' op _ _ ih =>
    rcases ih (fun e he => hlaw e (List.mem_append_left _ he))
      (fun e he => hactive e (List.mem_append_left _ he)) with ⟨hprev, hle, hfeePrev⟩
    have hlast := List.mem_append_right es (List.mem_singleton_self (⟨s, op, s'⟩ : Event T))
    have hnow : endFee base s' id ≠ 0 := hactive _ hlast
    rw [deposited_concat]
    refine ⟨hnow, ?_⟩
    cases hlaw _ hlast with
    | credited haccrued _ _ hfee =>
      dsimp only at haccrued hfee ⊢
      rw [haccrued, hfee]
      split <;> omega
    | charged haccrued _ hdeposit _ hfee =>
      dsimp only at haccrued hdeposit hfee ⊢
      rcases hfee with hfee | ⟨hfee, -⟩
      · omega
      · exact absurd hfee hnow
    | settled _ _ _ _ hfee _ => exact absurd hfee hnow

/-- What an active validator has is never more than its deposits less its refunds. -/
theorem refunded_le_deposited {id : ID} (hlaw : ∀ e ∈ es, EventLaw B base id e)
    (hrun : Run B base s₀ es s) (hstart : endFee base s₀ id = 0) :
    refunded id es + (endFee base s id - s.accruedFees) ≤ deposited B id es := by
  induction hrun with
  | start => simp [refunded, deposited, hstart]
  | @step es s s' op _ _ ih =>
    have hprev := ih (fun e he => hlaw e (List.mem_append_left _ he))
    rw [deposited_concat, refunded_concat]
    show _ ≤ _ + op.deposit B id
    cases hlaw ⟨s, op, s'⟩ (List.mem_append_right _ (List.mem_singleton_self _)) with
    | credited haccrued _ hrefund hfee =>
      dsimp only at haccrued hfee
      rw [hrefund, haccrued, hfee]
      split
      next => omega
      next => split <;> omega
    | charged haccrued hsurplus hdeposit _ hfee =>
      dsimp only at haccrued hdeposit hfee
      rw [Event.refund_of_surplus hsurplus, hdeposit]
      rcases hfee with hfee | ⟨hfee, -⟩ <;> omega
    | settled haccrued _ hrefund hdeposit hfee _ =>
      dsimp only at hrefund hdeposit hfee
      omega

/-- **Balances of L1 validators are conserved.** For every run and every validator:
over a period in which it is active, what was deposited for it is the growth of the
accrued fees plus what is left at the end, which is refunded by one UTXO or is too
little for another second. Over the whole run no more is refunded than was
deposited, and only transactions that set a weight or disable a validator refund
anything. -/
theorem l1_balances_conserved (hT : T.Lawful L1Validator.less) (hbase : base.Tracks LiveSet.empty)
    (hnew : s₀.l1ValidatorsDiff = L1ValidatorsDiff.new T) (hexcess : s₀.l1ValidatorExcess ≤ maxUint64)
    (hrun : Run B base s₀ es s) (hfree : CollisionFree B es) (id : ID) :
    (∀ pre first mid final post, es = pre ++ (first :: mid ++ final :: post) →
      endFee base first.before id = 0 → (∀ e ∈ first :: mid, endFee base e.after id ≠ 0) →
      endFee base final.after id = 0 →
      first.after.accruedFees ≤ final.after.accruedFees ∧
      final.after.accruedFees ≤ endFee base final.before id ∧
      deposited B id (first :: mid) = (final.after.accruedFees - first.after.accruedFees) +
        (endFee base final.before id - final.after.accruedFees) ∧
      Ending B base id final (endFee base final.before id - final.after.accruedFees)) ∧
    refunded id es ≤ deposited B id es ∧
    ∀ e ∈ es, e.op.subject = none → e.surplus = 0 := by
  rcases hrun.accounted hT hbase hnew hexcess hfree with ⟨-, hlaw⟩
  refine ⟨?_, ?_, ?_⟩
  · intro pre first mid final post hes hbefore hactive hafter
    subst hes
    have hmid : Run B base first.after mid final.before := hrun.split.2.split.1
    have hfirst := (hlaw first (by simp) id).activated hbefore (hactive first (by simp))
    rcases hmid.endFee_of_active (fun e he => hlaw e (by simp [he]) id) (hactive first (by simp))
      (fun e he => hactive e (by simp [he])) with ⟨hend, hgrow, hfee⟩
    have hdeposited : deposited B id (first :: mid) = first.op.deposit B id + deposited B id mid := rfl
    -- only a charge or a settlement ends the activity
    cases hlaw final (by simp) id with
    | credited haccrued _ _ hfinal =>
      split at hfinal <;> omega
    | charged haccrued _ _ hcovered hfinal =>
      rcases hfinal with hsame | ⟨-, hending⟩
      · exact absurd (hsame.symm.trans hafter) hend
      · have hle := hcovered hend
        exact ⟨by omega, hle, by omega, hending⟩
    | settled haccrued _ _ _ _ hended =>
      rcases hended hend with ⟨hlt, hending⟩
      rw [haccrued]
      exact ⟨hgrow, hlt.le, by omega, hending⟩
  · have hstart : endFee base s₀ id = 0 := by
      rw [endFee_eq hT hbase (Charged.start hT hnew hexcess 0).for_live]
      exact LiveSet.empty.prior_of_not_mem (nofun) _
    have hle := refunded_le_deposited (fun e he => hlaw e he id) hrun hstart
    omega
  · intro e he hsubject
    cases hlaw e he id with
    | credited _ hsurplus _ _ => exact hsurplus hsubject
    | charged _ hsurplus _ _ _ => exact hsurplus
    | settled _ hsome _ _ _ _ => exact absurd (hsome.symm.trans hsubject) (by simp)

end Runs

/-- Convert subnet 3 with one validator that deposits 7, let three seconds pass, and
disable the validator. -/
def conversionOp : Op := .tx (.convertSubnetToL1 ⟨9, [], [], no_outs_lt⟩ 3 0 []
  [⟨7, 5, 7, [], ⟨0, []⟩, ⟨0, []⟩⟩])

def waitOp : Op := .advanceTime 103 100 plainStaking

def disableOp : Op := .tx (.disableL1Validator ⟨11, [], [], no_outs_lt⟩ 0)

theorem l1_balances_conserved_disable :
    ∃ es s, Run plainBackend L1View.empty plainStart es s ∧ CollisionFree plainBackend es ∧
      s.accruedFees = 3 ∧ refunded 0 es = 4 ∧ refunded 0 es ≤ deposited plainBackend 0 es := by
  have hes : Run plainBackend L1View.empty plainStart _ _ :=
    .step disableOp (.step waitOp (.step conversionOp .start rfl) rfl) rfl
  have hfree : ∀ s₁ s₂ s₃ : ChainState l1Tree, CollisionFree plainBackend
      [⟨plainStart, conversionOp, s₁⟩, ⟨s₁, waitOp, s₂⟩, ⟨s₂, disableOp, s₃⟩] := by
    intro s₁ s₂ s₃ c hc c' hc' _
    have hone : creations (T := l1Tree) [⟨plainStart, conversionOp, s₁⟩, ⟨s₁, waitOp, s₂⟩, ⟨s₂, disableOp, s₃⟩] =
      [.convert 3 0] := rfl
    rw [hone, List.mem_singleton] at hc hc'
    rw [hc, hc']
  exact ⟨_, _, hes, hfree _ _ _, rfl, rfl,
    (l1_balances_conserved l1Tree_lawful L1View.empty_tracks rfl (by decide) hes (hfree _ _ _) 0).2.1⟩

end Titan.PChain
