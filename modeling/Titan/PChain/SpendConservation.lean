import Titan.PChain.Spend

/-!
# Titan.PChain.SpendConservation — what an accepted spend may do

A spend is accepted just if its inputs and outputs are valid, the sums fit and, for each
asset, the free amounts that are consumed cover the free amounts that are produced and, for
each time and owner, what is produced under that lock beyond what is consumed under it.
It follows that no amount leaves a lock: outside of any set of locks, no more is produced
than is consumed.
-/

namespace Titan.PChain

open Lib
open Atomic (TransferOutput TransferInput OutputOwners TxError Fx Crypto)

variable {O : Type} [DecidableEq O]

/-! ## The loops -/

/-- The maps of amounts, with their checked additions. -/
def Flows.tally (O : Type) [DecidableEq O] : Tally (Flows O) (Flow O) SpendError where
  amount := Flows.amount
  add := Flows.add
  add_ok s flow n h := by
    rcases flow with ⟨assetID, _ | lock⟩ <;> rw [Flows.amount] at h
    · refine ⟨_, by rw [Flows.add, checkedAdd_of_le h]; rfl, ?_⟩
      rintro ⟨assetID', _ | lock'⟩ <;> simp [Flows.amount, getD_lookup_insert_add]
    · refine ⟨_, by rw [Flows.add, checkedAdd_of_le h]; rfl, ?_⟩
      rintro ⟨assetID', _ | lock'⟩ <;> simp [Flows.amount, getD_lookup_insert_add, Prod.ext_iff]
  add_error s flow n h := by
    rcases flow with ⟨assetID, _ | lock⟩ <;> rw [Flows.amount] at h <;>
      exact ⟨.overflow, by rw [Flows.add, checkedAdd, if_pos h]; rfl⟩

/-- The free amounts that are consumed, from which locked ones are covered. -/
def unlockedPurse : Purse (GoMap ID ℕ) ID SpendError where
  amount m assetID := (m.lookup assetID).getD 0
  take m assetID n :=
    if n = 0 then .ok m
    else if (m.lookup assetID).getD 0 < n then .error (.insufficientLockedFunds (n - (m.lookup assetID).getD 0))
    else .ok (m.insert assetID ((m.lookup assetID).getD 0 - n))
  take_ok m assetID n h := by
    split
    next hzero => exact ⟨m, rfl, fun a => by simp [hzero]⟩
    next =>
      refine ⟨_, if_neg (not_lt.mpr h), fun a => ?_⟩
      rw [lookup_insert_ite]
      split
      next heq =>
        subst heq
        simp
      next hne => simp [Ne.symm hne]
  take_error m assetID n h := by
    rw [if_neg (by omega), if_pos h]
    exact ⟨_, rfl⟩

theorem coverLocked_eq (consumed : Flows O) (unlocked : GoMap ID ℕ) (entry : (ID × ℕ × O) × ℕ) :
    SpendVerifier.coverLocked consumed unlocked entry =
      unlockedPurse.take unlocked entry.1.1 (entry.2 - (consumed.locked.lookup entry.1).getD 0) := by
  unfold SpendVerifier.coverLocked unlockedPurse
  dsimp only
  by_cases h : (consumed.locked.lookup entry.1).getD 0 < entry.2
  · have hincrease : entry.2 - (consumed.locked.lookup entry.1).getD 0 ≠ 0 := by omega
    rw [if_pos h, if_neg hincrease]
  · have hincrease : entry.2 - (consumed.locked.lookup entry.1).getD 0 = 0 := by omega
    rw [if_neg h, if_pos hincrease]

namespace SpendVerifier

variable (v : SpendVerifier O)

/-! ## What is consumed and produced -/

/-- The flow that a UTXO is consumed from. Its lock counts while it has not expired. -/
def utxoFlow (utxo : AssetOutput) : Except SpendError (Flow O) :=
  v.flow utxo.assetID utxo.out.unlock.2 (v.now < utxo.out.unlock.2) utxo.out.unlock.1

/-- The flow that an output is produced in. Its lock counts even if it has expired. -/
def outputFlow (output : AssetOutput) : Except SpendError (Flow O) :=
  v.flow output.assetID output.out.unlock.2 (output.out.unlock.2 ≠ 0) output.out.unlock.1

def consumedFlows (utxos : List AssetOutput) : List (Flow O × ℕ) :=
  utxos.filterMap fun utxo => (v.utxoFlow utxo).toOption.map fun flow => (flow, utxo.out.amount)

def producedFlows (outs : List AssetOutput) : List (Flow O × ℕ) :=
  outs.filterMap fun output => (v.outputFlow output).toOption.map fun flow => (flow, output.out.amount)

/-- An input of the asset of its UTXO that is correctly marked and whose transfer is valid. -/
structure ValidInput (unsignedBytes : Bytes) (utxo : AssetOutput) (input : AssetInput) (cred : List Bytes) : Prop where
  asset : utxo.assetID = input.assetID
  transfer : ∃ unmarked, v.unmark utxo.out.unlock.2 input.input = .ok unmarked ∧
    v.verifyTransfer unsignedBytes unmarked cred utxo.out.unlock.1 = .ok ()
  flow : ∃ flow, v.utxoFlow utxo = .ok flow

theorem amount_unlock (out : TransferableOut) : out.unlock.1.amount = out.amount := by
  cases out with
  | transfer out => rfl
  | lock locktime out => rfl

variable {v}

section

variable {unsignedBytes : Bytes}

omit [DecidableEq O] in
theorem verifyTransfer_amount {input : TransferableIn} {cred : List Bytes}
    {out : TransferableOut} (h : v.verifyTransfer unsignedBytes input cred out = .ok ()) :
    input.amount = out.amount := by
  cases input with
  | lock locktime input => cases h
  | transfer i =>
    cases out with
    | lock locktime out => cases h
    | transfer o =>
      unfold verifyTransfer at h
      dsimp only at h
      rcases hspend : v.fx.verifySpend v.crypto unsignedBytes i cred o with e | u
      · rw [hspend] at h
        cases h
      · rcases bind_ok hspend with ⟨_, -, hspend⟩
        rcases bind_ok hspend with ⟨_, -, hspend⟩
        rcases bind_ok hspend with ⟨_, hamount, -⟩
        exact (ensure_ok hamount).symm

omit [DecidableEq O] in
theorem consume_ok_iff {utxo : AssetOutput} {input : AssetInput} {cred : List Bytes}
    {e : Flow O × ℕ} :
    v.consume unsignedBytes (utxo, input, cred) = .ok e ↔
      v.ValidInput unsignedBytes utxo input cred ∧ v.utxoFlow utxo = .ok e.1 ∧ utxo.out.amount = e.2 := by
  unfold consume
  constructor
  · intro h
    dsimp only at h
    rcases bind_ok h with ⟨_, hasset, h⟩
    rcases bind_ok h with ⟨unmarked, hunmark, h⟩
    rcases bind_ok h with ⟨_, htransfer, h⟩
    rcases bind_ok h with ⟨flow, hflow, h⟩
    cases h
    refine ⟨⟨ensure_ok hasset, ⟨unmarked, hunmark, htransfer⟩, flow, hflow⟩, hflow, ?_⟩
    rw [verifyTransfer_amount htransfer, amount_unlock]
  · rintro ⟨⟨hasset, ⟨unmarked, hunmark, htransfer⟩, -⟩, hflow, hamount⟩
    dsimp only
    have hensure : ensure (utxo.assetID = input.assetID) SpendError.assetIDMismatch = .ok () := if_pos hasset
    rw [hensure]
    rw [hunmark]
    show (v.verifyTransfer _ _ _ _ >>= _) = _
    rw [htransfer]
    show (v.utxoFlow utxo >>= _) = _
    rw [hflow, show e = (e.1, utxo.out.amount) by rw [hamount], ← amount_unlock utxo.out,
      ← verifyTransfer_amount htransfer]
    rfl

omit [DecidableEq O] in
theorem produce_ok_iff {output : AssetOutput} {e : Flow O × ℕ} :
    v.produce output = .ok e ↔ v.outputFlow output = .ok e.1 ∧ output.out.amount = e.2 := by
  constructor
  · intro h
    rcases bind_ok h with ⟨flow, hflow, h⟩
    cases h
    exact ⟨hflow, (amount_unlock _).symm⟩
  · rintro ⟨hflow, hamount⟩
    show (v.outputFlow output >>= _) = _
    rw [hflow, show e = (e.1, output.out.amount) by rw [hamount], ← amount_unlock output.out]
    rfl

/-- The locks that occur in flows. -/
def locksOf (flows : List (Flow O × ℕ)) : Finset (ℕ × O) := (flows.filterMap fun e => e.1.2).toFinset

variable (v)

/-- The checks of the single inputs and outputs. -/
structure Valid (unsignedBytes : Bytes) (utxos : List AssetOutput) (ins : List AssetInput) (outs : List AssetOutput)
    (creds : List (List Bytes)) : Prop where
  numCreds : ins.length = creds.length
  numUTXOs : ins.length = utxos.length
  inputs : ∀ item ∈ utxos.zip (ins.zip creds), v.ValidInput unsignedBytes item.1 item.2.1 item.2.2
  outputs : ∀ output ∈ outs, ∃ flow, v.outputFlow output = .ok flow

/-- The sums are unsigned 64-bit integers. -/
structure Fits (utxos outs : List AssetOutput) (unlockedProduced : GoMap ID ℕ) : Prop where
  consumed : ∀ flow, totalAt (v.consumedFlows utxos) flow ≤ maxUint64
  unlocked : ∀ assetID,
    (unlockedProduced.lookup assetID).getD 0 + totalAt (v.producedFlows outs) (assetID, none) ≤ maxUint64
  locked : ∀ assetID lock, totalAt (v.producedFlows outs) (assetID, some lock) ≤ maxUint64

/-- What is produced under locks beyond what is consumed under the same ones. -/
def lockedIncrease (utxos outs : List AssetOutput) (assetID : ID) : ℕ :=
  ∑ lock ∈ locksOf (v.producedFlows outs),
    (totalAt (v.producedFlows outs) (assetID, some lock) - totalAt (v.consumedFlows utxos) (assetID, some lock))

/-- The free amounts that are consumed cover all that needs to be covered. -/
def Covered (utxos outs : List AssetOutput) (unlockedProduced : GoMap ID ℕ) (assetID : ID) : Prop :=
  totalAt (v.producedFlows outs) (assetID, none) + (unlockedProduced.lookup assetID).getD 0 +
    v.lockedIncrease utxos outs assetID ≤ totalAt (v.consumedFlows utxos) (assetID, none)

/-- The amount of an asset that is in none of the locks. -/
def amountOutside (locks : Finset (ℕ × O)) (flows : List (Flow O × ℕ)) (assetID : ID) : ℕ :=
  (flows.map fun e => if e.1.1 = assetID ∧ ∀ lock ∈ e.1.2, lock ∉ locks then e.2 else 0).sum

variable {v}

/-! ## The loops over the inputs and the outputs -/

variable {utxos : List AssetOutput}

theorem consumedLoop_ok_iff {ins : List AssetInput}
    {creds : List (List Bytes)} (hcreds : ins.length = creds.length)
    (hutxos : ins.length = utxos.length) {s s' : Flows O} :
    ((utxos.zip (ins.zip creds)).foldlM (fun (s : Flows O) item => do
        let e ← v.consume unsignedBytes item
        s.add e.1 e.2) s = .ok s') ↔
      (∀ item ∈ utxos.zip (ins.zip creds), v.ValidInput unsignedBytes item.1 item.2.1 item.2.2) ∧
        (v.consumedFlows utxos).foldlM (fun s e => (Flows.tally O).add s e.1 e.2) s = .ok s' := by
  refine (Flows.tally O).foldlM_items.trans ?_
  have hvalid : (∀ item ∈ utxos.zip (ins.zip creds), ∃ e, v.consume unsignedBytes item = .ok e) ↔
      ∀ item ∈ utxos.zip (ins.zip creds), v.ValidInput unsignedBytes item.1 item.2.1 item.2.2 := by
    refine forall₂_congr fun item _ => ?_
    constructor
    · rintro ⟨e, he⟩
      exact (consume_ok_iff.mp he).1
    · intro h
      rcases h.flow with ⟨flow, hflow⟩
      exact ⟨(flow, item.1.out.amount), consume_ok_iff.mpr ⟨h, hflow, rfl⟩⟩
  rw [hvalid]
  refine and_congr_right fun hinputs => ?_
  -- The flows of valid inputs are those of their UTXOs.
  have hflows : ((utxos.zip (ins.zip creds)).filterMap fun item => (v.consume unsignedBytes item).toOption) =
      v.consumedFlows utxos := by
    have hfst : (utxos.zip (ins.zip creds)).map Prod.fst = utxos :=
      List.map_fst_zip (by rw [List.length_zip]; omega)
    unfold consumedFlows
    conv_rhs => rw [← hfst, List.filterMap_map]
    refine List.filterMap_congr fun item hitem => ?_
    rcases (hinputs item hitem).flow with ⟨flow, hflow⟩
    have hconsume := consume_ok_iff (e := (flow, item.1.out.amount)).mpr ⟨hinputs item hitem, hflow, rfl⟩
    show (v.consume unsignedBytes (item.1, item.2.1, item.2.2)).toOption = (v.utxoFlow item.1).toOption.map _
    rw [hconsume, hflow]
    rfl
  rw [hflows]

variable {outs : List AssetOutput}

theorem producedLoop_ok_iff {s s' : Flows O} :
    (outs.foldlM (fun (s : Flows O) output => do
        let e ← v.produce output
        s.add e.1 e.2) s = .ok s') ↔
      (∀ output ∈ outs, ∃ flow, v.outputFlow output = .ok flow) ∧
        (v.producedFlows outs).foldlM (fun s e => (Flows.tally O).add s e.1 e.2) s = .ok s' := by
  refine (Flows.tally O).foldlM_items.trans ?_
  have hvalid : (∀ output ∈ outs, ∃ e, v.produce output = .ok e) ↔
      ∀ output ∈ outs, ∃ flow, v.outputFlow output = .ok flow := by
    refine forall₂_congr fun output _ => ?_
    constructor
    · rintro ⟨e, he⟩
      exact ⟨e.1, (produce_ok_iff.mp he).1⟩
    · rintro ⟨flow, hflow⟩
      exact ⟨(flow, output.out.amount), produce_ok_iff.mpr ⟨hflow, rfl⟩⟩
  rw [hvalid]
  refine and_congr_right fun houtputs => ?_
  have hflows : (outs.filterMap fun output => (v.produce output).toOption) = v.producedFlows outs := by
    refine List.filterMap_congr fun output houtput => ?_
    rcases houtputs output houtput with ⟨flow, hflow⟩
    rw [produce_ok_iff (e := (flow, output.out.amount)).mpr ⟨hflow, rfl⟩, hflow]
    rfl
  rw [hflows]

/-! ## The loops over the maps -/

/-- Entries of maps, as pairs. -/
theorem mem_pairs {K : Type} [DecidableEq K] {m : GoMap K ℕ} {k : K} {n : ℕ} :
    (k, n) ∈ m.entries.map (fun e => (e.1, e.2)) ↔ m.lookup k = some n := by
  rw [← Option.mem_def, AList.mem_lookup_iff, List.mem_map]
  constructor
  · rintro ⟨e, he, hkn⟩
    cases hkn
    exact he
  · intro h
    exact ⟨_, h, rfl⟩

theorem nodup_pairs {K : Type} (m : GoMap K ℕ) : (m.entries.map fun e => (e.1, e.2)).Nodup := by
  refine (List.NodupKeys.nodup m.nodupKeys).map fun e e' h => ?_
  cases e
  cases e'
  cases h
  rfl

theorem coverUnlocked_ok_iff {unlocked : GoMap ID ℕ} {entry : ID × ℕ} :
    coverUnlocked unlocked entry = .ok () ↔ entry.2 ≤ (unlocked.lookup entry.1).getD 0 := by
  unfold coverUnlocked
  dsimp only
  split
  next h => exact iff_of_false (fun h' => by cases h') (not_le.mpr h)
  next h => exact iff_of_true rfl (not_lt.mp h)

theorem unlockedLoop_ok_iff (order : Walk (ID × ℕ)) {produced unlocked : GoMap ID ℕ} :
    (order.order (produced.entries.map fun e => (e.1, e.2))).forM (coverUnlocked unlocked) = .ok () ↔
      ∀ assetID, (produced.lookup assetID).getD 0 ≤ (unlocked.lookup assetID).getD 0 := by
  rw [forM_ok_iff]
  constructor
  · intro h assetID
    rcases hentry : produced.lookup assetID with _ | n
    · exact Nat.zero_le _
    · exact coverUnlocked_ok_iff.mp (h (assetID, n) ((order.perm _).mem_iff.mpr (mem_pairs.mpr hentry)))
  · intro h entry hmem
    have hentry : produced.lookup entry.1 = some entry.2 := mem_pairs.mp ((order.perm _).mem_iff.mp hmem)
    have hle := h entry.1
    rw [hentry] at hle
    exact coverUnlocked_ok_iff.mpr hle

/-- What is produced under a lock occurs there. -/
theorem mem_locksOf {flows : List (Flow O × ℕ)} {assetID : ID} {lock : ℕ × O}
    (h : totalAt flows (assetID, some lock) ≠ 0) : lock ∈ locksOf flows := by
  by_contra hnot
  refine h (totalAt_eq_zero fun e he heq => hnot ?_)
  rw [locksOf, List.mem_toFinset, List.mem_filterMap]
  exact ⟨e, he, by rw [heq]⟩

/-- The withdrawals of the loop over the locked amounts, together. -/
theorem totalAt_increases {consumed produced : Flows O} (order : Walk ((ID × ℕ × O) × ℕ))
    (hconsumed : ∀ assetID lock, (consumed.locked.lookup (assetID, lock)).getD 0 = totalAt (v.consumedFlows utxos) (assetID, some lock))
    (hproduced : ∀ assetID lock, (produced.locked.lookup (assetID, lock)).getD 0 = totalAt (v.producedFlows outs) (assetID, some lock))
    (assetID : ID) :
    totalAt ((order.order (produced.locked.entries.map fun e => (e.1, e.2))).map fun e =>
        (e.1.1, e.2 - (consumed.locked.lookup e.1).getD 0)) assetID = v.lockedIncrease utxos outs assetID := by
  rw [totalAt_perm ((order.perm _).map _), totalAt_map_of_nodup (nodup_pairs _), lockedIncrease]
  have hentry : ∀ {e : (ID × ℕ × O) × ℕ}, e ∈ produced.locked.entries.map (fun e => (e.1, e.2)) →
      totalAt (v.producedFlows outs) (e.1.1, some e.1.2) = e.2 := by
    intro e he
    rw [← hproduced, show produced.locked.lookup (e.1.1, e.1.2) = some e.2 from mem_pairs.mp he]
    rfl
  refine Finset.sum_bij_ne_zero (fun e _ _ => e.1.2) ?_ ?_ ?_ ?_
  · intro e he hne
    rw [Finset.mem_filter, List.mem_toFinset] at he
    have hproduced := hentry he.1
    apply mem_locksOf
    rw [hproduced]
    omega
  · intro e he _ e' he' _ hlock
    rw [Finset.mem_filter, List.mem_toFinset] at he he'
    have hkey : e.1 = e'.1 := Prod.ext (he.2.trans he'.2.symm) hlock
    exact Prod.ext hkey (by rw [← hentry he.1, ← hentry he'.1, hkey])
  · intro lock _ hne
    have hlookup := hproduced assetID lock
    rcases hentry' : produced.locked.lookup (assetID, lock) with _ | n
    · rw [hentry'] at hlookup
      simp only [Option.getD_none] at hlookup
      omega
    · rw [hentry', Option.getD_some] at hlookup
      refine ⟨((assetID, lock), n), ?_, ?_, rfl⟩
      · rw [Finset.mem_filter, List.mem_toFinset]
        exact ⟨mem_pairs.mpr hentry', rfl⟩
      · rw [hconsumed, hlookup]
        exact hne
  · intro e he _
    rw [Finset.mem_filter, List.mem_toFinset] at he
    rcases he with ⟨he, rfl⟩
    rw [hentry he, ← hconsumed]

/-! ## Accepted spends -/

variable {unlockedProduced : GoMap ID ℕ}

/-- The last two loops succeed just if each asset is covered. -/
theorem cover_ok_iff {consumed produced : Flows O} (walks : Walks O)
    (hconsumed : ∀ flow, consumed.amount flow = totalAt (v.consumedFlows utxos) flow)
    (hproduced : ∀ flow, produced.amount flow = Flows.amount ⟨unlockedProduced, ∅⟩ flow + totalAt (v.producedFlows outs) flow) :
    ((walks.locked.order (produced.locked.entries.map fun e => (e.1, e.2))).foldlM (coverLocked consumed)
        consumed.unlocked >>= fun unlocked =>
      (walks.unlocked.order (produced.unlocked.entries.map fun e => (e.1, e.2))).forM (coverUnlocked unlocked)) =
        .ok () ↔ ∀ assetID, v.Covered utxos outs unlockedProduced assetID := by
  have hincrease := totalAt_increases walks.locked (fun assetID lock => hconsumed (assetID, some lock))
    (fun assetID lock => by simpa [Flows.amount] using hproduced (assetID, some lock))
  have hloop : (walks.locked.order (produced.locked.entries.map fun e => (e.1, e.2))).foldlM (coverLocked consumed)
        consumed.unlocked =
      ((walks.locked.order (produced.locked.entries.map fun e => (e.1, e.2))).map fun e =>
        (e.1.1, e.2 - (consumed.locked.lookup e.1).getD 0)).foldlM
          (fun s e => unlockedPurse.take s e.1 e.2) consumed.unlocked := by
    rw [List.foldlM_map]
    congr 1
    funext unlocked entry
    exact coverLocked_eq consumed unlocked entry
  rw [hloop]
  have hc : ∀ assetID, unlockedPurse.amount consumed.unlocked assetID =
      totalAt (v.consumedFlows utxos) (assetID, none) := fun assetID => hconsumed (assetID, none)
  have hp : ∀ assetID, (produced.unlocked.lookup assetID).getD 0 =
      (unlockedProduced.lookup assetID).getD 0 + totalAt (v.producedFlows outs) (assetID, none) :=
    fun assetID => hproduced (assetID, none)
  unfold Covered
  constructor
  · intro h assetID
    rcases bind_ok h with ⟨unlocked, htake, hlast⟩
    rcases unlockedPurse.amount_of_foldlM htake assetID with ⟨henough, hleft⟩
    have hfree : _ ≤ unlockedPurse.amount unlocked assetID := (unlockedLoop_ok_iff walks.unlocked).mp hlast assetID
    rw [hincrease, hc] at henough hleft
    rw [hp] at hfree
    omega
  · intro h
    have henough := fun assetID => (hincrease assetID).trans_le
      (show _ ≤ unlockedPurse.amount consumed.unlocked assetID by have := h assetID; rw [hc]; omega)
    rcases unlockedPurse.exists_foldlM henough with ⟨unlocked, htake⟩
    rw [htake]
    refine (unlockedLoop_ok_iff walks.unlocked).mpr fun assetID => ?_
    have hleft := (unlockedPurse.amount_of_foldlM htake assetID).2
    have := h assetID
    rw [hincrease, hc] at hleft
    show _ ≤ unlockedPurse.amount unlocked assetID
    rw [hp]
    omega

theorem Fits.produced (h : v.Fits utxos outs unlockedProduced) (flow : Flow O) :
    Flows.amount ⟨unlockedProduced, ∅⟩ flow + totalAt (v.producedFlows outs) flow ≤ maxUint64 := by
  rcases flow with ⟨assetID, _ | lock⟩
  · exact h.unlocked assetID
  · simpa [Flows.amount] using h.locked assetID lock

/-- A spend is accepted just if its parts are valid, the sums fit and every asset is covered. -/
theorem verifySpendUTXOs_ok_iff (walks : Walks O) {ins : List AssetInput}
    {creds : List (List Bytes)}
    (hdeclared : ∀ assetID, (unlockedProduced.lookup assetID).getD 0 ≤ maxUint64) :
    v.verifySpendUTXOs walks unsignedBytes utxos ins outs creds unlockedProduced = .ok () ↔
      v.Valid unsignedBytes utxos ins outs creds ∧ v.Fits utxos outs unlockedProduced ∧
        ∀ assetID, v.Covered utxos outs unlockedProduced assetID := by
  have hempty : ∀ flow, (Flows.tally O).amount ⟨∅, ∅⟩ flow = 0 := by
    rintro ⟨assetID, _ | lock⟩ <;> simp [Flows.tally, Flows.amount]
  have hamount : ∀ {consumed}, (v.consumedFlows utxos).foldlM (fun s e => (Flows.tally O).add s e.1 e.2) ⟨∅, ∅⟩ =
      .ok consumed → ∀ flow, consumed.amount flow = totalAt (v.consumedFlows utxos) flow := by
    intro consumed hconsumed flow
    rw [← Nat.zero_add (totalAt _ _), ← hempty flow]
    exact (Flows.tally O).amount_of_foldlM hconsumed flow
  unfold verifySpendUTXOs
  constructor
  · intro h
    rcases bind_ok h with ⟨_, hcreds, h⟩
    rcases bind_ok h with ⟨_, hutxos, h⟩
    rcases bind_ok h with ⟨consumed, hconsumed, h⟩
    rcases bind_ok h with ⟨produced, hproduced, h⟩
    rcases (consumedLoop_ok_iff (ensure_ok hcreds) (ensure_ok hutxos)).mp hconsumed with ⟨hinputs, hconsumed⟩
    rcases producedLoop_ok_iff.mp hproduced with ⟨houtputs, hproduced⟩
    have hproducedAmount := (Flows.tally O).amount_of_foldlM hproduced
    refine ⟨⟨ensure_ok hcreds, ensure_ok hutxos, hinputs, houtputs⟩, ?_,
      (cover_ok_iff walks (hamount hconsumed) hproducedAmount).mp h⟩
    have hle : ∀ flow, (Flows.tally O).amount ⟨unlockedProduced, ∅⟩ flow ≤ maxUint64 := by
      rintro ⟨assetID, _ | lock⟩
      · exact hdeclared assetID
      · simp [Flows.tally, Flows.amount]
    have hproducedFits := (Flows.tally O).foldlM_le hle hproduced
    constructor
    · intro flow
      rw [← hamount hconsumed flow]
      exact (Flows.tally O).foldlM_le (fun flow => by rw [hempty]; exact Nat.zero_le _) hconsumed flow
    · intro assetID
      have hle := hproducedFits (assetID, none)
      rw [hproducedAmount] at hle
      exact hle
    · intro assetID lock
      have hle := hproducedFits (assetID, some lock)
      rw [hproducedAmount] at hle
      exact le_trans (Nat.le_add_left _ _) hle
  · rintro ⟨hvalid, hfits, hcovered⟩
    rcases (Flows.tally O).exists_foldlM (s := ⟨∅, ∅⟩) (l := v.consumedFlows utxos)
      (fun flow => by rw [hempty, Nat.zero_add]; exact hfits.consumed flow) with ⟨consumed, hconsumed⟩
    rcases (Flows.tally O).exists_foldlM (s := ⟨unlockedProduced, ∅⟩) (l := v.producedFlows outs) hfits.produced with
      ⟨produced, hproduced⟩
    have hcreds : ensure (ins.length = creds.length) (SpendError.wrongNumberCredentials ins.length creds.length) =
        .ok () := if_pos hvalid.numCreds
    have hutxos : ensure (ins.length = utxos.length) (SpendError.wrongNumberUTXOs ins.length utxos.length) =
        .ok () := if_pos hvalid.numUTXOs
    rw [hcreds, ok_bind, hutxos, ok_bind,
      (consumedLoop_ok_iff hvalid.numCreds hvalid.numUTXOs).mpr ⟨hvalid.inputs, hconsumed⟩, ok_bind,
      producedLoop_ok_iff.mpr ⟨hvalid.outputs, hproduced⟩, ok_bind]
    exact (cover_ok_iff walks (hamount hconsumed) ((Flows.tally O).amount_of_foldlM hproduced)).mpr hcovered

end

/-! ## Nothing leaves a lock -/

/-- Outside of some locks there are the free amounts and those under the other locks. -/
theorem amountOutside_eq {flows : List (Flow O × ℕ)} {known : Finset (ℕ × O)} (hknown : locksOf flows ⊆ known)
    (locks : Finset (ℕ × O)) (assetID : ID) :
    amountOutside locks flows assetID =
      totalAt flows (assetID, none) + ∑ lock ∈ known \ locks, totalAt flows (assetID, some lock) := by
  induction flows with
  | nil => simp [amountOutside]
  | cons e flows ih =>
    rcases e with ⟨⟨a, locked⟩, n⟩
    have hrest : locksOf flows ⊆ known := by
      intro lock hlock
      apply hknown
      rw [locksOf, List.mem_toFinset, List.mem_filterMap] at hlock ⊢
      rcases hlock with ⟨e, he, hlock⟩
      exact ⟨e, List.mem_cons_of_mem _ he, hlock⟩
    have hcons : amountOutside locks (((a, locked), n) :: flows) assetID =
        (if a = assetID ∧ ∀ lock ∈ locked, lock ∉ locks then n else 0) + amountOutside locks flows assetID := rfl
    simp only [hcons, ih hrest, totalAt_cons, Finset.sum_add_distrib]
    cases locked with
    | none => simp [Nat.add_assoc]
    | some lock =>
      have hmem : lock ∈ known := by
        apply hknown
        rw [locksOf, List.mem_toFinset, List.mem_filterMap]
        exact ⟨_, List.mem_cons_self, rfl⟩
      have hone : ∑ other ∈ known \ locks, (if (a, some lock) = (assetID, some other) then n else 0) =
          if a = assetID ∧ lock ∉ locks then n else 0 := by
        by_cases ha : a = assetID
        · simp [ha, hmem]
        · simp [ha]
      rw [hone]
      simp
      omega

/-- The free amounts cover the increases under locks, so that no amount leaves a set of locks. -/
theorem Covered.amountOutside_le {assetID : ID} (h : v.Covered utxos outs unlockedProduced assetID)
    (locks : Finset (ℕ × O)) :
    (unlockedProduced.lookup assetID).getD 0 + amountOutside locks (v.producedFlows outs) assetID ≤
      amountOutside locks (v.consumedFlows utxos) assetID := by
  let produced := locksOf (v.producedFlows outs)
  let known := produced ∪ locksOf (v.consumedFlows utxos)
  let increase := fun lock : ℕ × O =>
    totalAt (v.producedFlows outs) (assetID, some lock) - totalAt (v.consumedFlows utxos) (assetID, some lock)
  rw [amountOutside_eq (show locksOf (v.producedFlows outs) ⊆ known from Finset.subset_union_left),
    amountOutside_eq (show locksOf (v.consumedFlows utxos) ⊆ known from Finset.subset_union_right)]
  -- Under each lock, what is produced is at most what is consumed and the increase.
  have hsplit : ∑ lock ∈ known \ locks, totalAt (v.producedFlows outs) (assetID, some lock) ≤
      ∑ lock ∈ known \ locks, totalAt (v.consumedFlows utxos) (assetID, some lock) +
        ∑ lock ∈ known \ locks, increase lock := by
    rw [← Finset.sum_add_distrib]
    refine Finset.sum_le_sum fun lock _ => ?_
    show _ ≤ _ + (_ - _)
    omega
  have hincrease : ∑ lock ∈ known \ locks, increase lock ≤ v.lockedIncrease utxos outs assetID :=
    calc ∑ lock ∈ known \ locks, increase lock
        ≤ ∑ lock ∈ known, increase lock := Finset.sum_le_sum_of_subset Finset.sdiff_subset
      _ = ∑ lock ∈ produced, increase lock := by
          refine (Finset.sum_subset Finset.subset_union_left fun lock _ hnot => ?_).symm
          have hzero : totalAt (v.producedFlows outs) (assetID, some lock) = 0 := by
            by_contra hne
            exact hnot (mem_locksOf hne)
          show _ - _ = 0
          rw [hzero, Nat.zero_sub]
  unfold Covered at h
  omega

/-- Spends conserve value and keep locks. The sums are over the flows that the UTXOs and the
outputs stand for, and an accepted spend moves nothing out of any set of locks: with no lock
in it, nothing is created. -/
theorem verifySpendUTXOs_conserves (v : SpendVerifier O) (walks : Walks O) (unsignedBytes : Bytes)
    (utxos : List AssetOutput) (ins : List AssetInput) (outs : List AssetOutput) (creds : List (List Bytes))
    (unlockedProduced : GoMap ID ℕ) (hdeclared : ∀ assetID, (unlockedProduced.lookup assetID).getD 0 ≤ maxUint64) :
    (v.verifySpendUTXOs walks unsignedBytes utxos ins outs creds unlockedProduced = .ok () ↔
      v.Valid unsignedBytes utxos ins outs creds ∧ v.Fits utxos outs unlockedProduced ∧
        ∀ assetID, v.Covered utxos outs unlockedProduced assetID) ∧
    (v.verifySpendUTXOs walks unsignedBytes utxos ins outs creds unlockedProduced = .ok () →
      ∀ assetID locks,
        (unlockedProduced.lookup assetID).getD 0 + amountOutside locks (v.producedFlows outs) assetID ≤
          amountOutside locks (v.consumedFlows utxos) assetID) := by
  refine ⟨verifySpendUTXOs_ok_iff walks hdeclared, fun h assetID locks => ?_⟩
  rcases (verifySpendUTXOs_ok_iff walks hdeclared).mp h with ⟨-, -, hcovered⟩
  exact (hcovered assetID).amountOutside_le locks

/-- An owner. -/
def spender : OutputOwners := ⟨0, 1, [1]⟩

/-- A verifier at time 10 for which every signature is of the owner. -/
def spendVerifier : SpendVerifier OutputOwners where
  fx := ⟨10, true⟩
  crypto := ⟨id, id, fun _ _ => .ok ⟨1, 2⟩⟩
  now := 10
  ownerID := .ok

/-- Of 5 that are locked and 3 that are free, 1 is added to those that are locked, 1 is sent and 1 is
declared. -/
theorem verifySpendUTXOs_adds_to_lock :
    spendVerifier.verifySpendUTXOs ⟨Walk.stored _, Walk.stored _⟩ []
        [⟨7, .lock 50 (.transfer ⟨5, spender⟩)⟩, ⟨7, .transfer ⟨3, spender⟩⟩]
        [⟨7, .lock 50 (.transfer ⟨5, [0]⟩)⟩, ⟨7, .transfer ⟨3, [0]⟩⟩]
        [⟨7, .lock 50 (.transfer ⟨6, spender⟩)⟩, ⟨7, .transfer ⟨1, spender⟩⟩] [[[]], [[]]]
        (AList.insert 7 1 ∅) = .ok () ∧
      ∀ locks, 1 + amountOutside locks (spendVerifier.producedFlows
          [⟨7, .lock 50 (.transfer ⟨6, spender⟩)⟩, ⟨7, .transfer ⟨1, spender⟩⟩]) 7 ≤
        amountOutside locks (spendVerifier.consumedFlows
          [⟨7, .lock 50 (.transfer ⟨5, spender⟩)⟩, ⟨7, .transfer ⟨3, spender⟩⟩]) 7 := by
  have hdeclared : ∀ assetID, ((AList.insert 7 1 ∅ : GoMap ID ℕ).lookup assetID).getD 0 ≤ maxUint64 := by
    intro assetID
    rw [lookup_insert_ite]
    split <;> simp [maxUint64]
  refine (and_iff_left_of_imp fun hok => ?_).mpr rfl
  exact (verifySpendUTXOs_conserves spendVerifier _ [] _ _ _ _ _ hdeclared).2 hok 7

end SpendVerifier

end Titan.PChain
