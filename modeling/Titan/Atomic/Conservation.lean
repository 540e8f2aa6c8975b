import Titan.Atomic.StateTransfer
import Titan.Lib.SortedMap

/-!
# Titan.Atomic.Conservation — atomic transactions conserve value

A transaction that passes `SemanticVerify` and whose state transfer succeeds moves
exactly what it says: the native balances change by what it takes from shared
memory, minus what it exports and what it burns, and no other asset is created.

The state tells assets apart by where it keeps them (`Holding`): the native asset
in the balances, every other one in the slot of its coin ID. Each input or output
changes one holding of one account, and the totals follow by summing up.
-/

namespace Titan.Atomic

open Lib
open PChain (ID Bytes GoMap)
open CChain (Address Uint256 Uint64)

/-! ## Amounts -/

/-- The amounts of the assets in a class. -/
def amountOf (p : ID → Prop) [DecidablePred p] (l : List (ID × ℕ)) : ℕ :=
  ((l.filter (fun x => p x.1)).map (·.2)).sum

section Amounts

variable {p : ID → Prop} [DecidablePred p]

@[simp] theorem amountOf_nil : amountOf p [] = 0 := rfl

theorem amountOf_cons (x : ID × ℕ) (l : List (ID × ℕ)) :
    amountOf p (x :: l) = (if p x.1 then x.2 else 0) + amountOf p l := by
  unfold amountOf
  by_cases h : p x.1 <;> simp [h]

theorem amountOf_append (l l' : List (ID × ℕ)) : amountOf p (l ++ l') = amountOf p l + amountOf p l' := by
  simp [amountOf]

/-- A class is the sum of its assets. -/
theorem amountOf_eq_sum (l : List (ID × ℕ)) {S : Finset ID} (hS : ∀ x ∈ l, x.1 ∈ S) :
    amountOf p l = ∑ a ∈ S with p a, amountOf (· = a) l := by
  induction l with
  | nil => simp
  | cons x l ih =>
    have hx := hS x List.mem_cons_self
    simp only [amountOf_cons, Finset.sum_add_distrib, Finset.sum_ite_eq, Finset.mem_filter, hx,
      true_and]
    rw [ih (fun y hy => hS y (List.mem_cons_of_mem _ hy))]

/-- What is bounded asset by asset is bounded in every class. -/
theorem amountOf_le_of_forall {l l' : List (ID × ℕ)}
    (h : ∀ a, amountOf (· = a) l ≤ amountOf (· = a) l') : amountOf p l ≤ amountOf p l' := by
  let S : Finset ID := (l.map (·.1)).toFinset ∪ (l'.map (·.1)).toFinset
  have hl : ∀ x ∈ l, x.1 ∈ S := by
    intro x hx
    exact Finset.mem_union_left _ (List.mem_toFinset.mpr (List.mem_map_of_mem hx))
  have hl' : ∀ x ∈ l', x.1 ∈ S := by
    intro x hx
    exact Finset.mem_union_right _ (List.mem_toFinset.mpr (List.mem_map_of_mem hx))
  rw [amountOf_eq_sum l hl, amountOf_eq_sum l' hl']
  exact Finset.sum_le_sum (fun a _ => h a)

end Amounts

/-- The checked sum is the sum, if that fits. -/
theorem sumAsset_eq (assetID : ID) (l : List (ID × ℕ)) (h : amountOf (· = assetID) l ≤ maxUint64) :
    sumAsset assetID l = .ok (amountOf (· = assetID) l) := by
  unfold sumAsset
  induction l using List.reverseRecOn with
  | nil => rfl
  | append_singleton l x ih =>
    rw [amountOf_append, amountOf_cons, amountOf_nil, Nat.add_zero] at h ⊢
    rw [List.foldlM_append, ih (by omega), ok_bind, List.foldlM_cons]
    split
    next hx =>
      rw [if_pos hx] at h
      rw [mathAdd, checkedAdd_of_le h]
      rfl
    next => rfl

/-! ## The flow checker -/

namespace FlowChecker

/-- Unless there was an error, the map holds the sums of the amounts. -/
def Sums (value : GoMap ID ℕ) (l : List (ID × ℕ)) : Prop :=
  ∀ a, (value.lookup a).getD 0 = amountOf (· = a) l ∧ amountOf (· = a) l ≤ maxUint64

/-- The flow checker has seen these amounts. -/
def Tracks (fc : FlowChecker) (produced consumed : List (ID × ℕ)) : Prop :=
  fc.err = none → Sums fc.produced produced ∧ Sums fc.consumed consumed

theorem sums_add {value : GoMap ID ℕ} {err : Option TxError} {l : List (ID × ℕ)} {assetID : ID}
    {amount : ℕ} (herr : (add value err assetID amount).2 = none) :
    err = none ∧ (Sums value l → Sums (add value err assetID amount).1 (l ++ [(assetID, amount)])) := by
  unfold add at herr ⊢
  rcases checkedAdd_cases TxError.overflow ((value.lookup assetID).getD 0) amount with
    ⟨-, he⟩ | ⟨hle, he⟩
  · rw [mathAdd, he] at herr
    cases err <;> cases herr
  · rw [mathAdd, he] at herr ⊢
    refine ⟨herr, fun hsums a => ?_⟩
    rw [amountOf_append, amountOf_cons, amountOf_nil, getD_lookup_insert_add, (hsums a).1]
    refine ⟨rfl, ?_⟩
    split
    next ha =>
      subst ha
      rw [← (hsums assetID).1]
      exact hle
    next => exact (hsums a).2

variable {fc : FlowChecker} {produced consumed : List (ID × ℕ)}

variable (h : fc.Tracks produced consumed)
include h

theorem Tracks.produce (assetID : ID) (amount : ℕ) :
    (fc.produce assetID amount).Tracks (produced ++ [(assetID, amount)]) consumed := by
  intro herr
  rcases sums_add (l := produced) herr with ⟨hbefore, hsums⟩
  exact ⟨hsums (h hbefore).1, (h hbefore).2⟩

theorem Tracks.consume (assetID : ID) (amount : ℕ) :
    (fc.consume assetID amount).Tracks produced (consumed ++ [(assetID, amount)]) := by
  intro herr
  rcases sums_add (l := consumed) herr with ⟨hbefore, hsums⟩
  exact ⟨(h hbefore).1, hsums (h hbefore).2⟩

theorem Tracks.produces (l : List (ID × ℕ)) :
    (l.foldl (fun fc a => fc.produce a.1 a.2) fc).Tracks (produced ++ l) consumed := by
  induction l generalizing fc produced with
  | nil => rwa [List.append_nil]
  | cons x l ih =>
    rw [List.append_cons]
    exact ih (h.produce x.1 x.2)

theorem Tracks.consumes (l : List (ID × ℕ)) :
    (l.foldl (fun fc a => fc.consume a.1 a.2) fc).Tracks produced (consumed ++ l) := by
  induction l generalizing fc consumed with
  | nil => rwa [List.append_nil]
  | cons x l ih =>
    rw [List.append_cons]
    exact ih (h.consume x.1 x.2)

theorem Tracks.of_verify (hok : fc.verify = .ok ()) (a : ID) :
    amountOf (· = a) produced ≤ amountOf (· = a) consumed ∧
      amountOf (· = a) consumed ≤ maxUint64 := by
  unfold verify at hok
  split at hok
  next => cases hok
  next herr =>
    rcases h herr with ⟨hp, hc⟩
    split at hok
    next hle =>
      refine ⟨?_, (hc a).2⟩
      rw [← (hp a).1, ← (hc a).1]
      by_cases ha : a ∈ fc.produced.keys
      · exact of_decide_eq_true (List.all_eq_true.mp hle a ha)
      · rw [AList.lookup_eq_none.mpr (by rwa [← AList.mem_keys] at ha)]
        exact Nat.zero_le _
    next => cases hok

end FlowChecker

variable {tx : Tx} {avaxAssetID : ID}

/-- What the flow check establishes. -/
theorem Tx.verifyFlow_ok {fee : ℕ} (h : tx.verifyFlow avaxAssetID (some fee) = .ok ()) (a : ID) :
    (if avaxAssetID = a then fee else 0) + amountOf (· = a) tx.produces ≤
        amountOf (· = a) tx.consumes ∧
      amountOf (· = a) tx.consumes ≤ maxUint64 := by
  have hnew : FlowChecker.new.Tracks [] [] := fun _ =>
    ⟨fun _ => ⟨rfl, Nat.zero_le _⟩, fun _ => ⟨rfl, Nat.zero_le _⟩⟩
  have htracks := ((hnew.produce avaxAssetID fee).produces tx.produces).consumes tx.consumes
  have hle := htracks.of_verify h a
  simp only [amountOf_append, amountOf_cons, amountOf_nil, Nat.zero_add, Nat.add_zero] at hle
  omega

/-! ## Holdings -/

/-- Where the state keeps an asset: the native one in the balances, another one in the
slot of its coin ID. -/
abbrev Holding := Option ID

def holdingOf (avaxAssetID assetID : ID) : Holding :=
  if assetID = avaxAssetID then none else some (normalizeCoinID assetID)

/-- What an amount of 1 is in the state. -/
def Holding.rate : Holding → ℕ
  | none => x2cRate
  | some _ => 1

def StateDB.held (s : StateDB) : Holding → Address → Uint256
  | none => s.balance
  | some coinID => s.multiCoin coinID

theorem holdingOf_eq_none {assetID : ID} :
    holdingOf avaxAssetID assetID = none ↔ assetID = avaxAssetID := by
  unfold holdingOf
  split <;> simp [*]

theorem toNat_toWei {amount : ℕ} (h : x2cRate * amount < 2 ^ 256) :
    (toWei amount).toNat = x2cRate * amount := by
  unfold toWei
  rw [BitVec.toNat_mul, BitVec.toNat_ofNat, BitVec.toNat_ofNat, ← Nat.mul_mod, Nat.mul_comm,
    Nat.mod_eq_of_lt h]

/-- Writing a slot. -/
theorem StateDB.held_setMultiCoin (s : StateDB) (addr : Address) (coinID : ID) (v : Uint256)
    (h : Holding) (a : Address) :
    (s.setMultiCoin addr coinID v).held h a =
      if some (normalizeCoinID coinID) = h ∧ addr = a then v else s.held h a := by
  cases h with
  | none => simp [StateDB.setMultiCoin, StateDB.held]
  | some c =>
    simp only [StateDB.setMultiCoin, StateDB.held, Option.some.injEq]
    by_cases hc : normalizeCoinID coinID = c
    · subst hc
      by_cases ha : addr = a
      · subst ha
        simp
      · simp [Function.update_of_ne (Ne.symm ha), ha]
    · rw [Function.update_of_ne (Ne.symm hc), if_neg (fun h => hc h.1)]

/-- Writing the balance of an account. -/
theorem StateDB.held_balance (s : StateDB) (addr : Address) (v : Uint256) (h : Holding) (a : Address) :
    ({ s with balance := Function.update s.balance addr v } : StateDB).held h a =
      if none = h ∧ addr = a then v else s.held h a := by
  cases h with
  | none =>
    by_cases ha : addr = a
    · subst ha
      simp [StateDB.held]
    · simp [StateDB.held, Function.update_of_ne (Ne.symm ha), ha]
  | some c => simp [StateDB.held]

/-- One output of an import changes one holding of one account. -/
theorem held_transferOutput (avaxAssetID : ID) (s : StateDB) (out : EVMOutput)
    (hfit : (s.held (holdingOf avaxAssetID out.assetID) out.address).toNat +
      (holdingOf avaxAssetID out.assetID).rate * out.amount < 2 ^ 256) (h : Holding) (a : Address) :
    ((transferOutput avaxAssetID s out).held h a).toNat = (s.held h a).toNat +
      if holdingOf avaxAssetID out.assetID = h ∧ out.address = a then h.rate * out.amount else 0 := by
  unfold transferOutput
  split
  next hasset =>
    rw [holdingOf_eq_none.mpr hasset] at hfit ⊢
    unfold StateDB.addBalance credit
    rw [StateDB.held_balance]
    split
    next heq =>
      rcases heq with ⟨rfl, rfl⟩
      have hwei : (toWei out.amount).toNat = x2cRate * out.amount :=
        toNat_toWei (by simp only [Holding.rate] at hfit; omega)
      show (s.balance out.address + toWei out.amount).toNat =
        (s.balance out.address).toNat + x2cRate * out.amount
      rw [BitVec.toNat_add, hwei, Nat.mod_eq_of_lt (by exact hfit)]
    next => rfl
  next hasset =>
    have hholding : holdingOf avaxAssetID out.assetID = some (normalizeCoinID out.assetID) := if_neg hasset
    rw [hholding] at hfit ⊢
    unfold StateDB.addBalanceMultiCoin
    split
    next hzero =>
      rw [hzero, Nat.mul_zero, ite_self, StateDB.addBalance, credit, StateDB.held_balance]
      split
      next heq =>
        rcases heq with ⟨rfl, rfl⟩
        simp [StateDB.held]
      next => rfl
    next =>
      rw [StateDB.held_setMultiCoin]
      split
      next heq =>
        rcases heq with ⟨rfl, rfl⟩
        show (s.multiCoin (normalizeCoinID out.assetID) out.address + BitVec.ofNat 256 out.amount).toNat = _
        simp only [Holding.rate, StateDB.held, Nat.one_mul] at hfit ⊢
        rw [BitVec.toNat_add, BitVec.toNat_ofNat, Nat.add_mod_mod, Nat.mod_eq_of_lt hfit]
      next => rfl

variable {s s' : StateDB}

/-- One input of an export changes one holding of one account, and no nonce. -/
theorem held_transferInput {i : EVMInput} (hamount : i.amount ≤ maxUint64)
    (hok : transferInput avaxAssetID s i = .ok s') :
    s'.nonce = s.nonce ∧ ∀ h a, (s'.held h a).toNat +
      (if holdingOf avaxAssetID i.assetID = h ∧ i.address = a then h.rate * i.amount else 0) =
        (s.held h a).toNat := by
  unfold transferInput at hok
  split at hok
  next hasset =>
    rcases bind_ok hok with ⟨_, hfunds, hret⟩
    cases hret
    have hfunds := ensure_ok hfunds
    have hwei : (toWei i.amount).toNat = x2cRate * i.amount :=
      toNat_toWei (by simp only [maxUint64, x2cRate] at *; omega)
    refine ⟨rfl, fun h a => ?_⟩
    rw [holdingOf_eq_none.mpr hasset]
    unfold StateDB.subBalance debit
    rw [StateDB.held_balance]
    split
    next heq =>
      rcases heq with ⟨rfl, rfl⟩
      show (s.balance i.address - toWei i.amount).toNat + x2cRate * i.amount = (s.balance i.address).toNat
      rw [StateDB.getBalance] at hfunds
      rw [BitVec.toNat_sub_of_le (by rw [BitVec.le_def]; omega), hwei]
      omega
    next => rfl
  next hasset =>
    rcases bind_ok hok with ⟨_, hfunds, hret⟩
    cases hret
    have hfunds := ensure_ok hfunds
    have hholding : holdingOf avaxAssetID i.assetID = some (normalizeCoinID i.assetID) := if_neg hasset
    rw [hholding]
    unfold StateDB.subBalanceMultiCoin
    split
    next hzero =>
      refine ⟨rfl, fun h a => ?_⟩
      rw [hzero, Nat.mul_zero, ite_self, Nat.add_zero]
    next =>
      refine ⟨rfl, fun h a => ?_⟩
      rw [StateDB.held_setMultiCoin]
      split
      next heq =>
        rcases heq with ⟨rfl, rfl⟩
        rw [StateDB.getBalanceMultiCoin] at hfunds ⊢
        show _ + 1 * i.amount = (s.multiCoin (normalizeCoinID i.assetID) i.address).toNat
        rw [BitVec.toNat_ofNat, Nat.mod_eq_of_lt (by omega)]
        omega
      next => rfl

/-! ## Accounts -/

/-- The accounts a transaction credits, with the assets and amounts. -/
def Tx.credits (tx : Tx) : List (Address × ID × ℕ) :=
  match tx.unsigned with
  | .importTx utx => utx.outs.map (fun out => (out.address, out.assetID, out.amount))
  | .exportTx _ => []

/-- The accounts a transaction debits, with the assets and amounts. -/
def Tx.debits (tx : Tx) : List (Address × ID × ℕ) :=
  match tx.unsigned with
  | .importTx _ => []
  | .exportTx utx => utx.ins.map (fun i => (i.address, i.assetID, i.amount))

/-- What moves in one holding of one account. -/
def amountAt (avaxAssetID : ID) (h : Holding) (a : Address) (l : List (Address × ID × ℕ)) : ℕ :=
  ((l.filter (fun x => holdingOf avaxAssetID x.2.1 = h ∧ x.1 = a)).map (·.2.2)).sum

@[simp] theorem amountAt_nil (avaxAssetID : ID) (h : Holding) (a : Address) :
    amountAt avaxAssetID h a [] = 0 := rfl

theorem amountAt_cons (avaxAssetID : ID) (h : Holding) (a : Address) (x : Address × ID × ℕ)
    (l : List (Address × ID × ℕ)) :
    amountAt avaxAssetID h a (x :: l) =
      (if holdingOf avaxAssetID x.2.1 = h ∧ x.1 = a then x.2.2 else 0) + amountAt avaxAssetID h a l := by
  unfold amountAt
  by_cases hx : holdingOf avaxAssetID x.2.1 = h ∧ x.1 = a
  · rw [List.filter_cons_of_pos (by simpa using hx), if_pos hx, List.map_cons, List.sum_cons]
  · rw [List.filter_cons_of_neg (by simpa using hx), if_neg hx, Nat.zero_add]

/-- What moves in one holding of all accounts. -/
theorem sum_amountAt (avaxAssetID : ID) (h : Holding) (l : List (Address × ID × ℕ)) :
    ∑ a, amountAt avaxAssetID h a l = amountOf (holdingOf avaxAssetID · = h) (l.map (·.2)) := by
  induction l with
  | nil => exact Finset.sum_const_zero
  | cons x l ih =>
    have hone : ∑ a, (if holdingOf avaxAssetID x.2.1 = h ∧ x.1 = a then x.2.2 else 0) =
        if holdingOf avaxAssetID x.2.1 = h then x.2.2 else 0 := by
      by_cases hx : holdingOf avaxAssetID x.2.1 = h
      · simp only [hx, true_and, Finset.sum_ite_eq, Finset.mem_univ, if_true]
      · simp only [hx, false_and, if_false, Finset.sum_const_zero]
    simp only [amountAt_cons, Finset.sum_add_distrib, ih, List.map_cons, amountOf_cons, hone]

/-- No balance that is credited exceeds 256 bits. -/
def Tx.Fits (tx : Tx) (avaxAssetID : ID) (s : StateDB) : Prop :=
  ∀ h a, (s.held h a).toNat + Holding.rate h * amountAt avaxAssetID h a tx.credits < 2 ^ 256

/-- The outputs of an import, account by account. -/
theorem held_transferOutputs {outs : List EVMOutput}
    (hfit : ∀ h a, (s.held h a).toNat + Holding.rate h * amountAt avaxAssetID h a (outs.map (fun out => (out.address, out.assetID, out.amount))) < 2 ^ 256)
    (h : Holding) (a : Address) :
    ((outs.foldl (transferOutput avaxAssetID) s).held h a).toNat = (s.held h a).toNat +
      h.rate * amountAt avaxAssetID h a (outs.map (fun out => (out.address, out.assetID, out.amount))) := by
  induction outs generalizing s with
  | nil => rfl
  | cons out outs ih =>
    simp only [List.map_cons, amountAt_cons, Nat.mul_add] at hfit ⊢
    have hone : ∀ h a, ((transferOutput avaxAssetID s out).held h a).toNat = (s.held h a).toNat +
        Holding.rate h * (if holdingOf avaxAssetID out.assetID = h ∧ out.address = a then out.amount else 0) := by
      intro h a
      have hout := hfit (holdingOf avaxAssetID out.assetID) out.address
      rw [if_pos ⟨rfl, rfl⟩] at hout
      rw [held_transferOutput avaxAssetID s out (by omega), mul_ite, Nat.mul_zero]
    rw [List.foldl_cons, ih (fun h a => by rw [hone]; have := hfit h a; omega), hone]
    omega

/-- The inputs of an export, account by account, and the addresses that are noted. -/
theorem transferInputs_ok {ins : List EVMInput} {addrs addrs' : GoMap Address ℕ}
    (hamount : ∀ i ∈ ins, i.amount ≤ maxUint64)
    (hok : transferInputs avaxAssetID ins s addrs = .ok (s', addrs')) :
    s'.nonce = s.nonce ∧
    (∀ h a, (s'.held h a).toNat + Holding.rate h *
      amountAt avaxAssetID h a (ins.map (fun i => (i.address, i.assetID, i.amount))) =
        (s.held h a).toNat) ∧
    ∀ a n, addrs'.lookup a = some n ↔
      (∃ i ∈ ins, i.address = a) ∧ n = (s.nonce a).toNat ∨
        (¬ ∃ i ∈ ins, i.address = a) ∧ addrs.lookup a = some n := by
  induction ins generalizing s addrs with
  | nil =>
    cases hok
    exact ⟨rfl, fun _ _ => rfl, fun _ _ => by simp⟩
  | cons i ins ih =>
    rcases bind_ok hok with ⟨s₁, hinput, hok⟩
    rcases bind_ok hok with ⟨_, hnonce, hok⟩
    rcases held_transferInput (hamount i List.mem_cons_self) hinput with ⟨hn₁, hheld⟩
    rcases ih (fun j hj => hamount j (List.mem_cons_of_mem _ hj)) hok with ⟨hn₂, hrest, haddrs⟩
    have hnonce : (s.nonce i.address).toNat = i.nonce := by
      rw [← hn₁]
      exact ensure_ok hnonce
    refine ⟨hn₂.trans hn₁, ?_, ?_⟩
    · intro h a
      have hstep := hheld h a
      have hafter := hrest h a
      simp only [List.map_cons, amountAt_cons, Nat.mul_add]
      rw [mul_ite, Nat.mul_zero]
      omega
    · intro a n
      rw [haddrs, hn₁]
      by_cases hrest : ∃ j ∈ ins, j.address = a
      · simp [hrest]
      · by_cases ha : i.address = a
        · subst ha
          simp only [hrest, AList.lookup_insert, Option.some.injEq, hnonce]
          simp [eq_comm]
        · simp [hrest, ha, AList.lookup_insert_ne (Ne.symm ha)]

/-- The last loop of an export sets each noted nonce once. -/
theorem nonce_raiseNonces {addrs : GoMap Address ℕ} {order : List Address} (hnodup : order.Nodup)
    (s : StateDB) (a : Address) :
    (raiseNonces addrs order s).nonce a =
      if a ∈ order then
        match addrs.lookup a with
        | none => s.nonce a
        | some n => BitVec.ofNat 64 (n + 1)
      else s.nonce a := by
  induction order generalizing s with
  | nil => rfl
  | cons b order ih =>
    rcases List.nodup_cons.mp hnodup with ⟨hb, hnodup⟩
    refine (ih hnodup (raiseNonce addrs s b)).trans ?_
    by_cases hab : a = b
    · subst hab
      rw [if_neg hb, if_pos List.mem_cons_self, raiseNonce]
      split <;> simp [StateDB.setNonce, *]
    · have hmem : a ∈ b :: order ↔ a ∈ order := by simp [hab]
      have hsame : (raiseNonce addrs s b).nonce a = s.nonce a := by
        unfold raiseNonce
        split
        next => rfl
        next => exact Function.update_of_ne hab _ _
      simp only [hmem, hsame]

theorem held_raiseNonces (addrs : GoMap Address ℕ) (order : List Address) (s : StateDB) :
    (raiseNonces addrs order s).held = s.held := by
  unfold raiseNonces
  induction order generalizing s with
  | nil => rfl
  | cons b order ih =>
    rw [List.foldl_cons, ih, raiseNonce]
    split
    next => rfl
    next =>
      funext h a
      cases h <;> rfl

/-- The state transfer, account by account. -/
structure Transferred (avaxAssetID : ID) (tx : Tx) (s s' : StateDB) : Prop where
  held : ∀ h a, (s'.held h a).toNat + Holding.rate h * amountAt avaxAssetID h a tx.debits =
    (s.held h a).toNat + Holding.rate h * amountAt avaxAssetID h a tx.credits
  nonce : ∀ a, s'.nonce a = if ∃ x ∈ tx.debits, x.1 = a then s.nonce a + 1 else s.nonce a

theorem Tx.evmStateTransfer_ok {order : GoMap Address ℕ → List Address}
    (horder : ∀ addrs, (order addrs).Perm addrs.keys) (hfit : tx.Fits avaxAssetID s)
    (hamount : ∀ x ∈ tx.debits, x.2.2 ≤ maxUint64)
    (hok : tx.evmStateTransfer avaxAssetID order s = .ok s') : Transferred avaxAssetID tx s s' := by
  unfold Tx.evmStateTransfer at hok
  unfold Tx.Fits at hfit
  split at hok
  next utx hutx =>
    simp only [Tx.credits, hutx] at hfit
    cases hok
    constructor
    · intro h a
      simp only [Tx.debits, Tx.credits, hutx, amountAt_nil, Nat.mul_zero, Nat.add_zero]
      exact held_transferOutputs hfit h a
    · intro a
      have hnonce : ∀ (outs : List EVMOutput) (s : StateDB),
          (outs.foldl (transferOutput avaxAssetID) s).nonce = s.nonce := by
        intro outs
        induction outs with
        | nil => exact fun s => rfl
        | cons out outs ih =>
          intro s
          rw [List.foldl_cons, ih]
          unfold transferOutput StateDB.addBalanceMultiCoin
          split
          next => rfl
          next => split <;> rfl
      rw [hnonce]
      simp [Tx.debits, hutx]
  next utx hutx =>
    simp only [Tx.debits, hutx, List.mem_map, forall_exists_index, and_imp,
      forall_apply_eq_imp_iff₂] at hamount
    rcases bind_ok hok with ⟨⟨s₁, addrs⟩, htransfer, hret⟩
    cases hret
    rcases transferInputs_ok hamount htransfer with ⟨hnonce, hheld, haddrs⟩
    constructor
    · intro h a
      simp only [Tx.debits, Tx.credits, hutx, amountAt_nil, Nat.mul_zero, Nat.add_zero,
        held_raiseNonces]
      exact hheld h a
    · intro a
      have hnodup : (order addrs).Nodup := (horder addrs).nodup_iff.mpr addrs.keys_nodup
      have hmem : a ∈ order addrs ↔ (addrs.lookup a).isSome := by
        rw [(horder addrs).mem_iff, ← AList.mem_keys, AList.lookup_isSome]
      rw [nonce_raiseNonces hnodup, hnonce]
      simp only [hmem, Tx.debits, hutx, List.mem_map, exists_exists_and_eq_and]
      rcases hlook : addrs.lookup a with _ | n
      · have hnone : ¬ ∃ i ∈ utx.ins, i.address = a := by
          intro hex
          have hsome := (haddrs a (s.nonce a).toNat).mpr (.inl ⟨hex, rfl⟩)
          rw [hlook] at hsome
          cases hsome
        rw [if_neg hnone]
        simp
      · rcases (haddrs a n).mp hlook with ⟨hex, rfl⟩ | ⟨-, hnone⟩
        · rw [if_pos hex]
          simp [BitVec.ofNat_add]
        · cases hnone

/-! ## What verification establishes -/

/-- The UTXO that shared memory holds under a key. -/
def SharedMemory.utxoAt (sm : SharedMemory) (codec : Codec) (peerChainID key : ID) : Option UTXO :=
  match (sm.inbound peerChainID).get key with
  | .ok utxoBytes => (codec.unmarshalUTXO utxoBytes).toOption
  | .error _ => none

def UTXO.value (utxo : UTXO) : ID × ℕ := (utxo.assetID, utxo.out.amt)

/-- The UTXOs of shared memory that a transaction consumes. -/
def Tx.consumedUTXOs (tx : Tx) (b : VerifierBackend) (sm : SharedMemory) : List UTXO :=
  match tx.unsigned with
  | .importTx utx => (tx.inputUTXOs b.inputID).filterMap (sm.utxoAt b.codec utx.sourceChain)
  | .exportTx _ => []

/-- The UTXOs that a transaction adds to shared memory. -/
def Tx.exportedUTXOs (tx : Tx) : List UTXO :=
  match tx.unsigned with
  | .importTx _ => []
  | .exportTx utx => utx.exportedUTXOs

theorem UnsignedExportTx.value_exportedUTXOs (utx : UnsignedExportTx) :
    utx.exportedUTXOs.map UTXO.value = utx.exportedOutputs.map (fun o => (o.assetID, o.out.amt)) := by
  unfold UnsignedExportTx.exportedUTXOs
  apply List.ext_getElem
  · simp
  · intro i h₁ h₂
    simp [UTXO.value]

variable {b : VerifierBackend}

variable {utx : UnsignedImportTx}

/-- An imported input that verifies names a UTXO of its asset and amount. -/
theorem verifyImportedInput_ok {utxoBytes : Bytes} {i : TransferableInput} {cred : List Bytes}
    (h : verifyImportedInput b utx utxoBytes i cred = .ok ()) :
    ∃ utxo, b.codec.unmarshalUTXO utxoBytes = .ok utxo ∧ utxo.value = (i.assetID, i.input.amt) := by
  rcases bind_ok h with ⟨utxo, hutxo, h⟩
  rcases bind_ok h with ⟨_, hasset, h⟩
  rcases bind_ok h with ⟨_, -, h⟩
  rcases bind_ok h with ⟨_, -, h⟩
  rcases bind_ok h with ⟨_, hamt, -⟩
  refine ⟨utxo, ?_, Prod.ext (ensure_ok hasset) (ensure_ok hamt)⟩
  rcases hunmarshal : b.codec.unmarshalUTXO utxoBytes with e | utxo'
  · rw [hunmarshal] at hutxo
    cases hutxo
  · rw [hunmarshal] at hutxo
    exact hutxo

variable {sm : SharedMemory}

/-- The values of the UTXOs that the inputs of an import name. -/
theorem value_importedInputs {peerChainID : ID} {inputs : List TransferableInput}
    {allUTXOBytes : List Bytes} {creds : List (List Bytes)} (hcreds : creds.length = inputs.length)
    (hget : sm.get peerChainID (inputs.map (fun i => b.inputID i.utxoID)) = .ok allUTXOBytes)
    (hchecks : (inputs.zip (allUTXOBytes.zip creds)).forM (fun x => verifyImportedInput b utx x.2.1 x.1 x.2.2) = .ok ()) :
    ((inputs.map (fun i => b.inputID i.utxoID)).filterMap (sm.utxoAt b.codec peerChainID)).map
      UTXO.value = inputs.map (fun i => (i.assetID, i.input.amt)) := by
  unfold SharedMemory.get at hget
  induction inputs generalizing allUTXOBytes creds with
  | nil => rfl
  | cons i inputs ih =>
    rw [List.map_cons, List.mapM_cons] at hget
    rcases bind_ok hget with ⟨utxoBytes, hbytes, hget⟩
    rcases bind_ok hget with ⟨rest, hrest, hget⟩
    cases hget
    cases creds with
    | nil => cases hcreds
    | cons cred creds =>
      rcases bind_ok (show (verifyImportedInput b utx utxoBytes i cred >>= fun _ =>
        (inputs.zip (rest.zip creds)).forM (fun x => verifyImportedInput b utx x.2.1 x.1 x.2.2)) =
          .ok () from hchecks) with ⟨⟨⟩, hone, hchecks⟩
      rcases verifyImportedInput_ok hone with ⟨utxo, hunmarshal, hvalue⟩
      have hat : sm.utxoAt b.codec peerChainID (b.inputID i.utxoID) = some utxo := by
        unfold SharedMemory.utxoAt
        rw [hbytes]
        dsimp only
        rw [hunmarshal]
        rfl
      rw [List.map_cons, List.filterMap_cons_some hat, List.map_cons, List.map_cons, hvalue,
        ih (by simpa using hcreds) hrest hchecks]

/-- What a successful `SemanticVerify` says about the amounts. -/
structure Verified (b : VerifierBackend) (sm : SharedMemory) (tx : Tx) (baseFee : Option ℤ) : Prop where
  flow : ∃ gasUsed fee, tx.gasUsed b.rules.isApricotPhase5 = .ok gasUsed ∧
    calculateDynamicFee gasUsed baseFee = .ok fee ∧
    ∀ a, (if b.ctx.avaxAssetID = a then fee else 0) + amountOf (· = a) tx.produces ≤
        amountOf (· = a) tx.consumes ∧
      amountOf (· = a) tx.consumes ≤ maxUint64
  /-- What the transaction consumes is in shared memory or debited. -/
  consumes : tx.consumes = (tx.consumedUTXOs b sm).map UTXO.value ++ tx.debits.map (·.2)
  /-- What the transaction produces goes to shared memory or is credited. -/
  produces : tx.produces = tx.exportedUTXOs.map UTXO.value ++ tx.credits.map (·.2)
  debits_nodup : (tx.debits.map (fun x => (x.1, x.2.1))).Nodup

variable {baseFee : Option ℤ}

/-- The fee as of Apricot Phase 3. -/
theorem Tx.requiredFee_ok {rules : Rules} {fee : Option ℕ} (hap3 : rules.isApricotPhase3 = true)
    (h : tx.requiredFee rules baseFee = .ok fee) :
    ∃ gasUsed txFee, tx.gasUsed rules.isApricotPhase5 = .ok gasUsed ∧
      calculateDynamicFee gasUsed baseFee = .ok txFee ∧ fee = some txFee := by
  unfold Tx.requiredFee at h
  rw [if_pos hap3] at h
  rcases bind_ok h with ⟨gasUsed, hgas, h⟩
  rcases bind_ok h with ⟨txFee, hfee, h⟩
  cases h
  exact ⟨gasUsed, txFee, hgas, hfee, rfl⟩

variable {fetcher : BlockFetcher} {parent : Block}

theorem verifyImportTx_verified
    (hutx : tx.unsigned = .importTx utx) (hap3 : b.rules.isApricotPhase3 = true)
    (hboot : b.bootstrapped = true)
    (hid : Set.InjOn b.inputID {u | u ∈ utx.importedInputs.map (·.utxoID)})
    (h : verifyImportTx b sm fetcher tx utx parent baseFee = .ok ()) :
    Verified b sm tx baseFee := by
  have hv := verifyImportTx_ok hboot h
  rcases hv.flow with ⟨fee, hfee, hflow⟩
  rcases hv.utxos with ⟨allUTXOBytes, hget, hchecks⟩
  rcases Tx.requiredFee_ok hap3 hfee with ⟨gasUsed, txFee, hgas, hdynamic, rfl⟩
  refine ⟨⟨gasUsed, txFee, hgas, hdynamic, tx.verifyFlow_ok hflow⟩, ?_, ?_, ?_⟩
  · -- the inputs are different, so are their IDs, and no UTXO is counted twice
    have hnodup := UnsignedImportTx.nodup_inputIDs hid hv.verify
    have hvalue := value_importedInputs hv.creds hget hchecks
    simp only [Tx.consumes, Tx.consumedUTXOs, Tx.debits, Tx.inputUTXOs, hutx, hnodup.dedup,
      List.map_nil, List.append_nil]
    exact hvalue.symm
  · simp only [Tx.produces, Tx.exportedUTXOs, Tx.credits, hutx, List.map_nil, List.nil_append,
      List.map_map]
    rfl
  · simp only [Tx.debits, hutx, List.map_nil, List.nodup_nil]

theorem verifyExportTx_verified {utx : UnsignedExportTx} (hutx : tx.unsigned = .exportTx utx)
    (hap1 : b.rules.isApricotPhase1 = true) (hap3 : b.rules.isApricotPhase3 = true)
    (h : verifyExportTx b tx utx baseFee = .ok ()) : Verified b sm tx baseFee := by
  rcases bind_ok h with ⟨_, hverify, h⟩
  rcases bind_ok h with ⟨fee, hfee, h⟩
  rcases bind_ok h with ⟨_, hflow, -⟩
  rcases Tx.requiredFee_ok hap3 hfee with ⟨gasUsed, txFee, hgas, hdynamic, rfl⟩
  refine ⟨⟨gasUsed, txFee, hgas, hdynamic, tx.verifyFlow_ok hflow⟩, ?_, ?_, ?_⟩
  · simp only [Tx.consumes, Tx.consumedUTXOs, Tx.debits, hutx, List.map_nil, List.nil_append,
      List.map_map]
    rfl
  · simp only [Tx.produces, Tx.exportedUTXOs, Tx.credits, hutx, List.map_nil, List.append_nil,
      utx.value_exportedUTXOs]
  · simp only [Tx.debits, hutx, List.map_map]
    exact UnsignedExportTx.verify_nodup hap1 hverify

/-! ## Conservation -/

/-- The rules are those of Apricot Phase 3 or a later upgrade. -/
structure Rules.AtLeastApricotPhase3 (rules : Rules) : Prop where
  isApricotPhase1 : rules.isApricotPhase1 = true
  isApricotPhase2 : rules.isApricotPhase2 = true
  isApricotPhase3 : rules.isApricotPhase3 = true

theorem semanticVerify_verified
    (hrules : b.rules.AtLeastApricotPhase3) (hboot : b.bootstrapped = true)
    (hid : Set.InjOn b.inputID tx.namedUTXOs)
    (h : semanticVerify b sm fetcher tx parent baseFee = .ok ()) : Verified b sm tx baseFee := by
  unfold semanticVerify at h
  unfold Tx.namedUTXOs at hid
  split at h
  next utx hutx =>
    simp only [hutx] at hid
    exact verifyImportTx_verified hutx hrules.isApricotPhase3 hboot hid h
  next utx hutx =>
    exact verifyExportTx_verified hutx hrules.isApricotPhase1 hrules.isApricotPhase3 h

/-- Value is conserved by a transaction that takes the state from `s` to `s'`. -/
structure Conserved (b : VerifierBackend) (sm : SharedMemory) (tx : Tx) (baseFee : Option ℤ)
    (s s' : StateDB) : Prop where
  native : ∃ burned gasUsed fee, tx.burned b.ctx.avaxAssetID = .ok burned ∧
    tx.gasUsed b.rules.isApricotPhase5 = .ok gasUsed ∧
    calculateDynamicFee gasUsed baseFee = .ok fee ∧ fee ≤ burned ∧
    (total s'.balance : ℤ) - total s.balance = x2cRate *
      (amountOf (· = b.ctx.avaxAssetID) ((tx.consumedUTXOs b sm).map UTXO.value) -
        amountOf (· = b.ctx.avaxAssetID) (tx.exportedUTXOs.map UTXO.value) - burned)
  /-- Assets with one coin ID are kept together. -/
  coins : ∀ coinID, total (s'.multiCoin coinID) +
      amountOf (holdingOf b.ctx.avaxAssetID · = some coinID) (tx.exportedUTXOs.map UTXO.value) ≤
    total (s.multiCoin coinID) +
      amountOf (holdingOf b.ctx.avaxAssetID · = some coinID) ((tx.consumedUTXOs b sm).map UTXO.value)
  accounts : ∀ h a, (s'.held h a).toNat +
      Holding.rate h * amountAt b.ctx.avaxAssetID h a tx.debits =
    (s.held h a).toNat + Holding.rate h * amountAt b.ctx.avaxAssetID h a tx.credits
  /-- No two inputs debit one asset of one account. -/
  debits_nodup : (tx.debits.map (fun x => (x.1, x.2.1))).Nodup
  nonces : ∀ a, (s'.nonce a).toNat =
    (s.nonce a).toNat + if ∃ x ∈ tx.debits, x.1 = a then 1 else 0

/-- The totals of one holding. -/
theorem Transferred.total_held (h : Transferred avaxAssetID tx s s') (holding : Holding) :
    total (s'.held holding) +
        holding.rate * amountOf (holdingOf avaxAssetID · = holding) (tx.debits.map (·.2)) =
      total (s.held holding) +
        holding.rate * amountOf (holdingOf avaxAssetID · = holding) (tx.credits.map (·.2)) := by
  have hshift := total_shift (h.held holding)
  rw [← Finset.mul_sum, ← Finset.mul_sum, sum_amountAt, sum_amountAt] at hshift
  exact hshift

theorem amountOf_native (avaxAssetID : ID) (l : List (ID × ℕ)) :
    amountOf (holdingOf avaxAssetID · = none) l = amountOf (· = avaxAssetID) l := by
  simp only [amountOf, holdingOf_eq_none]

theorem le_amountOf {p : ID → Prop} [DecidablePred p] {l : List (ID × ℕ)} {x : ID × ℕ} (hx : x ∈ l) (hp : p x.1) :
    x.2 ≤ amountOf p l := by
  exact List.le_sum_of_mem (List.mem_map.mpr ⟨x, List.mem_filter.mpr ⟨hx, by simpa using hp⟩, rfl⟩)

/-- A transaction that passes verification on a bootstrapped node and whose state transfer
succeeds conserves value, unless a balance it credits or a nonce it raises is at the end
of its range. -/
theorem atomic_tx_conserves_value {b : VerifierBackend} {sm : SharedMemory} {fetcher : BlockFetcher}
    {tx : Tx} {parent : Block} {baseFee : Option ℤ} (order : GoMap Address ℕ → List Address)
    {s s' : StateDB} (hrules : b.rules.AtLeastApricotPhase3) (hboot : b.bootstrapped = true)
    (hid : Set.InjOn b.inputID tx.namedUTXOs) (horder : ∀ addrs, (order addrs).Perm addrs.keys)
    (hfit : tx.Fits b.ctx.avaxAssetID s) (hnonce : ∀ x ∈ tx.debits, (s.nonce x.1).toNat < maxUint64)
    (hverify : semanticVerify b sm fetcher tx parent baseFee = .ok ())
    (htransfer : tx.evmStateTransfer b.ctx.avaxAssetID order s = .ok s') :
    Conserved b sm tx baseFee s s' := by
  have hv := semanticVerify_verified hrules hboot hid hverify
  rcases hv.flow with ⟨gasUsed, fee, hgas, hfee, hflow⟩
  have hamount : ∀ x ∈ tx.debits, x.2.2 ≤ maxUint64 := by
    intro x hx
    refine (le_amountOf (p := (· = x.2.1)) (l := tx.consumes) ?_ rfl).trans (hflow x.2.1).2
    rw [hv.consumes]
    exact List.mem_append_right _ (List.mem_map_of_mem hx)
  have ht := tx.evmStateTransfer_ok horder hfit hamount htransfer
  refine ⟨?_, ?_, ht.held, hv.debits_nodup, ?_⟩
  · have hnative := hflow b.ctx.avaxAssetID
    rw [if_pos rfl] at hnative
    have hspent := sumAsset_eq b.ctx.avaxAssetID tx.produces (by omega)
    have hinput := sumAsset_eq b.ctx.avaxAssetID tx.consumes hnative.2
    have hburned : tx.burned b.ctx.avaxAssetID = .ok (amountOf (· = b.ctx.avaxAssetID) tx.consumes -
        amountOf (· = b.ctx.avaxAssetID) tx.produces) := by
      unfold Tx.burned
      rw [hspent, hinput]
      rcases checkedSub_cases TxError.underflow (amountOf (· = b.ctx.avaxAssetID) tx.consumes)
        (amountOf (· = b.ctx.avaxAssetID) tx.produces) with ⟨hlt, -⟩ | ⟨-, he⟩
      · omega
      · exact he
    refine ⟨_, gasUsed, fee, hburned, hgas, hfee, by omega, ?_⟩
    have htotal := ht.total_held none
    rw [amountOf_native, amountOf_native] at htotal
    -- consumed and debited on one side, exported and credited on the other
    rw [hv.consumes, hv.produces, amountOf_append, amountOf_append] at hnative ⊢
    have htotal : (total s'.balance : ℤ) +
        x2cRate * amountOf (· = b.ctx.avaxAssetID) (tx.debits.map (·.2)) =
          total s.balance + x2cRate * amountOf (· = b.ctx.avaxAssetID) (tx.credits.map (·.2)) := by
      exact_mod_cast htotal
    rw [Nat.cast_sub (by omega), Nat.cast_add, Nat.cast_add]
    linear_combination htotal
  · intro coinID
    have htotal := ht.total_held (some coinID)
    have hle : amountOf (holdingOf b.ctx.avaxAssetID · = some coinID) tx.produces ≤
        amountOf (holdingOf b.ctx.avaxAssetID · = some coinID) tx.consumes := by
      refine amountOf_le_of_forall (fun a => ?_)
      have := (hflow a).1
      omega
    rw [hv.consumes, hv.produces, amountOf_append, amountOf_append] at hle
    simp only [StateDB.held, Holding.rate, Nat.one_mul] at htotal
    omega
  · intro a
    rw [ht.nonce]
    split
    next hex =>
      rcases hex with ⟨x, hx, rfl⟩
      have hlt := hnonce x hx
      rw [BitVec.toNat_add, Nat.mod_eq_of_lt]
      · rfl
      · simp only [maxUint64] at hlt
        show _ + 1 < _
        omega
    next => rfl

/-! ## A small network -/

def sampleFetcher : BlockFetcher := ⟨fun _ => none, genesis⟩

/-- The accounts hold nothing. -/
def emptyState : StateDB := ⟨fun _ => 0, fun _ => 0, fun _ => false, fun _ _ => 0⟩

/-- The account 5 exports 2 of asset 7 and pays 1. -/
def exportTwo : Tx where
  unsigned := .exportTx
    { metadata := ⟨2, [0]⟩, networkID := 1, blockchainID := 1, destinationChain := 2,
      ins := [⟨5, 3, 7, maxUint64⟩], exportedOutputs := [⟨7, ⟨2, ⟨0, 1, [5]⟩⟩⟩] }
  creds := [[[]]]

theorem importBoth_verified :
    semanticVerify sampleBackend sampleMemory sampleFetcher (importBoth 1) genesis (some 1) = .ok () := by
  decide +kernel

theorem importBoth_fits : (importBoth 1).Fits 7 emptyState := by
  intro h a
  have hle : amountAt 7 h a (importBoth 1).credits ≤ 4 := by
    simp only [Tx.credits, importBoth, List.map_cons, List.map_nil, amountAt_cons, amountAt_nil]
    split <;> split <;> omega
  have hzero : (emptyState.held h a).toNat = 0 := by cases h <;> rfl
  have hrate : h.rate ≤ x2cRate := by cases h <;> simp [Holding.rate, x2cRate]
  calc (emptyState.held h a).toNat + h.rate * amountAt 7 h a (importBoth 1).credits
      ≤ 0 + x2cRate * 4 := by rw [hzero]; exact Nat.add_le_add_left (Nat.mul_le_mul hrate hle) 0
    _ < 2 ^ 256 := by decide

theorem atomic_tx_conserves_value_import :
    ∃ s', (importBoth 1).evmStateTransfer 7 AList.keys emptyState = .ok s' ∧
      Conserved sampleBackend sampleMemory (importBoth 1) (some 1) emptyState s' := by
  refine ⟨_, rfl, atomic_tx_conserves_value AList.keys ⟨rfl, rfl, rfl⟩ rfl (importBoth_named 1)
    (fun _ => .refl _) importBoth_fits ?_ importBoth_verified rfl⟩
  exact nofun

/-- What the conditions exclude. A balance at the end of its range wraps around. An import
of asset 9 also creates the asset that has the same coin ID. A nonce at the end of its
range wraps around. A node that is not bootstrapped accepts an import of UTXOs that are
not there. -/
theorem atomic_tx_conservation_limits :
    semanticVerify sampleBackend sampleMemory sampleFetcher (importBoth 1) genesis (some 1) = .ok () ∧
    (∃ s', (importBoth 1).evmStateTransfer 7 AList.keys { emptyState with balance := fun _ => -1 } = .ok s' ∧
      ¬ Conserved sampleBackend sampleMemory (importBoth 1) (some 1)
        { emptyState with balance := fun _ => -1 } s') ∧
    (((importBoth 1).evmStateTransfer 7 AList.keys emptyState).map
        (fun s' => s'.getBalanceMultiCoin 5 (9 + 2 ^ 248)) = .ok 2 ∧
      ((importBoth 1).consumedUTXOs sampleBackend sampleMemory).map UTXO.value = [(7, 3), (9, 2)]) ∧
    (semanticVerify sampleBackend sampleMemory sampleFetcher exportTwo genesis (some 1) = .ok () ∧
      (exportTwo.evmStateTransfer 7 AList.keys
        { emptyState with balance := fun _ => 2 ^ 64, nonce := fun _ => -1 }).map
          (fun s' => s'.nonce 5) = .ok 0) ∧
    (semanticVerify { sampleBackend with bootstrapped := false } ⟨fun _ => ∅, fun _ => ∅⟩ sampleFetcher
        (importBoth 1) genesis (some 1) = .ok () ∧
      (importBoth 1).consumedUTXOs sampleBackend ⟨fun _ => ∅, fun _ => ∅⟩ = []) := by
  refine ⟨?_, ⟨_, rfl, fun h => absurd (h.accounts none 5) ?_⟩, ⟨?_, ?_⟩, ⟨?_, ?_⟩, ?_, ?_⟩
  all_goals decide +kernel

end Titan.Atomic
