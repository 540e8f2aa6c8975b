import Titan.Atomic.MempoolInvariant

/-!
# Titan.Atomic.MempoolRuns — the mempool over sequences of operations

`Mempool.For` is kept by every operation except in two situations: `RemoveTx`
called with a transaction that shares an input with another one of the mempool,
whose spender entry it deletes, and an addition of a remote transaction that
fails after the insertion, when the bloom filter cannot be replaced. `Op.Safe`
excludes the two, and every run of safe operations is consistent.
-/

namespace Titan.Atomic

open Lib
open PChain (ID GoMap)

namespace Mempool

/-! ## Additions -/

theorem checkConflictTx_ok {env : Env} {m : Mempool} {order : List ID} {highest : ℕ}
    {conflicts : List Tx} (h : m.checkConflictTx env order = .ok (highest, conflicts)) (c : Tx) :
    c ∈ conflicts ↔ ∃ u ∈ order, m.utxoSpenders.lookup u = some c := by
  induction order generalizing highest conflicts with
  | nil =>
    cases h
    simp
  | cons u rest ih =>
    unfold checkConflictTx at h
    split at h
    next hnone => simp [ih h, hnone]
    next t hsome =>
      rcases bind_ok h with ⟨price, -, h⟩
      rcases bind_ok h with ⟨r, hrest, h⟩
      cases h
      simp [ih hrest, hsome, eq_comm]

namespace For

variable {env : Env} {U : Set Tx} {n : ℕ} (hU : U.InjOn Tx.id) {m : Mempool} {p : Pool}
  (h : m.For env U n p)
include hU h

/-- Several transactions are removed and marked as Discarded. -/
theorem removeTxs (cs : List Tx) (hcs : ∀ c ∈ cs, c ∈ U ∧ p.Clear env c) :
    ∃ q, (cs.foldl (fun m c => m.removeTx env c true) m).For env U n q ∧
      ∀ t, t ∈ q.live ↔ t ∈ p.live ∧ ∀ c ∈ cs, t.id ≠ c.id := by
  induction cs generalizing m p with
  | nil => exact ⟨p, h, by simp⟩
  | cons c cs ih =>
    rcases hcs c (List.mem_cons_self ..) with ⟨hc, hclear⟩
    have hrest : ∀ c' ∈ cs, c' ∈ U ∧ (p.remove c.id).Clear env c' := by
      intro c' hc'
      have hboth := hcs c' (List.mem_cons_of_mem _ hc')
      refine ⟨hboth.1, fun t ht => hboth.2 t ?_⟩
      rw [Pool.live_remove, mem_without] at ht
      exact ht.1
    rcases ih (h.removeTx hU hc hclear true) hrest with ⟨q, hq, hlive⟩
    refine ⟨q, hq, fun t => ?_⟩
    rw [hlive, Pool.live_remove, mem_without, List.forall_mem_cons, and_assoc]

omit hU in
/-- The checks against known transactions change the order of the discarded ones only. -/
theorem checkKnown (tx : Tx) (isLocal : Bool) :
    (m.checkKnown tx isLocal).1.For env U n p ∧
      ((m.checkKnown tx isLocal).2 = .ok () → ∀ t ∈ p.live, t.id ≠ tx.id) := by
  have htouch : Mempool.For env U n { m with discardedTxs := m.discardedTxs.touch tx.id } p :=
    { h with discarded := fun x hx => h.discarded x (Cache.mem_touch hx) }
  unfold Mempool.checkKnown
  split
  next => exact ⟨h, nofun⟩
  split
  next => exact ⟨h, nofun⟩
  split
  next => exact ⟨h, nofun⟩
  next hissued hcurrent hpending =>
    rw [h.issued.lookup_isSome_iff] at hissued
    rw [h.current.lookup_isSome_iff] at hcurrent
    rw [h.pending.get_isSome_iff] at hpending
    have hnew : ∀ t ∈ p.live, t.id ≠ tx.id := by
      intro t ht hid
      rcases Pool.mem_live.mp ht with ht | ht | ht
      · exact hpending ⟨t, ht, hid⟩
      · exact hcurrent ⟨t, ht, hid⟩
      · exact hissued ⟨t, ht, hid⟩
    split
    next => exact ⟨h, fun _ => hnew⟩
    next => exact ⟨htouch, fun _ => hnew⟩

/-- What remains of an addition once the conflicting transactions are gone. If the
transaction does not get in, it is not in the pool. -/
theorem makeRoomAndInsert (bloom : Except TxError Unit) {tx : Tx} {price : ℕ} {order : List ID}
    (htx : tx ∈ U) (hnew : ∀ t ∈ p.live, t.id ≠ tx.id) (hclear : p.Clear env tx)
    (hprice : effectiveGasPrice tx env.avaxAssetID true = .ok price)
    (horder : order.Perm (tx.inputUTXOs env.inputID)) :
    ∃ q, (m.makeRoomAndInsert env tx price order bloom).1.For env U n q ∧
      ((m.makeRoomAndInsert env tx price order bloom).2 = bloom ∨
        ∀ t ∈ q.live, t.id ≠ tx.id) := by
  unfold Mempool.makeRoomAndInsert
  split
  next hfull =>
    split
    next => exact ⟨p, h, .inr hnew⟩
    next hpending =>
      rw [h.pending.len_eq, Finset.card_eq_zero] at hpending
      rcases h.pending.peekMin (Finset.nonempty_iff_ne_empty.mpr hpending) with
        ⟨minTx, hmin, minPrice, hpeek⟩
      rw [hpeek]
      dsimp only
      split
      next => exact ⟨p, h, .inr hnew⟩
      next =>
        have hlive : minTx ∈ p.live := Pool.mem_live.mpr (.inl hmin)
        have hremoved := h.removeTx hU (h.known _ hlive) (h.clear_of_live hlive) true
        have hsub : ∀ t ∈ (p.remove minTx.id).live, t ∈ p.live := by
          intro t ht
          rw [Pool.live_remove, mem_without] at ht
          exact ht.1
        -- the cheapest transaction leaves, so there is room again
        have hroom : (p.remove minTx.id).live.card < n := by
          refine lt_of_lt_of_le (Finset.card_lt_card ?_) h.size
          refine ⟨hsub, fun hsup => ?_⟩
          have hmem := hsup hlive
          rw [Pool.live_remove, mem_without] at hmem
          exact hmem.2 rfl
        exact ⟨_, hremoved.insertTx htx (fun t ht => hnew t (hsub t ht))
          (fun t ht => hclear t (hsub t ht)) hprice horder hroom, .inl rfl⟩
  next hroom =>
    rw [h.length_eq hU, h.maxSize, Nat.not_le] at hroom
    exact ⟨_, h.insertTx htx hnew hclear hprice horder hroom, .inl rfl⟩

theorem addTx {tx : Tx} (htx : tx ∈ U) (isLocal : Bool) {o : AddOutcome}
    (hconflict : o.conflictOrder.Perm (tx.inputUTXOs env.inputID))
    (hinsert : o.insertOrder.Perm (tx.inputUTXOs env.inputID)) :
    ∃ q, (m.addTx env tx isLocal o).1.For env U n q ∧
      ((m.addTx env tx isLocal o).2 = .error .alreadyKnown ∨
        (m.addTx env tx isLocal o).2 = o.bloom ∨ ∀ t ∈ q.live, t.id ≠ tx.id) := by
  rcases h.checkKnown tx isLocal with ⟨hfor, hnew⟩
  have hknown : ∀ e, (m.checkKnown tx isLocal).2 = .error e → e = .alreadyKnown := by
    intro e he
    unfold Mempool.checkKnown at he
    repeat' split at he
    all_goals simp_all
  unfold Mempool.addTx
  rcases hcheck : m.checkKnown tx isLocal with ⟨m₁, e | u⟩
  · rw [hcheck] at hfor hknown
    exact ⟨p, hfor, .inl (by rw [hknown e rfl])⟩
  rw [hcheck] at hfor hnew
  have hnew := hnew rfl
  dsimp only
  split
  next => exact ⟨p, hfor, .inr (.inr hnew)⟩
  split
  next => exact ⟨p, hfor, .inr (.inr hnew)⟩
  next price hprice =>
    split
    next => exact ⟨p, hfor, .inr (.inr hnew)⟩
    next highest conflicts hcs =>
      split
      next => exact ⟨p, hfor, .inr (.inr hnew)⟩
      next =>
        have hmem := checkConflictTx_ok hcs
        -- the conflicting transactions are those of the pool that share an input
        have hlive : ∀ c ∈ conflicts, c ∈ p.live := by
          intro c hc
          rcases (hmem c).mp hc with ⟨u, -, hu⟩
          exact ((hfor.spenders u c).mp hu).1
        rcases hfor.removeTxs hU conflicts
          (fun c hc => ⟨hfor.known c (hlive c hc), hfor.clear_of_live (hlive c hc)⟩) with
          ⟨q, hq, hqlive⟩
        have hclear : q.Clear env tx := by
          intro t ht hid u hu hut
          rcases (hqlive t).mp ht with ⟨ht, hne⟩
          have hsp := (hfor.spenders u t).mpr ⟨ht, hut⟩
          exact hne t ((hmem t).mpr ⟨u, hconflict.mem_iff.mpr hu, hsp⟩) rfl
        rcases hq.makeRoomAndInsert hU o.bloom htx
          (fun t ht => hnew t ((hqlive t).mp ht).1) hclear hprice hinsert with ⟨r, hr, hout⟩
        exact ⟨r, hr, .inr hout⟩

theorem addRemoteTx {tx : Tx} (htx : tx ∈ U) {o : AddOutcome}
    (hconflict : o.conflictOrder.Perm (tx.inputUTXOs env.inputID))
    (hinsert : o.insertOrder.Perm (tx.inputUTXOs env.inputID)) (hbloom : o.bloom = .ok ()) :
    ∃ q, (m.addRemoteTx env tx o).1.For env U n q := by
  rcases h.addTx hU htx false hconflict hinsert with ⟨q, hq, hout⟩
  unfold Mempool.addRemoteTx
  split
  next heq => exact ⟨q, by simpa [heq] using hq⟩
  next heq => exact ⟨q, by simpa [heq] using hq⟩
  next heq => exact ⟨q, by simpa [heq] using hq⟩
  next m₁ e hknown _ heq =>
    rw [heq, hbloom] at hout
    rw [heq] at hq
    -- an error other than those above leaves the transaction outside
    have hnew : ∀ t ∈ q.live, t.id ≠ tx.id := by
      rcases hout with heq' | heq' | hnew
      · exact absurd (Except.error.inj heq') hknown
      · cases heq'
      · exact hnew
    refine ⟨q, { hq with discarded := ?_ }⟩
    intro x hx t ht
    rcases Cache.mem_put hx with hx | rfl
    · exact hq.discarded x hx t ht
    · exact hnew t ht

/-! ## Loops over the Current transactions -/

theorem issueTx_any (id : ID) : ∃ q, (m.issueTx id).For env U n q := by
  rcases hid : m.currentTxs.lookup id with _ | tx
  · refine ⟨p, ?_⟩
    unfold Mempool.issueTx
    rw [hid]
    exact h
  · rcases (h.current id tx).mp hid with ⟨htx, rfl⟩
    exact ⟨_, h.issueTx hU htx⟩

theorem discardCurrentTx (id : ID) : ∃ q, (m.discardCurrentTx env id).For env U n q := by
  unfold Mempool.discardCurrentTx
  split
  next => exact ⟨p, h⟩
  next tx hid => exact ⟨_, h.discardTx hU ((h.current id tx).mp hid).1⟩

theorem cancelCurrentTx (id : ID) : ∃ q, (m.cancelCurrentTx env id).For env U n q := by
  unfold Mempool.cancelCurrentTx
  split
  next => exact ⟨p, h⟩
  next tx hid => exact h.cancelTx hU ((h.current id tx).mp hid).1

omit hU in
/-- A loop whose body stands for a pool after each round. -/
theorem loop {f : Mempool → ID → Mempool}
    (hf : ∀ {m : Mempool} {p : Pool}, m.For env U n p → ∀ id, ∃ q, (f m id).For env U n q)
    (order : List ID) : ∃ q, (order.foldl f m).For env U n q := by
  induction order generalizing m p with
  | nil => exact ⟨p, h⟩
  | cons id order ih =>
    rcases hf h id with ⟨q, hq⟩
    exact ih hq

end For

end Mempool

/-! ## Runs -/

/-- The calls of the mempool. The orders are those in which Go visits the maps. -/
inductive Op
  | addRemoteTx (tx : Tx) (o : Mempool.AddOutcome)
  | addLocalTx (tx : Tx) (o : Mempool.AddOutcome)
  | nextTx
  | issueCurrentTxs (order : List ID)
  | cancelCurrentTx (txID : ID)
  | cancelCurrentTxs (order : List ID)
  | discardCurrentTx (txID : ID)
  | discardCurrentTxs (order : List ID)
  | removeTx (tx : Tx)

namespace Op

def run (env : Env) (m : Mempool) : Op → Mempool
  | addRemoteTx tx o => (m.addRemoteTx env tx o).1
  | addLocalTx tx o => (m.addLocalTx env tx o).1
  | nextTx => m.nextTx.1
  | issueCurrentTxs order => m.issueCurrentTxs order
  | cancelCurrentTx txID => m.cancelCurrentTx env txID
  | cancelCurrentTxs order => m.cancelCurrentTxs env order
  | discardCurrentTx txID => m.discardCurrentTx env txID
  | discardCurrentTxs order => m.discardCurrentTxs env order
  | removeTx tx => m.removeTx env tx false

/-- The transactions are among `U` and the orders are orders of the maps. -/
def Admissible (env : Env) (U : Set Tx) (m : Mempool) : Op → Prop
  | addRemoteTx tx o | addLocalTx tx o =>
    tx ∈ U ∧ o.conflictOrder.Perm (tx.inputUTXOs env.inputID) ∧
      o.insertOrder.Perm (tx.inputUTXOs env.inputID)
  | issueCurrentTxs order | cancelCurrentTxs order | discardCurrentTxs order =>
    order.Perm m.currentTxs.keys
  | removeTx tx => tx ∈ U
  | nextTx | cancelCurrentTx _ | discardCurrentTx _ => True

/-- The bloom filter can be replaced when a remote transaction is added, and a
transaction is removed only if the entries of its inputs are its own. -/
def Safe (env : Env) (m : Mempool) : Op → Prop
  | addRemoteTx _ o => o.bloom = .ok ()
  | removeTx tx => ∀ u ∈ tx.inputUTXOs env.inputID, ∀ t,
      m.utxoSpenders.lookup u = some t → t.id = tx.id
  | _ => True

end Op

/-- The mempools reached from an empty one of capacity `n` by operations that satisfy
`ok`. Transactions are told apart by their IDs, which are hashes: `U` is the set of
those that occur. -/
inductive Reachable (env : Env) (U : Set Tx) (n : ℕ) (ok : Mempool → Op → Prop) : Mempool → Prop
  | new : Reachable env U n ok (Mempool.new n)
  | step {m : Mempool} {op : Op} : Reachable env U n ok m → op.Admissible env U m → ok m op →
      Reachable env U n ok (op.run env m)

namespace Mempool.For

theorem new (env : Env) (U : Set Tx) (n : ℕ) : (Mempool.new n).For env U n ⟨∅, ∅, ∅⟩ := by
  have hheap : ∀ H : HeapOps TxEntry, Heaped env H [] ∅ :=
    fun H => ⟨⟨by simp [HeapOps.Ordered], by simp⟩, ⟨by simp, by simp, by simp, by simp⟩⟩
  refine ⟨⟨hheap _, hheap _⟩, ?_, ?_, ?_, ?_, ?_, ?_, ?_, ?_, rfl, ?_⟩
  all_goals simp [Maps, Pool.live, Mempool.new]

theorem step {env : Env} {U : Set Tx} {n : ℕ} (hU : U.InjOn Tx.id) {m : Mempool} {p : Pool}
    (h : m.For env U n p) (op : Op) (hop : op.Admissible env U m) (hsafe : op.Safe env m) :
    ∃ q, (op.run env m).For env U n q := by
  cases op with
  | addRemoteTx tx o => exact h.addRemoteTx hU hop.1 hop.2.1 hop.2.2 hsafe
  | addLocalTx tx o =>
    rcases h.addTx hU hop.1 true hop.2.1 hop.2.2 with ⟨q, hq, -⟩
    exact ⟨q, hq⟩
  | nextTx => exact h.nextTx hU
  | issueCurrentTxs order => exact h.loop (fun h => h.issueTx_any hU) order
  | cancelCurrentTx txID => exact h.cancelCurrentTx hU txID
  | cancelCurrentTxs order => exact h.loop (fun h => h.cancelCurrentTx hU) order
  | discardCurrentTx txID => exact h.discardCurrentTx hU txID
  | discardCurrentTxs order => exact h.loop (fun h => h.discardCurrentTx hU) order
  | removeTx tx =>
    refine ⟨_, h.removeTx hU hop ?_ false⟩
    intro t ht hid u hu hut
    exact hid (hsafe u hu t ((h.spenders u t).mpr ⟨ht, hut⟩))

end Mempool.For

/-! ## Consistency -/

inductive Status
  | pending
  | current
  | issued
  | discarded
deriving DecidableEq, Repr

namespace Mempool

def HasStatus (m : Mempool) (id : ID) : Status → Prop
  | .pending => (m.pendingTxs.get id).isSome
  | .current => (m.currentTxs.lookup id).isSome
  | .issued => (m.issuedTxs.lookup id).isSome
  | .discarded => (m.discardedTxs.get id).isSome

/-- The transaction is Pending, Current or Issued. -/
def Live (m : Mempool) (tx : Tx) : Prop :=
  m.pendingTxs.get tx.id = some tx ∨ m.currentTxs.lookup tx.id = some tx ∨
    m.issuedTxs.lookup tx.id = some tx

structure Consistent (env : Env) (n : ℕ) (m : Mempool) : Prop where
  one_status : ∀ id s s', m.HasStatus id s → m.HasStatus id s' → s = s'
  spenders : ∀ u tx, m.utxoSpenders.lookup u = some tx ↔
    m.Live tx ∧ u ∈ tx.inputUTXOs env.inputID
  unshared : ∀ t t', m.Live t → m.Live t' → t ≠ t' →
    ∀ u ∈ t.inputUTXOs env.inputID, u ∉ t'.inputUTXOs env.inputID
  size : ∀ S : Finset Tx, (∀ t ∈ S, m.Live t) → S.card ≤ n
  same_pending : (m.pendingTxs.maxHeap.map TxEntry.content).Perm
    (m.pendingTxs.minHeap.map TxEntry.content)
  pending_nodup : (m.pendingTxs.maxHeap.map TxEntry.id).Nodup
  next : ∀ t, m.pendingTxs.get t.id = some t → ∃ tx, m.nextTx.2 = some tx ∧
    m.pendingTxs.get tx.id = some tx ∧
    ∃ p q, effectiveGasPrice t env.avaxAssetID true = .ok p ∧
      effectiveGasPrice tx env.avaxAssetID true = .ok q ∧ p ≤ q
  next_none : m.pendingTxs.len = 0 → m.nextTx.2 = none

namespace For

variable {env : Env} {U : Set Tx} {n : ℕ} (hU : U.InjOn Tx.id) {m : Mempool} {p : Pool}
  (h : m.For env U n p)
include hU h

theorem live_iff (tx : Tx) : m.Live tx ↔ tx ∈ p.live := by
  unfold Mempool.Live
  rw [h.pending.get_iff (h.injOn_pending hU), h.current, h.issued, Pool.mem_live]
  simp

omit hU in
/-- The status of an ID, in terms of the pool. -/
theorem hasStatus {id : ID} {s : Status} (hs : m.HasStatus id s) :
    match s with
    | .pending => ∃ tx ∈ p.pending, tx.id = id
    | .current => ∃ tx ∈ p.current, tx.id = id
    | .issued => ∃ tx ∈ p.issued, tx.id = id
    | .discarded => ∀ tx ∈ p.live, tx.id ≠ id := by
  cases s with
  | pending => exact (h.pending.get_isSome_iff id).mp hs
  | current => exact (h.current.lookup_isSome_iff id).mp hs
  | issued => exact (h.issued.lookup_isSome_iff id).mp hs
  | discarded =>
    rcases Cache.get_isSome_iff.mp hs with ⟨x, hx, rfl⟩
    exact h.discarded x hx

theorem one_status {id : ID} {s s' : Status} (hs : m.HasStatus id s) (hs' : m.HasStatus id s') :
    s = s' := by
  have hpool := h.hasStatus hs
  have hpool' := h.hasStatus hs'
  -- two different live statuses contradict disjointness, a live one and Discarded
  -- contradict each other
  have hlive : ∀ {S S' : Finset Tx}, Disjoint S S' → (∀ t ∈ S, t ∈ p.live) → (∀ t ∈ S', t ∈ p.live) →
      (∃ t ∈ S, t.id = id) → (∃ t ∈ S', t.id = id) → False := by
    rintro S S' hd hS hS' ⟨t, ht, rfl⟩ ⟨t', ht', hid⟩
    rw [h.eq_of_id hU (hS' t' ht') (h.known t (hS t ht)) hid] at ht'
    exact Finset.disjoint_left.mp hd ht ht'
  have hdisc : ∀ {S : Finset Tx}, (∀ t ∈ S, t ∈ p.live) → (∃ t ∈ S, t.id = id) →
      (∀ t ∈ p.live, t.id ≠ id) → False := by
    rintro S hS ⟨t, ht, hid⟩ hno
    exact hno t (hS t ht) hid
  have hp : ∀ t ∈ p.pending, t ∈ p.live := fun _ ht => Pool.mem_live.mpr (.inl ht)
  have hc : ∀ t ∈ p.current, t ∈ p.live := fun _ ht => Pool.mem_live.mpr (.inr (.inl ht))
  have hi : ∀ t ∈ p.issued, t ∈ p.live := fun _ ht => Pool.mem_live.mpr (.inr (.inr ht))
  cases s <;> cases s' <;> first | rfl | exfalso
  case pending.current => exact hlive h.pending_current hp hc hpool hpool'
  case pending.issued => exact hlive h.pending_issued hp hi hpool hpool'
  case current.issued => exact hlive h.current_issued hc hi hpool hpool'
  case current.pending => exact hlive h.pending_current hp hc hpool' hpool
  case issued.pending => exact hlive h.pending_issued hp hi hpool' hpool
  case issued.current => exact hlive h.current_issued hc hi hpool' hpool
  case pending.discarded => exact hdisc hp hpool hpool'
  case current.discarded => exact hdisc hc hpool hpool'
  case issued.discarded => exact hdisc hi hpool hpool'
  case discarded.pending => exact hdisc hp hpool' hpool
  case discarded.current => exact hdisc hc hpool' hpool
  case discarded.issued => exact hdisc hi hpool' hpool

omit hU in
theorem same_pending : (m.pendingTxs.maxHeap.map TxEntry.content).Perm
    (m.pendingTxs.minHeap.map TxEntry.content) := by
  have hmax := h.pending.max.content
  have hmin := h.pending.min.content
  rw [List.perm_ext_iff_of_nodup hmax.nodup.of_map hmin.nodup.of_map]
  -- an entry is determined by its transaction
  have hsub : ∀ {c c' : List (ID × ℕ × Tx)}, Content env c p.pending → Content env c' p.pending →
      ∀ x ∈ c, x ∈ c' := by
    intro c c' hc hc' x hx
    rcases (hc'.mem_iff x.2.2).mp ((hc.mem_iff _).mpr ⟨x, hx, rfl⟩) with ⟨y, hy, htx⟩
    have hid : y.1 = x.1 := by rw [hc'.id_eq y hy, hc.id_eq x hx, htx]
    have hprice : y.2.1 = x.2.1 := by
      have hpy := hc'.price y hy
      rw [htx, hc.price x hx] at hpy
      exact (Except.ok.inj hpy).symm
    rw [← Prod.ext hid (Prod.ext hprice htx)]
    exact hy
  exact fun x => ⟨hsub hmax hmin x, hsub hmin hmax x⟩

theorem pending_nodup : (m.pendingTxs.maxHeap.map TxEntry.id).Nodup := by
  have hmax := h.pending.max
  have hids : m.pendingTxs.maxHeap.map TxEntry.id =
      (m.pendingTxs.maxHeap.map TxEntry.tx).map Tx.id := by
    rw [List.map_map]
    exact List.map_congr_left (fun e he => hmax.id_eq he)
  have hnodup : (m.pendingTxs.maxHeap.map TxEntry.tx).Nodup := by
    have hn := hmax.content.nodup
    rw [List.map_map] at hn
    exact hn
  rw [hids]
  refine hnodup.map_on (fun t ht t' ht' hid => ?_)
  rcases List.mem_map.mp ht with ⟨e, he, rfl⟩
  rcases List.mem_map.mp ht' with ⟨e', he', rfl⟩
  exact h.injOn_pending hU ((hmax.mem_iff _).mpr ⟨e, he, rfl⟩) ((hmax.mem_iff _).mpr ⟨e', he', rfl⟩) hid

theorem next_highest {t : Tx} (ht : m.pendingTxs.get t.id = some t) : ∃ tx, m.nextTx.2 = some tx ∧
    m.pendingTxs.get tx.id = some tx ∧
    ∃ p q, effectiveGasPrice t env.avaxAssetID true = .ok p ∧
      effectiveGasPrice tx env.avaxAssetID true = .ok q ∧ p ≤ q := by
  have hget := h.pending.get_iff (h.injOn_pending hU)
  have htS := (hget t).mp ht
  rcases h.pending.popMax (h.injOn_pending hU) ⟨t, htS⟩ with ⟨tx, htx, hpop, -, hle⟩
  have hprice : ∀ t ∈ p.pending, ∃ q, effectiveGasPrice t env.avaxAssetID true = .ok q := by
    intro t ht
    rcases (h.pending.max.mem_iff t).mp ht with ⟨e, he, rfl⟩
    exact ⟨_, h.pending.max.price he⟩
  rcases hprice t htS with ⟨a, ha⟩
  rcases hprice tx htx with ⟨b, hb⟩
  refine ⟨tx, ?_, (hget tx).mpr htx, a, b, ha, hb, hle t htS a b ha hb⟩
  unfold Mempool.nextTx
  rcases hret : m.pendingTxs.popMax with ⟨th, r⟩
  rw [hret] at hpop
  dsimp only at hpop
  rw [hpop]

theorem consistent : m.Consistent env n where
  one_status _ _ _ hs hs' := h.one_status hU hs hs'
  spenders u tx := by rw [h.live_iff hU, h.spenders]
  unshared t t' ht ht' hne := by
    rw [h.live_iff hU] at ht ht'
    exact h.clear_of_live ht t' ht' (h.id_ne hU ht' ht (Ne.symm hne))
  size S hS := by
    refine (Finset.card_le_card (fun t ht => ?_)).trans h.size
    exact (h.live_iff hU t).mp (hS t ht)
  same_pending := h.same_pending
  pending_nodup := h.pending_nodup hU
  next _ ht := h.next_highest hU ht
  next_none hlen := by
    rw [h.pending.len_eq, Finset.card_eq_zero] at hlen
    unfold Mempool.nextTx
    rw [h.popMax_empty hlen]

/-- Removing a transaction that shares an input with another one of the mempool leaves
the other one without its spender entry. -/
theorem not_consistent_removeTx {tx t : Tx} {u : ID} (hu : u ∈ tx.inputUTXOs env.inputID)
    (hspender : m.utxoSpenders.lookup u = some t) (hid : t.id ≠ tx.id) :
    ¬ (m.removeTx env tx false).Consistent env n := by
  intro hcons
  rcases (h.spenders u t).mp hspender with ⟨ht, hut⟩
  have hlive : (m.removeTx env tx false).Live t := by
    rcases Pool.mem_live.mp ht with hmem | hmem | hmem
    · left
      have hinj : Set.InjOn Tx.id (without p.pending tx.id : Set Tx) :=
        (h.injOn_pending hU).mono (fun _ ht => (mem_without.mp ht).1)
      exact ((h.pending.remove (h.injOn_pending hU) tx.id).get_iff hinj t).mpr
        (mem_without.mpr ⟨hmem, hid⟩)
    · right; left
      exact (h.current.erase tx.id t.id t).mpr ⟨mem_without.mpr ⟨hmem, hid⟩, rfl⟩
    · right; right
      exact (h.issued.erase tx.id t.id t).mpr ⟨mem_without.mpr ⟨hmem, hid⟩, rfl⟩
  have hentry := (hcons.spenders u t).mpr ⟨hlive, hut⟩
  unfold Mempool.removeTx Mempool.removeSpenders at hentry
  rw [if_neg (by simp)] at hentry
  rw [lookup_foldl_erase, if_pos hu] at hentry
  cases hentry

end For

end Mempool

/-- Every run of safe operations leaves the mempool consistent, and a removal is safe
exactly if it does. -/
theorem mempool_consistent {env : Env} {U : Set Tx} {n : ℕ} (hU : U.InjOn Tx.id) {m : Mempool}
    (h : Reachable env U n (Op.Safe env · ·) m) :
    m.Consistent env n ∧ ∀ tx ∈ U,
      ((m.removeTx env tx false).Consistent env n ↔ (Op.removeTx tx).Safe env m) := by
  have hfor : ∃ p, m.For env U n p := by
    induction h with
    | new => exact ⟨_, Mempool.For.new env U n⟩
    | step _ hop hsafe ih =>
      rcases ih with ⟨p, hp⟩
      exact hp.step hU _ hop hsafe
  rcases hfor with ⟨p, hp⟩
  refine ⟨hp.consistent hU, fun tx htx => ⟨?_, ?_⟩⟩
  · intro hcons u hu t hspender
    by_contra hid
    exact hp.not_consistent_removeTx hU hu hspender hid hcons
  · intro hsafe
    rcases hp.step hU (.removeTx tx) htx hsafe with ⟨q, hq⟩
    exact hq.consistent hU

/-- An import of one UTXO by the transaction with ID `i`, which burns 1. -/
def sampleImport (i : ID) (utxoID : UTXOID) : Tx where
  unsigned := .importTx
    { metadata := ⟨i, [0]⟩, networkID := 1, blockchainID := 1, sourceChain := 2,
      importedInputs := [⟨utxoID, 7, ⟨1 + i, [0]⟩⟩], outs := [⟨3, 1, 7⟩] }
  creds := []

def sampleEnv : Env where
  avaxAssetID := 7
  inputID u := u.txID

def sampleOutcome : Mempool.AddOutcome := ⟨.ok (), .ok (), [10], [10]⟩

/-- The imports of the UTXO `⟨10, 0⟩` with IDs 1, 2 and 3. -/
def sampleTxs : Set Tx := { tx | ∃ i ∈ ({1, 2, 3} : Finset ID), tx = sampleImport i ⟨10, 0⟩ }

theorem sampleTxs_injOn : sampleTxs.InjOn Tx.id := by
  rintro _ ⟨i, -, rfl⟩ _ ⟨j, -, rfl⟩ hid
  have hij : i = j := hid
  rw [hij]

theorem sampleImport_mem {i : ID} (hi : i ∈ ({1, 2, 3} : Finset ID)) :
    sampleImport i ⟨10, 0⟩ ∈ sampleTxs := ⟨i, hi, rfl⟩

theorem sampleImport_admissible {i : ID} (hi : i ∈ ({1, 2, 3} : Finset ID)) (m : Mempool) :
    (Op.addLocalTx (sampleImport i ⟨10, 0⟩) sampleOutcome).Admissible sampleEnv sampleTxs m :=
  ⟨sampleImport_mem hi, .refl _, .refl _⟩

/-- The mempool after some operations on an empty one of capacity 4. -/
def sampleRun (ops : List Op) : Mempool := ops.foldl (Op.run sampleEnv) (Mempool.new 4)

theorem sampleRun_concat {ok : Mempool → Op → Prop} (ops : List Op) (op : Op)
    (h : Reachable sampleEnv sampleTxs 4 ok (sampleRun ops))
    (hop : op.Admissible sampleEnv sampleTxs (sampleRun ops)) (hok : ok (sampleRun ops) op) :
    Reachable sampleEnv sampleTxs 4 ok (sampleRun (ops ++ [op])) := by
  unfold sampleRun at *
  rw [List.foldl_append]
  exact .step h hop hok

/-- A conflicting transaction with a higher price replaces another one, is built into a
block, and is removed when the block is accepted. -/
theorem mempool_consistent_accept :
    (sampleRun [.addLocalTx (sampleImport 1 ⟨10, 0⟩) sampleOutcome,
      .addRemoteTx (sampleImport 2 ⟨10, 0⟩) sampleOutcome, .nextTx, .issueCurrentTxs [2],
      .removeTx (sampleImport 2 ⟨10, 0⟩)]).Consistent sampleEnv 4 := by
  have hlocal : Reachable sampleEnv sampleTxs 4 (Op.Safe sampleEnv · ·)
      (sampleRun [.addLocalTx (sampleImport 1 ⟨10, 0⟩) sampleOutcome]) :=
    sampleRun_concat [] _ .new (sampleImport_admissible (by decide) _) trivial
  have hremote := sampleRun_concat _
    (.addRemoteTx (sampleImport 2 ⟨10, 0⟩) sampleOutcome) hlocal
    (sampleImport_admissible (by decide) (Mempool.new 4)) rfl
  have hnext := sampleRun_concat _ .nextTx hremote trivial trivial
  have hissued := sampleRun_concat _ (.issueCurrentTxs [2]) hnext (.of_eq (by decide +kernel)) trivial
  refine ((mempool_consistent sampleTxs_injOn hissued).2 _ (sampleImport_mem (by decide))).mpr ?_
  intro u hu t hspender
  have hu : u = 10 := List.mem_singleton.mp hu
  subst hu
  have hentry : t = sampleImport 2 ⟨10, 0⟩ := Option.some.inj (hspender.symm.trans (by decide +kernel))
  rw [hentry]

/-- A block with the import 2 of a UTXO is rejected or accepted while the import 1 of the
same UTXO is Pending. The removal of 2, which was never in the mempool, deletes the
spender entry of 1, and the import 3 of the same UTXO becomes Pending next to 1. -/
theorem removeTx_breaks_consistency :
    ∃ m, Reachable sampleEnv sampleTxs 4 (fun _ _ => True) m ∧ ¬ m.Consistent sampleEnv 4 := by
  refine ⟨sampleRun [.addLocalTx (sampleImport 1 ⟨10, 0⟩) sampleOutcome,
    .removeTx (sampleImport 2 ⟨10, 0⟩), .addLocalTx (sampleImport 3 ⟨10, 0⟩) sampleOutcome], ?_, ?_⟩
  · have hadd : Reachable sampleEnv sampleTxs 4 (fun _ _ => True)
        (sampleRun [.addLocalTx (sampleImport 1 ⟨10, 0⟩) sampleOutcome]) :=
      sampleRun_concat [] _ .new (sampleImport_admissible (by decide) _) trivial
    have hremove := sampleRun_concat _ (.removeTx (sampleImport 2 ⟨10, 0⟩)) hadd
      (sampleImport_mem (by decide)) trivial
    exact sampleRun_concat _ _ hremove (sampleImport_admissible (by decide) (Mempool.new 4)) trivial
  · intro hcons
    refine hcons.unshared (sampleImport 1 ⟨10, 0⟩) (sampleImport 3 ⟨10, 0⟩) (.inl ?_) (.inl ?_) ?_
      10 ?_ ?_
    all_goals decide +kernel

/-- A remote transaction is added, but the bloom filter cannot be replaced: it is Pending
and Discarded. -/
theorem addRemoteTx_two_statuses :
    ∃ m, Reachable sampleEnv sampleTxs 4 (fun _ _ => True) m ∧
      m.HasStatus 1 .pending ∧ m.HasStatus 1 .discarded := by
  let o : Mempool.AddOutcome := ⟨.ok (), .error (.other "rand"), [10], [10]⟩
  refine ⟨sampleRun [.addRemoteTx (sampleImport 1 ⟨10, 0⟩) o], ?_, ?_, ?_⟩
  · exact sampleRun_concat [] _ .new ⟨sampleImport_mem (by decide), .refl _, .refl _⟩ trivial
  · show Option.isSome _ = true
    decide +kernel
  · show Option.isSome _ = true
    decide +kernel

end Titan.Atomic
