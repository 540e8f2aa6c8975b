import Titan.Network.Throttler

/-!
# Titan.Network.ThrottlerInvariant — bytes are conserved and messages wait for a reason

`Accounts` says where the bytes are and `Queue` which messages wait. While `release` is under
way the node has bytes that belong to no message, which is a debt: the difference between what
the node holds and what its messages hold.
-/

namespace Titan.Network

open Lib

variable {N : Type} [DecidableEq N]

/-! ## Where the bytes are -/

/-- The bytes that a message of the node holds, until it is released. -/
def Call.holds (nodeID : N) (call : Call N) : ℕ :=
  if call.nodeID = nodeID ∧ call.phase ≠ .released then call.msgSize - call.bytesNeeded else 0

namespace Throttler

/-- The bytes that the messages of a node hold. -/
def bytesHeld (t : Throttler N) (nodeID : N) : ℕ := (t.calls.map (Call.holds nodeID)).sum

structure Accounts (config : Config) (t : Throttler N) (debt : N → ℕ) : Prop where
  limitOf : t.nodeMaxAtLargeBytes = config.nodeMaxAtLargeBytes.toNat
  atLarge : t.atLarge.total = config.atLargeAllocSize.toNat
  vdr : t.vdr.total = config.vdrAllocSize.toNat
  limit : ∀ nodeID, t.atLarge.held nodeID ≤ t.nodeMaxAtLargeBytes
  held : ∀ nodeID, t.atLarge.held nodeID + t.vdr.held nodeID = t.bytesHeld nodeID + debt nodeID
  needed : ∀ call ∈ t.calls, call.bytesNeeded ≤ call.msgSize

/-- Which messages wait, and that the others that are not cancelled have all of their bytes. -/
structure Queue (t : Throttler N) : Prop where
  waiting : ∀ msgID i, (msgID, i) ∈ t.waitingToAcquire →
    ∃ call, t.calls[i]? = some call ∧ call.phase = .blocked ∧ call.closed = false ∧ call.msgID = msgID
  queued : ∀ i call, t.calls[i]? = some call → call.phase = .blocked → call.closed = false →
    (call.msgID, i) ∈ t.waitingToAcquire
  ids : ∀ (i j : ℕ) (call other : Call N), t.calls[i]? = some call → t.calls[j]? = some other → call.phase = .blocked →
    other.phase = .blocked → call.msgID = other.msgID → i = j
  nodup : (t.waitingToAcquire.map Prod.fst).Nodup
  nodes : ∀ nodeID msgID, t.nodeToWaitingMsgID.lookup nodeID = some msgID →
    ∃ i call, (msgID, i) ∈ t.waitingToAcquire ∧ t.calls[i]? = some call ∧ call.nodeID = nodeID
  whole : ∀ call ∈ t.calls, call.phase = .acquired ∨ call.closed = true → call.bytesNeeded = 0
  accepted : ∀ call ∈ t.calls, call.phase ≠ .refused

/-- There is nothing in the shared pool for the node. -/
def Stuck (t : Throttler N) (nodeID : N) : Prop :=
  t.atLarge.remaining = 0 ∨ t.atLarge.held nodeID = t.nodeMaxAtLargeBytes

/-- Messages wait only if there is nothing for them. -/
def Stalled (t : Throttler N) : Prop :=
  ∀ call ∈ t.calls, call.phase = .blocked → call.closed = false → t.Stuck call.nodeID

end Throttler

/-! ## One call changes -/

/-- A debt of one node. -/
def owed (nodeID : N) (bytes : ℕ) (n : N) : ℕ := if n = nodeID then bytes else 0

theorem owed_add (nodeID : N) (a b : ℕ) (n : N) :
    owed nodeID (a + b) n = owed nodeID a n + owed nodeID b n := by
  unfold owed
  split <;> rfl

theorem owed_le {p : Pool N} {nodeID : N} {bytes : ℕ} (h : bytes ≤ p.held nodeID) (n : N) :
    owed nodeID bytes n ≤ p.held n := by
  unfold owed
  split
  next heq => rwa [heq]
  next => exact Nat.zero_le _

theorem Call.holds_eq_owed {call : Call N} (hphase : call.phase ≠ .released) (n : N) :
    call.holds n = owed call.nodeID (call.msgSize - call.bytesNeeded) n := by
  simp [Call.holds, owed, hphase, eq_comm]

/-- The call waits for bytes. -/
def Call.Waits (call : Call N) : Prop := call.phase = .blocked ∧ call.closed = false

variable {config : Config} {t : Throttler N} {i : ℕ} {call call' : Call N} {debt debt' : N → ℕ}

theorem bytesHeld_set (hcall : t.calls[i]? = some call) (call' : Call N) (n : N) :
    Throttler.bytesHeld { t with calls := t.calls.set i call' } n + call.holds n = t.bytesHeld n + call'.holds n :=
  sum_map_set hcall call' (Call.holds n)

variable {c : Call N}

section Lists

omit [DecidableEq N]

variable {l : List (Call N)} {P : Call N → Prop} (hnew : P call') (hold : ∀ c ∈ l, P c)

include hnew hold

theorem forall_mem_set : ∀ c ∈ l.set i call', P c := by
  intro c hc
  rcases List.mem_or_eq_of_mem_set hc with hc | rfl
  · exact hold c hc
  · exact hnew

theorem forall_mem_concat : ∀ c ∈ l ++ [call'], P c := by
  rw [List.forall_mem_append, List.forall_mem_singleton]
  exact ⟨hold, hnew⟩

end Lists

namespace Throttler

/-- The accounts after one call changed. -/
theorem Accounts.set (h : t.Accounts config debt) (hcall : t.calls[i]? = some call)
    (hneeded : call'.bytesNeeded ≤ call'.msgSize) (hdebt : ∀ n, call.holds n + debt n = call'.holds n + debt' n) :
    Accounts config { t with calls := t.calls.set i call' } debt' :=
  { h with
    held := by
      intro n
      have hset := bytesHeld_set hcall call' n
      have hheld := h.held n
      have := hdebt n
      show t.atLarge.held n + t.vdr.held n = _
      omega
    needed := forall_mem_set hneeded h.needed }

variable {j : ℕ}

/-- A call that is blocked after a change was blocked, with the same ID. -/
theorem blocked_of_set (hcall : t.calls[i]? = some call) (hid : call'.msgID = call.msgID)
    (hblocked : call'.phase = .blocked → call.phase = .blocked)
    (hj : (t.calls.set i call')[j]? = some c) (hc : c.phase = .blocked) :
    ∃ c₀, t.calls[j]? = some c₀ ∧ c₀.phase = .blocked ∧ c₀.msgID = c.msgID := by
  rw [getElem?_set_of_some hcall] at hj
  split at hj
  next heq =>
    subst heq
    cases hj
    exact ⟨call, hcall, hblocked hc, hid.symm⟩
  next => exact ⟨c, hj, hc, rfl⟩

theorem Queue.ids_set (h : t.Queue) (hcall : t.calls[i]? = some call)
    (hid : call'.msgID = call.msgID) (hblocked : call'.phase = .blocked → call.phase = .blocked)
    {k : ℕ} {d : Call N} (hj : (t.calls.set i call')[j]? = some c)
    (hk : (t.calls.set i call')[k]? = some d) (hc : c.phase = .blocked) (hd : d.phase = .blocked)
    (hids : c.msgID = d.msgID) : j = k := by
  rcases blocked_of_set hcall hid hblocked hj hc with ⟨c₀, hj₀, hc₀, hcid⟩
  rcases blocked_of_set hcall hid hblocked hk hd with ⟨d₀, hk₀, hd₀, hdid⟩
  exact h.ids j k c₀ d₀ hj₀ hk₀ hc₀ hd₀ (by rw [hcid, hdid, hids])

/-- The queue after a change that does not concern it. -/
theorem Queue.set (h : t.Queue) (hcall : t.calls[i]? = some call) (hnode : call'.nodeID = call.nodeID)
    (hid : call'.msgID = call.msgID) (hwaits : call'.Waits ↔ call.Waits)
    (hblocked : call'.phase = .blocked → call.phase = .blocked)
    (hwhole : call'.phase = .acquired ∨ call'.closed = true → call'.bytesNeeded = 0)
    (haccepted : call'.phase ≠ .refused) : Queue { t with calls := t.calls.set i call' } where
  waiting msgID j hj := by
    rcases h.waiting msgID j hj with ⟨c, hc, hphase, hclosed, hmsgID⟩
    rw [getElem?_set_of_some hcall]
    split
    next heq =>
      subst heq
      rw [hcall] at hc
      cases hc
      rcases hwaits.mpr ⟨hphase, hclosed⟩ with ⟨hphase', hclosed'⟩
      exact ⟨call', rfl, hphase', hclosed', hid.trans hmsgID⟩
    next => exact ⟨c, hc, hphase, hclosed, hmsgID⟩
  queued j c hj hphase hclosed := by
    rw [getElem?_set_of_some hcall] at hj
    split at hj
    next heq =>
      subst heq
      cases hj
      rcases hwaits.mp ⟨hphase, hclosed⟩ with ⟨hphase', hclosed'⟩
      rw [hid]
      exact h.queued i call hcall hphase' hclosed'
    next => exact h.queued j c hj hphase hclosed
  ids _ _ _ _ hj hk hc hd hids := h.ids_set hcall hid hblocked hj hk hc hd hids
  nodup := h.nodup
  nodes n msgID hlookup := by
    rcases h.nodes n msgID hlookup with ⟨j, c, hmem, hj, hn⟩
    by_cases heq : i = j
    · subst heq
      rw [hcall] at hj
      cases hj
      exact ⟨i, call', hmem, by rw [getElem?_set_of_some hcall, if_pos rfl], hnode.trans hn⟩
    · exact ⟨j, c, hmem, by rw [getElem?_set_of_some hcall, if_neg heq, hj], hn⟩
  whole := forall_mem_set hwhole h.whole
  accepted := forall_mem_set haccepted h.accepted

theorem Stalled.set (h : t.Stalled) (hphase : call'.phase ≠ .blocked) :
    Stalled { t with calls := t.calls.set i call' } :=
  forall_mem_set (fun hblocked => absurd hblocked hphase) h

/-- The queue after a blocked call left it. -/
theorem Queue.leave (h : t.Queue) (hcall : t.calls[i]? = some call) (hphase : call.phase = .blocked)
    (hid : call'.msgID = call.msgID) (hwaits : ¬ call'.Waits)
    (hwhole : call'.phase = .acquired ∨ call'.closed = true → call'.bytesNeeded = 0)
    (haccepted : call'.phase ≠ .refused) :
    Queue { t with
      nodeToWaitingMsgID := t.nodeToWaitingMsgID.erase call.nodeID
      waitingToAcquire := t.waitingToAcquire.filter (·.1 ≠ call.msgID)
      calls := t.calls.set i call' } where
  waiting msgID j hj := by
    rw [List.mem_filter, decide_eq_true_eq] at hj
    rcases h.waiting msgID j hj.1 with ⟨c, hc, hblocked, hclosed, hmsgID⟩
    have hne : i ≠ j := by
      intro heq
      subst heq
      rw [hcall] at hc
      cases hc
      exact hj.2 hmsgID.symm
    exact ⟨c, by rw [getElem?_set_of_some hcall, if_neg hne, hc], hblocked, hclosed, hmsgID⟩
  queued j c hj hblocked hclosed := by
    rw [getElem?_set_of_some hcall] at hj
    split at hj
    next =>
      cases hj
      exact absurd ⟨hblocked, hclosed⟩ hwaits
    next hne =>
      rw [List.mem_filter, decide_eq_true_eq]
      refine ⟨h.queued j c hj hblocked hclosed, fun heq => hne ?_⟩
      exact h.ids i j call c hcall hj hphase hblocked heq.symm
  ids _ _ _ _ hj hk hc hd hids := h.ids_set hcall hid (fun _ => hphase) hj hk hc hd hids
  nodup := h.nodup.sublist (List.filter_sublist.map _)
  nodes n msgID hlookup := by
    rw [lookup_erase_ite] at hlookup
    split at hlookup
    next => cases hlookup
    next hn =>
      rcases h.nodes n msgID hlookup with ⟨j, c, hmem, hj, hnode⟩
      rcases h.waiting msgID j hmem with ⟨c', hc', hblocked, -, hmsgID⟩
      rw [hj] at hc'
      cases hc'
      have hne : i ≠ j := by
        intro heq
        subst heq
        rw [hcall] at hj
        cases hj
        exact hn hnode.symm
      refine ⟨j, c, ?_, by rw [getElem?_set_of_some hcall, if_neg hne, hj], hnode⟩
      rw [List.mem_filter, decide_eq_true_eq]
      exact ⟨hmem, fun heq => hne (h.ids i j call c hcall hj hphase hblocked (by rw [hmsgID]; exact heq.symm))⟩
  whole := forall_mem_set hwhole h.whole
  accepted := forall_mem_set haccepted h.accepted

/-! ## Bytes are taken -/

section

variable (h : t.Accounts config debt)
include h

/-- The two pools have as many bytes as they were made with. -/
theorem Accounts.atLarge_le : t.atLarge.total ≤ maxUint64 := by
  rw [h.atLarge, maxUint64]
  have := config.atLargeAllocSize.toNat_lt
  omega

theorem Accounts.vdr_le : t.vdr.total ≤ maxUint64 := by
  rw [h.vdr, maxUint64]
  have := config.vdrAllocSize.toNat_lt
  omega

omit h in
/-- A part of a pool is taken, if there is one to take. -/
theorem takePart_ok {p : Pool N} {bytes : ℕ} (hbytes : bytes ≤ p.remaining) (htotal : p.total ≤ maxUint64) (nodeID : N) :
    ∃ p', (if 0 < bytes then do
        let p ← p.take Fault.overflow Fault.underflow nodeID bytes
        return (p, bytes)
      else return (p, 0)) = Except.ok (p', bytes) ∧
      p'.total = p.total ∧ p'.remaining = p.remaining - bytes ∧ ∀ n, p'.held n = p.held n + owed nodeID bytes n := by
  by_cases hpos : 0 < bytes
  · rcases Pool.take_ok Fault.overflow Fault.underflow (k := nodeID) hbytes htotal with ⟨p', hp, hrest⟩
    rw [if_pos hpos, hp]
    exact ⟨p', rfl, hrest⟩
  · obtain rfl : bytes = 0 := by omega
    exact ⟨p, rfl, rfl, rfl, fun n => by simp [owed]⟩

theorem Accounts.takeAtLarge_ok (nodeID : N) (bytesNeeded : ℕ) :
    ∃ p bytes, t.takeAtLarge nodeID bytesNeeded = .ok (p, bytes) ∧
      bytes = min bytesNeeded (min (t.nodeMaxAtLargeBytes - t.atLarge.held nodeID) t.atLarge.remaining) ∧
      p.total = t.atLarge.total ∧ p.remaining = t.atLarge.remaining - bytes ∧
      ∀ n, p.held n = t.atLarge.held n + owed nodeID bytes n := by
  have hlimit : checkedSub Fault.underflow t.nodeMaxAtLargeBytes (t.atLarge.held nodeID) =
      .ok (t.nodeMaxAtLargeBytes - t.atLarge.held nodeID) := if_neg (not_lt.mpr (h.limit nodeID))
  unfold takeAtLarge
  rw [hlimit, ok_bind]
  rcases takePart_ok ((Nat.min_le_right _ _).trans (Nat.min_le_right _ _)) h.atLarge_le nodeID with ⟨p, hp, hrest⟩
  exact ⟨p, _, hp, rfl, hrest⟩

theorem Accounts.takeVdr_ok (nodeID : N) (bytesNeeded vdrAllocationSize : ℕ) :
    ∃ p bytes, t.takeVdr nodeID bytesNeeded vdrAllocationSize = .ok (p, bytes) ∧ bytes ≤ bytesNeeded ∧
      p.total = t.vdr.total ∧ ∀ n, p.held n = t.vdr.held n + owed nodeID bytes n := by
  rcases takePart_ok (Nat.min_le_left _ _) h.vdr_le nodeID with ⟨p, hp, htotal, -, hheld⟩
  exact ⟨p, _, hp, (Nat.min_le_right _ _).trans (Nat.min_le_left _ _), htotal, hheld⟩

/-! ## A new call -/

variable {p q : Pool N}

/-- The accounts after a call took bytes of both pools. -/
theorem Accounts.append {a b : ℕ} (hp : p.total = t.atLarge.total)
    (hq : q.total = t.vdr.total) (ha : a ≤ t.nodeMaxAtLargeBytes - t.atLarge.held c.nodeID)
    (hpheld : ∀ n, p.held n = t.atLarge.held n + owed c.nodeID a n)
    (hqheld : ∀ n, q.held n = t.vdr.held n + owed c.nodeID b n) (hphase : c.phase ≠ .released)
    (hneeded : c.bytesNeeded + a + b = c.msgSize) {nextMsgID : UInt64}
    {nodeToWaitingMsgID : AList fun _ : N => UInt64} {waitingToAcquire : List (UInt64 × ℕ)} :
    Accounts config { t with
      atLarge := p
      vdr := q
      nextMsgID := nextMsgID
      nodeToWaitingMsgID := nodeToWaitingMsgID
      waitingToAcquire := waitingToAcquire
      calls := t.calls ++ [c] } debt where
  limitOf := h.limitOf
  atLarge := hp.trans h.atLarge
  vdr := hq.trans h.vdr
  limit n := by
    have hlimit := h.limit n
    dsimp only
    rw [hpheld]
    unfold owed
    split
    next heq =>
      rw [heq] at hlimit ⊢
      omega
    next => exact hlimit
  held n := by
    have hheld := h.held n
    have hbytes : bytesHeld { t with calls := t.calls ++ [c] } n = t.bytesHeld n + c.holds n := by simp [bytesHeld]
    have hc : c.holds n = owed c.nodeID a n + owed c.nodeID b n := by
      rw [Call.holds_eq_owed hphase]
      unfold owed
      split <;> omega
    show p.held n + q.held n = bytesHeld { t with calls := t.calls ++ [c] } n + debt n
    rw [hpheld, hqheld]
    omega
  needed := forall_mem_concat (by omega) h.needed

end

theorem getElem?_append_singleton {c' : Call N} (hj : (t.calls ++ [c])[j]? = some c') :
    t.calls[j]? = some c' ∨ j = t.calls.length ∧ c' = c := by
  rw [List.getElem?_append] at hj
  split at hj
  next => exact .inl hj
  next hge =>
    rcases List.getElem?_eq_some_iff.mp hj with ⟨hlt, heq⟩
    have hzero : j - t.calls.length = 0 := by simpa using hlt
    refine .inr ⟨by omega, ?_⟩
    rw [← heq]
    simp

theorem getElem?_append_of_some {c' : Call N} (hj : t.calls[j]? = some c') :
    (t.calls ++ [c])[j]? = some c' := by
  rw [List.getElem?_append_left (List.getElem?_eq_some_iff.mp hj).1, hj]

/-- The queue after a call that does not wait. -/
theorem Queue.append (h : t.Queue) (hphase : c.phase = .acquired) (hneeded : c.bytesNeeded = 0) :
    Queue { t with atLarge := p, vdr := q, calls := t.calls ++ [c] } where
  waiting msgID j hj := by
    rcases h.waiting msgID j hj with ⟨c', hc', hrest⟩
    exact ⟨c', getElem?_append_of_some hc', hrest⟩
  queued j c' hj hblocked hclosed := by
    rcases getElem?_append_singleton hj with hj | ⟨-, rfl⟩
    · exact h.queued j c' hj hblocked hclosed
    · rw [hphase] at hblocked
      cases hblocked
  ids j k c' d hj hk hc' hd hids := by
    rcases getElem?_append_singleton hj with hj | ⟨-, rfl⟩
    · rcases getElem?_append_singleton hk with hk | ⟨-, rfl⟩
      · exact h.ids j k c' d hj hk hc' hd hids
      · rw [hphase] at hd
        cases hd
    · rw [hphase] at hc'
      cases hc'
  nodup := h.nodup
  nodes n msgID hlookup := by
    rcases h.nodes n msgID hlookup with ⟨j, c', hmem, hj, hn⟩
    exact ⟨j, c', hmem, getElem?_append_of_some hj, hn⟩
  whole := forall_mem_concat (fun _ => hneeded) h.whole
  accepted := forall_mem_concat (by simp [hphase]) h.accepted

theorem Queue.msgID_ne (h : t.Queue) {msgID : UInt64}
    (hfresh : ∀ other ∈ t.calls, other.phase = .blocked → other.msgID ≠ msgID) :
    ∀ e ∈ t.waitingToAcquire, e.1 ≠ msgID := by
  rintro ⟨id, j⟩ he
  rcases h.waiting id j he with ⟨c, hc, hblocked, -, rfl⟩
  exact hfresh c (List.mem_of_getElem? hc) hblocked

/-- The queue after a call that waits, with an ID that no other one has. -/
theorem Queue.enqueue (h : t.Queue) (hphase : c.phase = .blocked) (hclosed : c.closed = false)
    (hfresh : ∀ other ∈ t.calls, other.phase = .blocked → other.msgID ≠ c.msgID) :
    Queue { t with
      atLarge := p
      vdr := q
      nextMsgID := c.msgID
      nodeToWaitingMsgID := t.nodeToWaitingMsgID.insert c.nodeID c.msgID
      waitingToAcquire := t.waitingToAcquire.filter (·.1 ≠ c.msgID) ++ [(c.msgID, t.calls.length)]
      calls := t.calls ++ [c] } := by
  have hfilter : t.waitingToAcquire.filter (·.1 ≠ c.msgID) = t.waitingToAcquire :=
    List.filter_eq_self.mpr fun e he => by simpa using h.msgID_ne hfresh e he
  have hlast : (t.calls ++ [c])[t.calls.length]? = some c := by simp
  rw [hfilter]
  refine ⟨?_, ?_, ?_, ?_, ?_, ?_, ?_⟩
  · intro msgID j hj
    rcases List.mem_append.mp hj with hj | hj
    · rcases h.waiting msgID j hj with ⟨c', hc', hrest⟩
      exact ⟨c', getElem?_append_of_some hc', hrest⟩
    · cases List.mem_singleton.mp hj
      exact ⟨c, hlast, hphase, hclosed, rfl⟩
  · intro j c' hj hblocked hopen
    rcases getElem?_append_singleton hj with hj | ⟨rfl, rfl⟩
    · exact List.mem_append_left _ (h.queued j c' hj hblocked hopen)
    · exact List.mem_append_right _ (List.mem_singleton.mpr rfl)
  · intro j k c' d hj hk hc' hd hids
    rcases getElem?_append_singleton hj with hold | ⟨rfl, rfl⟩ <;>
      rcases getElem?_append_singleton hk with hold' | ⟨rfl, rfl⟩
    · exact h.ids j k c' d hold hold' hc' hd hids
    · exact absurd hids (hfresh c' (List.mem_of_getElem? hold) hc')
    · exact absurd hids.symm (hfresh d (List.mem_of_getElem? hold') hd)
    · rfl
  · rw [List.map_append, List.map_singleton, ← List.concat_eq_append]
    refine List.Nodup.concat (fun hid => ?_) h.nodup
    rcases List.mem_map.mp hid with ⟨e, he, heq⟩
    exact h.msgID_ne hfresh e he heq
  · intro n msgID hlookup
    rw [lookup_insert_ite] at hlookup
    split at hlookup
    next hn =>
      cases hlookup
      exact ⟨t.calls.length, c, List.mem_append_right _ (List.mem_singleton.mpr rfl), hlast, hn.symm⟩
    next =>
      rcases h.nodes n msgID hlookup with ⟨j, c', hmem, hj, hn⟩
      exact ⟨j, c', List.mem_append_left _ hmem, getElem?_append_of_some hj, hn⟩
  · exact forall_mem_concat (by simp [hphase, hclosed]) h.whole
  · exact forall_mem_concat (by simp [hphase]) h.accepted

/-! ## `Acquire` -/

/-- Everything holds between two steps. -/
structure Sound (config : Config) (t : Throttler N) : Prop where
  accounts : t.Accounts config fun _ => 0
  queue : t.Queue
  stalled : t.Stalled

section Taken

variable {p : Pool N} {nodeID : N} {bytes : ℕ} (hremaining : p.remaining = t.atLarge.remaining - bytes)
  (hheld : ∀ n, p.held n = t.atLarge.held n + owed nodeID bytes n)

include hremaining hheld

/-- A pool from which bytes were taken has no more for those for whom it had nothing. -/
theorem stuck_of_take
    (hbytes : bytes ≤ t.nodeMaxAtLargeBytes - t.atLarge.held nodeID) {n : N} (hstuck : t.Stuck n) :
    p.remaining = 0 ∨ p.held n = t.nodeMaxAtLargeBytes := by
  rcases hstuck with hempty | hfull
  · left
    omega
  · right
    rw [hheld, hfull]
    unfold owed
    split
    next heq =>
      rw [← heq] at hbytes
      omega
    next => rfl

/-- A message that did not get all that it needs has nothing more to get. -/
theorem Accounts.stuck_of_lt (h : t.Accounts config debt) {bytesNeeded : ℕ}
    (hbytes : bytes = min bytesNeeded (min (t.nodeMaxAtLargeBytes - t.atLarge.held nodeID) t.atLarge.remaining))
    (hlt : bytes < bytesNeeded) : p.remaining = 0 ∨ p.held nodeID = t.nodeMaxAtLargeBytes := by
  have hlimit := h.limit nodeID
  have hown := hheld nodeID
  rw [owed, if_pos rfl] at hown
  omega

end Taken

/-- A message of no bytes comes when there is nothing for its node, and no call that is blocked
has the next ID. -/
def Meets (t : Throttler N) : Event N → Prop
  | .acquire nodeID msgSize _ =>
    (msgSize = 0 → t.Stuck nodeID) ∧ ∀ call ∈ t.calls, call.phase = .blocked → call.msgID ≠ t.nextMsgID + 1
  | _ => True

instance (t : Throttler N) (nodeID : N) : Decidable (t.Stuck nodeID) := inferInstanceAs (Decidable (_ ∨ _))

instance (t : Throttler N) : (event : Event N) → Decidable (t.Meets event)
  | .acquire nodeID msgSize _ => inferInstanceAs (Decidable ((msgSize = 0 → t.Stuck nodeID) ∧ ∀ call ∈ t.calls, _))
  | .wake _ => inferInstanceAs (Decidable True)
  | .cancel _ => inferInstanceAs (Decidable True)
  | .release _ => inferInstanceAs (Decidable True)

theorem Sound.acquire_ok (h : t.Sound config) {nodeID : N} {msgSize vdrAllocationSize : ℕ}
    (henabled : ¬ t.Waiting nodeID) (hmeets : t.Meets (.acquire nodeID msgSize vdrAllocationSize)) :
    ∃ t', t.acquire nodeID msgSize vdrAllocationSize = .ok t' ∧ t'.Sound config := by
  have hlookup : t.nodeToWaitingMsgID.lookup nodeID = none := by
    rcases hmsg : t.nodeToWaitingMsgID.lookup nodeID with _ | msgID
    · rfl
    · rcases h.queue.nodes nodeID msgID hmsg with ⟨j, c, hmem, hj, hn⟩
      rcases h.queue.waiting msgID j hmem with ⟨c', hj', hblocked, hclosed, -⟩
      rw [hj] at hj'
      cases hj'
      exact absurd ⟨c, List.mem_of_getElem? hj, hn, hblocked, hclosed⟩ henabled
  rcases h.accounts.takeAtLarge_ok nodeID msgSize with ⟨p, a, htake, ha, hptotal, hpremaining, hpheld⟩
  rcases h.accounts.takeVdr_ok nodeID (msgSize - a) vdrAllocationSize with ⟨q, b, htakeVdr, hb, hqtotal, hqheld⟩
  have hold : ∀ call ∈ t.calls, call.phase = .blocked → call.closed = false →
      p.remaining = 0 ∨ p.held call.nodeID = t.nodeMaxAtLargeBytes := by
    intro call hcall hblocked hclosed
    refine stuck_of_take hpremaining hpheld ?_ (h.stalled call hcall hblocked hclosed)
    omega
  have hstalled : ∀ c : Call N,
      (c.phase = .blocked → c.closed = false → p.remaining = 0 ∨ p.held c.nodeID = t.nodeMaxAtLargeBytes) →
      ∀ call ∈ t.calls ++ [c], call.phase = .blocked → call.closed = false →
        p.remaining = 0 ∨ p.held call.nodeID = t.nodeMaxAtLargeBytes :=
    fun _ hc => forall_mem_concat hc hold
  unfold acquire
  rw [hlookup, htake]
  simp only [Option.isSome_none, Bool.false_eq_true, if_false, ok_bind]
  by_cases hall : 0 < a ∧ msgSize - a = 0
  · rw [if_pos hall]
    refine ⟨_, rfl, ?_, ?_, ?_⟩
    · have hzero : ∀ n, t.vdr.held n = t.vdr.held n + owed nodeID 0 n := by
        intro n
        simp [owed]
      exact h.accounts.append hptotal rfl (by dsimp only; omega) hpheld hzero (by simp) (by dsimp only; omega)
    · exact h.queue.append rfl hall.2
    · refine hstalled _ fun hblocked => ?_
      cases hblocked
  · rw [if_neg hall, htakeVdr, ok_bind]
    by_cases hall' : 0 < b ∧ msgSize - a - b = 0
    · rw [if_pos hall']
      refine ⟨_, rfl, ?_, ?_, ?_⟩
      · exact h.accounts.append hptotal hqtotal (by dsimp only; omega) hpheld hqheld (by simp) (by dsimp only; omega)
      · exact h.queue.append rfl hall'.2
      · refine hstalled _ fun hblocked => ?_
        cases hblocked
    · rw [if_neg hall']
      refine ⟨_, rfl, ?_, ?_, ?_⟩
      · exact h.accounts.append hptotal hqtotal (by dsimp only; omega) hpheld hqheld (by simp) (by dsimp only; omega)
      · exact h.queue.enqueue (c := ⟨nodeID, msgSize, msgSize - a - b, t.nextMsgID + 1, false, .blocked⟩) rfl rfl
          hmeets.2
      · refine hstalled _ fun _ _ => ?_
        -- A message that waits needs bytes, unless it is one of no bytes.
        by_cases hzero : msgSize = 0
        · exact stuck_of_take hpremaining hpheld (by omega) (hmeets.1 hzero)
        · exact h.accounts.stuck_of_lt hpremaining hpheld ha (by omega)

end Throttler

end Titan.Network
