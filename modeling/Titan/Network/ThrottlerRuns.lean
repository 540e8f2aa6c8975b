import Titan.Network.ThrottlerInvariant

/-!
# Titan.Network.ThrottlerRuns — every interleaving conserves bytes

The other steps keep what holds between steps, and so do runs of all of them
(`throttler_conserves`): whatever the order in which nodes acquire, are cancelled and
release, as long as messages have bytes. One of no bytes waits although there are bytes
for it (`throttler_strands_empty`).
-/

namespace Titan.Network

open Lib

variable {N : Type} [DecidableEq N] {config : Config} {t : Throttler N} {i : ℕ} {call : Call N} {debt : N → ℕ}

namespace Throttler

variable {t' : Throttler N}

/-! ## Calls that go on -/

theorem Sound.wake_ok (h : t.Sound config) (hcall : t.calls[i]? = some call) (hphase : call.phase = .blocked)
    (hclosed : call.closed = true) : (t.wake i call).Sound config := by
  have hmem := List.mem_of_getElem? hcall
  refine ⟨?_, ?_, ?_⟩
  · refine h.accounts.set hcall (h.accounts.needed call hmem) fun n => ?_
    simp [Call.holds, hphase]
  · refine h.queue.set hcall rfl rfl ?_ ?_ ?_ ?_
    · simp [Call.Waits, hclosed]
    · intro hblocked
      cases hblocked
    · intro _
      exact h.queue.whole call hmem (.inr hclosed)
    · simp
  · exact h.stalled.set (by simp)

theorem Sound.cancel_ok (h : t.Sound config) (hcall : t.calls[i]? = some call) (hphase : call.phase = .blocked) :
    (t.cancel i call).Sound config := by
  have hmem := List.mem_of_getElem? hcall
  refine ⟨?_, ?_, ?_⟩
  · have hset : Accounts config { t with calls := t.calls.set i { call with phase := .cancelled } } fun _ => 0 := by
      refine h.accounts.set hcall (h.accounts.needed call hmem) fun n => ?_
      simp [Call.holds, hphase]
    exact { hset with }
  · refine h.queue.leave hcall hphase rfl ?_ ?_ ?_
    · simp [Call.Waits]
    · rintro (hacquired | hclosed)
      · cases hacquired
      · exact h.queue.whole call hmem (.inr hclosed)
    · simp
  · exact h.stalled.set (by simp)

/-! ## Bytes are handed on -/

/-- A message that waits got bytes, and may have left the queue. -/
structure Gave (t t' : Throttler N) (i : ℕ) (msgID : UInt64) (bytes : ℕ) (call : Call N) : Prop where
  max : t'.nodeMaxAtLargeBytes = t.nodeMaxAtLargeBytes
  atLarge : t'.atLarge = t.atLarge
  vdr : t'.vdr = t.vdr
  others : ∀ e ∈ t.waitingToAcquire, e.1 ≠ msgID → e ∈ t'.waitingToAcquire
  waits : ∀ j c', t'.calls[j]? = some c' → c'.Waits → ∃ c, t.calls[j]? = some c ∧ c.Waits ∧
    c.nodeID = c'.nodeID ∧ c.msgID = c'.msgID ∧ (i = j → bytes < call.bytesNeeded)

variable {bytes : ℕ}

theorem give_ok (haccounts : t.Accounts config fun n => debt n + owed call.nodeID bytes n)
    (hqueue : t.Queue) (hcall : t.calls[i]? = some call) (hwaits : call.Waits)
    (hbytes : bytes ≤ call.bytesNeeded) :
    ∃ t', t.give call.nodeID call.msgID i call bytes = .ok t' ∧ t'.Accounts config debt ∧ t'.Queue ∧
      t.Gave t' i call.msgID bytes call := by
  have hmem := List.mem_of_getElem? hcall
  have hneeded := haccounts.needed call hmem
  rcases hwaits with ⟨hphase, hopen⟩
  -- What the message gets is what its node owed.
  have hdebt : ∀ (closed : Bool) n, call.holds n + (debt n + owed call.nodeID bytes n) =
      Call.holds n { call with bytesNeeded := call.bytesNeeded - bytes, closed := closed } + debt n := by
    intro closed n
    have hreleased : call.phase ≠ .released := by
      rw [hphase]
      simp
    rw [Call.holds_eq_owed hreleased, Call.holds_eq_owed (by exact hreleased)]
    unfold owed
    dsimp only
    split <;> omega
  unfold give
  by_cases hall : call.bytesNeeded - bytes = 0
  · rw [if_pos hall, hopen]
    refine ⟨_, rfl, ?_, ?_, rfl, rfl, rfl, ?_, ?_⟩
    · have hset : Accounts config { t with
          calls := t.calls.set i { call with bytesNeeded := call.bytesNeeded - bytes, closed := true } } debt :=
        haccounts.set hcall (by dsimp only; omega) (hdebt true)
      exact { hset with }
    · refine hqueue.leave hcall hphase rfl ?_ (fun _ => hall) ?_
      · simp [Call.Waits]
      · rw [hphase]
        simp
    · intro e he hne
      rw [List.mem_filter, decide_eq_true_eq]
      exact ⟨he, hne⟩
    · intro j c' hj hwaits'
      rw [getElem?_set_of_some hcall] at hj
      split at hj
      next =>
        cases hj
        exact absurd hwaits'.2 (by simp)
      next hne => exact ⟨c', hj, hwaits', rfl, rfl, fun heq => absurd heq hne⟩
  · rw [if_neg hall]
    refine ⟨_, rfl, ?_, ?_, rfl, rfl, rfl, ?_, ?_⟩
    · exact haccounts.set hcall (by dsimp only; omega) (hdebt call.closed)
    · refine hqueue.set hcall rfl rfl Iff.rfl id ?_ ?_
      · rw [hphase, hopen]
        simp
      · rw [hphase]
        simp
    · intro e he _
      exact he
    · intro j c' hj hwaits'
      rw [getElem?_set_of_some hcall] at hj
      split at hj
      next heq =>
        subst heq
        cases hj
        exact ⟨call, hcall, ⟨hphase, hopen⟩, rfl, rfl, fun _ => by omega⟩
      next hne => exact ⟨c', hj, hwaits', rfl, rfl, fun heq => absurd heq hne⟩

variable {p : Pool N}

/-- The accounts after bytes of the shared pool moved to a node, to be given to one of its messages. -/
theorem Accounts.take (h : t.Accounts config debt) {nodeID : N} (htotal : p.total = t.atLarge.total)
    (hbytes : bytes ≤ t.nodeMaxAtLargeBytes - t.atLarge.held nodeID)
    (hheld : ∀ n, p.held n = t.atLarge.held n + owed nodeID bytes n) :
    Accounts config { t with atLarge := p } fun n => debt n + owed nodeID bytes n where
  limitOf := h.limitOf
  atLarge := htotal.trans h.atLarge
  vdr := h.vdr
  limit n := by
    have hlimit := h.limit n
    dsimp only
    rw [hheld]
    unfold owed
    split
    next heq =>
      rw [heq] at hlimit ⊢
      omega
    next => exact hlimit
  held n := by
    have hold := h.held n
    show p.held n + t.vdr.held n = t.bytesHeld n + (debt n + owed nodeID bytes n)
    rw [hheld]
    omega
  needed := h.needed

/-- What the loop over the queue relies on. The messages that it passed have nothing more to get, and
no more is handed out than a node returned: either there was nothing before, or all nodes that wait
were at their limits. -/
structure Passing (t : Throttler N) (rest : List (UInt64 × ℕ)) (n : N) (toReturn : ℕ) : Prop where
  queued : ∀ e ∈ rest, e ∈ t.waitingToAcquire
  nodup : (rest.map Prod.fst).Nodup
  passed : t.atLarge.remaining = 0 ∨ ∀ (j : ℕ) (c : Call N), t.calls[j]? = some c → c.Waits → (c.msgID, j) ∈ rest ∨
    t.atLarge.held c.nodeID = t.nodeMaxAtLargeBytes
  enough : t.atLarge.remaining ≤ toReturn ∨
    ∀ (j : ℕ) (c : Call N), t.calls[j]? = some c → c.Waits →
      (c.nodeID ≠ n → t.atLarge.held c.nodeID = t.nodeMaxAtLargeBytes) ∧
      (c.nodeID = n → t.nodeMaxAtLargeBytes - t.atLarge.held n ≤ toReturn)

variable {n : N}

variable {rest : List (UInt64 × ℕ)} {toReturn : ℕ}

/-- A message gets no more than was returned. -/
theorem Passing.le_toReturn (h : t.Passing rest n toReturn) (hcall : t.calls[i]? = some call)
    (hwaits : call.Waits)
    (hbytes : bytes = min call.bytesNeeded (min (t.nodeMaxAtLargeBytes - t.atLarge.held call.nodeID) t.atLarge.remaining)) :
    bytes ≤ toReturn := by
  rcases h.enough with hle | hlimits
  · omega
  · rcases hlimits i call hcall hwaits with ⟨hothers, hown⟩
    by_cases hnode : call.nodeID = n
    · have := hown hnode
      rw [hnode] at hbytes
      omega
    · have := hothers hnode
      omega

/-- The loop goes on after a message got bytes. -/
theorem Passing.next (h : t.Passing ((call.msgID, i) :: rest) n toReturn)
    (haccounts : t.Accounts config debt) (hcall : t.calls[i]? = some call) (hwaits : call.Waits)
    (hbytes : bytes = min call.bytesNeeded (min (t.nodeMaxAtLargeBytes - t.atLarge.held call.nodeID) t.atLarge.remaining))
    (hremaining : p.remaining = t.atLarge.remaining - bytes)
    (hheld : ∀ m, p.held m = t.atLarge.held m + owed call.nodeID bytes m)
    (hgave : Gave { t with atLarge := p } t' i call.msgID bytes call) :
    t'.Passing rest n (toReturn - bytes) := by
  have hmax : t'.nodeMaxAtLargeBytes = t.nodeMaxAtLargeBytes := hgave.max
  have hatLarge : t'.atLarge = p := hgave.atLarge
  have hnodup := List.nodup_cons.mp h.nodup
  constructor
  · intro e he
    refine hgave.others e (h.queued e (List.mem_cons_of_mem _ he)) fun heq => hnodup.1 ?_
    show call.msgID ∈ rest.map Prod.fst
    rw [← heq]
    exact List.mem_map_of_mem he
  · exact hnodup.2
  · rw [hatLarge, hmax]
    by_cases hempty : p.remaining = 0
    · exact .inl hempty
    · refine .inr fun j c' hj hwaits' => ?_
      rcases hgave.waits j c' hj hwaits' with ⟨c, hc, hcwaits, hnode, hid, hlt⟩
      by_cases hij : i = j
      · -- It is the one that got bytes, and it still waits: its node is at the limit.
        subst hij
        have hcc : c = call := by
          have hc' : t.calls[i]? = some c := hc
          rw [hcall] at hc'
          exact (Option.some.inj hc').symm
        rcases haccounts.stuck_of_lt hremaining hheld hbytes (hlt rfl) with hzero | hfull
        · exact absurd hzero hempty
        · right
          rw [← hnode, hcc]
          exact hfull
      · rcases h.passed with hzero | hpassed
        · exact absurd (by omega) hempty
        · rw [← hnode, ← hid]
          rcases hpassed j c hc hcwaits with hmem | hfull
          · rcases List.mem_cons.mp hmem with heq | hmem
            · exact absurd (congrArg Prod.snd heq).symm hij
            · exact .inl hmem
          · right
            rcases stuck_of_take hremaining hheld (by omega) (.inr hfull) with hzero | hfull'
            · exact absurd hzero hempty
            · exact hfull'
  · rw [hatLarge, hmax]
    rcases h.enough with hsmall | hlimits
    · left
      omega
    · refine .inr fun j c' hj hwaits' => ?_
      rcases hgave.waits j c' hj hwaits' with ⟨c, hc, hcwaits, hnode, -, -⟩
      rcases hlimits j c hc hcwaits with ⟨hothers, hown⟩
      rw [← hnode]
      constructor
      · intro hne
        have hfull := hothers hne
        rw [hheld, hfull]
        unfold owed
        split
        next heq =>
          rw [heq] at hfull
          omega
        next => rfl
      · intro heq
        have := hown heq
        rw [hheld]
        unfold owed
        split
        next => omega
        next hne =>
          have := (hlimits i call hcall hwaits).1 (Ne.symm hne)
          omega

/-- The loop hands bytes on until there are none or no message can get any. -/
theorem handOut_ok (haccounts : t.Accounts config debt) (hqueue : t.Queue)
    (hpassing : t.Passing rest n toReturn) :
    ∃ t', t.handOut rest toReturn = .ok t' ∧ t'.Accounts config debt ∧ t'.Queue ∧ t'.Stalled ∧ t'.vdr = t.vdr := by
  induction rest generalizing t toReturn with
  | nil =>
    refine ⟨t, rfl, haccounts, hqueue, fun c hc hblocked hopen => ?_, rfl⟩
    rcases hpassing.passed with hempty | hpassed
    · exact .inl hempty
    · rcases List.mem_iff_getElem?.mp hc with ⟨j, hj⟩
      rcases hpassed j c hj ⟨hblocked, hopen⟩ with hmem | hfull
      · cases hmem
      · exact .inr hfull
  | cons e rest ih =>
    rcases e with ⟨msgID, i⟩
    unfold handOut
    by_cases hempty : t.atLarge.remaining = 0
    · rw [if_pos hempty]
      exact ⟨t, rfl, haccounts, hqueue, fun _ _ _ _ => .inl hempty, rfl⟩
    · rcases hqueue.waiting msgID i (hpassing.queued _ List.mem_cons_self) with ⟨c, hcall, hblocked, hopen, rfl⟩
      rcases haccounts.takeAtLarge_ok c.nodeID c.bytesNeeded with
        ⟨p, bytes, htake, hbytes, htotal, hremaining, hheld⟩
      have hle := hpassing.le_toReturn hcall ⟨hblocked, hopen⟩ hbytes
      have hsub : checkedSub Fault.underflow toReturn bytes = .ok (toReturn - bytes) := if_neg (by omega)
      have htaken := haccounts.take htotal (show bytes ≤ _ by omega) hheld
      rcases give_ok htaken (t := { t with atLarge := p })
        { hqueue with } hcall ⟨hblocked, hopen⟩ (by omega) with ⟨t', hgive, haccounts', hqueue', hgave⟩
      have hnext := hpassing.next haccounts hcall ⟨hblocked, hopen⟩ hbytes hremaining hheld hgave
      rcases ih haccounts' hqueue' hnext with ⟨t'', hout, haccounts'', hqueue'', hstalled, hvdr⟩
      refine ⟨t'', ?_, haccounts'', hqueue'', hstalled, hvdr.trans hgave.vdr⟩
      rw [if_neg hempty, hcall]
      dsimp only
      rw [htake, ok_bind, hsub, ok_bind, hgive, ok_bind]
      exact hout

theorem Accounts.debt_congr {debt' : N → ℕ} (h : t.Accounts config debt) (hdebt : ∀ n, debt n = debt' n) :
    t.Accounts config debt' := by
  rw [show debt' = debt from funext fun n => (hdebt n).symm]
  exact h

/-- Messages that wait do so for a reason as long as the shared pool stays as it is. -/
theorem Stalled.gave {msgID : UInt64} (h : t.Stalled) (hgave : t.Gave t' i msgID bytes call) :
    t'.Stalled := by
  intro c' hc' hblocked hopen
  rcases List.mem_iff_getElem?.mp hc' with ⟨j, hj⟩
  rcases hgave.waits j c' hj ⟨hblocked, hopen⟩ with ⟨c, hc, hcwaits, hnode, -, -⟩
  have hstuck := h c (List.mem_of_getElem? hc) hcwaits.1 hcwaits.2
  unfold Stuck at hstuck ⊢
  rw [hgave.atLarge, hgave.max, ← hnode]
  exact hstuck

/-- The message that `nodeToWaitingMsgID` leads to is one of the node that waits. -/
theorem Queue.find_node (h : t.Queue) {nodeID : N} {msgID : UInt64} {e : UInt64 × ℕ}
    (hlookup : t.nodeToWaitingMsgID.lookup nodeID = some msgID)
    (hfind : t.waitingToAcquire.find? (·.1 = msgID) = some e) :
    ∃ c, t.calls[e.2]? = some c ∧ c.Waits ∧ c.nodeID = nodeID ∧ c.msgID = msgID := by
  have hmem := List.mem_of_find?_eq_some hfind
  have hid : e.1 = msgID := by simpa using List.find?_some hfind
  rcases h.waiting e.1 e.2 hmem with ⟨c, hc, hblocked, hopen, hcid⟩
  rcases h.nodes nodeID msgID hlookup with ⟨k, d, hkmem, hk, hd⟩
  rcases h.waiting msgID k hkmem with ⟨d', hd', hdblocked, -, hdid⟩
  rw [hk] at hd'
  cases hd'
  have heq : e.2 = k := h.ids e.2 k c d hc hk hblocked hdblocked (by rw [hcid, hdid, hid])
  rw [heq, hk] at hc
  cases hc
  exact ⟨c, by rw [heq, hk], ⟨hblocked, hopen⟩, hd, hdid⟩

variable {v : ℕ}

/-- The node's own message takes over bytes that the node owes. -/
theorem handOver_ok (haccounts : t.Accounts config (owed n v)) (hqueue : t.Queue)
    (hstalled : t.Stalled) :
    ∃ t' v', t.handOver n v = .ok (t', v') ∧ t'.Accounts config (owed n v') ∧ t'.Queue ∧ t'.Stalled ∧
      t'.vdr = t.vdr ∧ v' ≤ v := by
  unfold handOver
  rcases hlookup : t.nodeToWaitingMsgID.lookup n with _ | msgID
  · exact ⟨t, v, rfl, haccounts, hqueue, hstalled, rfl, le_refl _⟩
  · dsimp only
    by_cases hv : v = 0
    · rw [if_pos hv]
      exact ⟨t, v, rfl, haccounts, hqueue, hstalled, rfl, le_refl _⟩
    · rw [if_neg hv]
      rcases hfind : t.waitingToAcquire.find? (·.1 = msgID) with _ | e
      · rw [hfind]
        exact ⟨t, v, rfl, haccounts, hqueue, hstalled, rfl, le_refl _⟩
      · rcases hqueue.find_node hlookup hfind with ⟨c, hc, hwaits, rfl, rfl⟩
        have hsplit : t.Accounts config fun m =>
            owed c.nodeID (v - min c.bytesNeeded v) m + owed c.nodeID (min c.bytesNeeded v) m := by
          refine haccounts.debt_congr fun m => ?_
          unfold owed
          split <;> omega
        rcases give_ok hsplit hqueue hc hwaits (Nat.min_le_left _ _) with ⟨t', hgive, haccounts', hqueue', hgave⟩
        refine ⟨t', v - min c.bytesNeeded v, ?_, haccounts', hqueue', hstalled.gave hgave, hgave.vdr, Nat.sub_le _ _⟩
        rw [hfind]
        dsimp only
        rw [hc]
        dsimp only
        rw [hgive]
        rfl

/-! ## `release` -/

/-- The accounts after a node gave back bytes that it owed. -/
theorem Accounts.giveBack_atLarge {a : ℕ} (h : t.Accounts config (owed n (a + v)))
    (htotal : p.total = t.atLarge.total) (ha : a ≤ t.atLarge.held n)
    (hheld : ∀ m, p.held m = t.atLarge.held m - owed n a m) :
    Accounts config { t with atLarge := p } (owed n v) :=
  { h with
    atLarge := htotal.trans h.atLarge
    limit := by
      intro m
      rw [hheld]
      exact (Nat.sub_le _ _).trans (h.limit m)
    held := by
      intro m
      have hold := h.held m
      have hle := owed_le ha m
      show p.held m + t.vdr.held m = t.bytesHeld m + owed n v m
      rw [owed_add] at hold
      rw [hheld]
      omega }

theorem Accounts.giveBack_vdr (h : t.Accounts config (owed n v)) (htotal : p.total = t.vdr.total)
    (hv : v ≤ t.vdr.held n) (hheld : ∀ m, p.held m = t.vdr.held m - owed n v m) :
    Accounts config { t with vdr := p } fun _ => 0 :=
  { h with
    vdr := htotal.trans h.vdr
    held := by
      intro m
      have hold := h.held m
      have hle := owed_le hv m
      show t.atLarge.held m + p.held m = t.bytesHeld m + 0
      rw [hheld]
      omega }

/-- What a call held is owed once it is released. -/
theorem Sound.mark_released (h : t.Sound config) (hcall : t.calls[i]? = some call)
    (hphase : call.phase = .acquired ∨ call.phase = .cancelled) :
    Accounts config { t with calls := t.calls.set i { call with phase := .released } }
      (owed call.nodeID (call.msgSize - call.bytesNeeded)) ∧
    Queue { t with calls := t.calls.set i { call with phase := .released } } ∧
    Stalled { t with calls := t.calls.set i { call with phase := .released } } := by
  have hmem := List.mem_of_getElem? hcall
  have hreleased : call.phase ≠ .released := by
    rcases hphase with hphase | hphase <;> rw [hphase] <;> simp
  have hblocked : call.phase ≠ .blocked := by
    rcases hphase with hphase | hphase <;> rw [hphase] <;> simp
  refine ⟨?_, ?_, ?_⟩
  · refine h.accounts.set hcall (h.accounts.needed call hmem) fun n => ?_
    rw [Call.holds_eq_owed hreleased]
    simp [Call.holds]
  · refine h.queue.set hcall rfl rfl ?_ ?_ ?_ ?_
    · simp [Call.Waits, hblocked]
    · intro heq
      cases heq
    · rintro (heq | hclosed)
      · cases heq
      · exact h.queue.whole call hmem (.inr hclosed)
    · simp
  · exact h.stalled.set (by simp)

/-- The bytes that a node gives back to the shared pool are handed out. -/
theorem returnAtLarge_ok {a : ℕ} (haccounts : t.Accounts config (owed n (a + v))) (hqueue : t.Queue)
    (hstalled : t.Stalled) (ha : a ≤ t.atLarge.held n) :
    ∃ t', t.returnAtLarge n a = .ok t' ∧ t'.Accounts config (owed n v) ∧ t'.Queue ∧ t'.Stalled ∧
      t'.vdr = t.vdr := by
  unfold returnAtLarge
  by_cases hpos : 0 < a
  · rcases Pool.giveBack_ok Fault.overflow Fault.underflow ha haccounts.atLarge_le with
      ⟨p, hp, htotal, hremaining, hheld⟩
    have hqueue' : Queue { t with atLarge := p } := { hqueue with }
    have hpassing : Passing { t with atLarge := p } t.waitingToAcquire n a := by
      refine ⟨fun e he => he, hqueue.nodup, .inr fun j c hj hwaits => ?_, ?_⟩
      · exact .inl (hqueue.queued j c hj hwaits.1 hwaits.2)
      · by_cases hempty : t.atLarge.remaining = 0
        · left
          show p.remaining ≤ a
          omega
        · refine .inr fun j c hj hwaits => ?_
          have hfull : t.atLarge.held c.nodeID = t.nodeMaxAtLargeBytes := by
            rcases hstalled c (List.mem_of_getElem? hj) hwaits.1 hwaits.2 with hzero | hfull
            · exact absurd hzero hempty
            · exact hfull
          constructor
          · intro hne
            rw [hheld, if_neg hne, hfull]
            rfl
          · intro heq
            rw [hheld, if_pos rfl, ← hfull, heq]
            omega
    rw [if_pos hpos, hp, ok_bind]
    exact handOut_ok (haccounts.giveBack_atLarge htotal ha hheld) hqueue' hpassing
  · have hzero : a + v = v := by omega
    rw [hzero] at haccounts
    rw [if_neg hpos]
    exact ⟨t, rfl, haccounts, hqueue, hstalled, rfl⟩

theorem returnVdr_ok (haccounts : t.Accounts config (owed n v)) (hqueue : t.Queue)
    (hstalled : t.Stalled) (hv : v ≤ t.vdr.held n) :
    ∃ t', t.returnVdr n v = .ok t' ∧ t'.Sound config := by
  unfold returnVdr
  by_cases hpos : 0 < v
  · rcases Pool.giveBack_ok Fault.overflow Fault.underflow hv haccounts.vdr_le with ⟨p, hp, htotal, -, hheld⟩
    rw [if_pos hpos, hp, ok_bind]
    exact ⟨_, rfl, haccounts.giveBack_vdr htotal hv hheld, { hqueue with }, hstalled⟩
  · rw [if_neg hpos]
    refine ⟨t, rfl, haccounts.debt_congr fun m => ?_, hqueue, hstalled⟩
    have hzero : v = 0 := by omega
    simp [owed, hzero]

theorem Sound.release_ok (h : t.Sound config) (hcall : t.calls[i]? = some call)
    (hphase : call.phase = .acquired ∨ call.phase = .cancelled) :
    ∃ t', t.release i call = .ok t' ∧ t'.Sound config := by
  have hneeded := h.accounts.needed call (List.mem_of_getElem? hcall)
  rcases h.mark_released hcall hphase with ⟨haccounts, hqueue, hstalled⟩
  have hsub : checkedSub Fault.underflow call.msgSize call.bytesNeeded = .ok (call.msgSize - call.bytesNeeded) :=
    if_neg (by omega)
  unfold release
  rw [hsub, ok_bind]
  dsimp only
  generalize hv : min (call.msgSize - call.bytesNeeded) (t.vdr.held call.nodeID) = v
  generalize ha : call.msgSize - call.bytesNeeded - v = a
  have hsplit : call.msgSize - call.bytesNeeded = a + v := by omega
  rw [hsplit] at haccounts
  -- The node owes these bytes, so that it has them.
  have hown := haccounts.held call.nodeID
  rw [owed, if_pos rfl] at hown
  dsimp only at hown
  rcases returnAtLarge_ok haccounts hqueue hstalled (by dsimp only; omega) with
    ⟨t₁, hreturn, haccounts₁, hqueue₁, hstalled₁, hvdr₁⟩
  rcases handOver_ok haccounts₁ hqueue₁ hstalled₁ with
    ⟨t₂, v', hover, haccounts₂, hqueue₂, hstalled₂, hvdr₂, hv'⟩
  have henough : v' ≤ t₂.vdr.held call.nodeID := by
    rw [hvdr₂, hvdr₁]
    dsimp only
    omega
  rcases returnVdr_ok haccounts₂ hqueue₂ hstalled₂ henough with ⟨t₃, hlast, hsound⟩
  refine ⟨t₃, ?_, hsound⟩
  rw [hreturn, ok_bind, hover, ok_bind]
  exact hlast

/-! ## Runs -/

theorem sound_new (config : Config) : (newInboundMsgByteThrottler config : Throttler N).Sound config := by
  refine ⟨⟨rfl, Pool.total_new _, Pool.total_new _, ?_, ?_, ?_⟩, ⟨?_, ?_, ?_, ?_, ?_, ?_, ?_⟩, ?_⟩
  all_goals simp [newInboundMsgByteThrottler, bytesHeld, Stalled]

theorem Sound.step_ok (h : t.Sound config) {event : Event N} (henabled : t.Enabled event) (hmeets : t.Meets event) :
    ∃ t', t.step event = .ok t' ∧ t'.Sound config := by
  cases event with
  | acquire nodeID msgSize vdrAllocationSize => exact h.acquire_ok henabled hmeets
  | wake i =>
    rcases henabled with ⟨call, hcall, hphase, hclosed⟩
    unfold step
    dsimp only
    rw [Option.mem_def.mp hcall]
    exact ⟨_, rfl, h.wake_ok hcall hphase hclosed⟩
  | cancel i =>
    rcases henabled with ⟨call, hcall, hphase⟩
    unfold step
    dsimp only
    rw [Option.mem_def.mp hcall]
    exact ⟨_, rfl, h.cancel_ok hcall hphase⟩
  | release i =>
    rcases henabled with ⟨call, hcall, hphase⟩
    unfold step
    dsimp only
    rw [Option.mem_def.mp hcall]
    exact h.release_ok hcall hphase

theorem Sound.run_ok (h : t.Sound config) {events : List (Event N)} (hruns : Runs Meets t events) :
    ∃ t', t.run events = .ok t' ∧ t'.Sound config := by
  induction events generalizing t with
  | nil => exact ⟨t, rfl, h⟩
  | cons event events ih =>
    rcases hruns with ⟨henabled, hmeets, hrest⟩
    rcases h.step_ok henabled hmeets with ⟨t', hstep, hsound⟩
    rw [hstep] at hrest
    rcases ih hsound hrest with ⟨t'', hrun, hsound'⟩
    refine ⟨t'', ?_, hsound'⟩
    rw [run, List.foldlM_cons, hstep, ok_bind]
    exact hrun

/-- Bytes are where they should be, calls that returned have theirs, and messages wait for a reason. -/
structure Conserves (config : Config) (t : Throttler N) : Prop where
  atLarge : sumValues t.atLarge.used + t.atLarge.remaining = config.atLargeAllocSize.toNat
  vdr : sumValues t.vdr.used + t.vdr.remaining = config.vdrAllocSize.toNat
  limit : ∀ nodeID, t.atLarge.held nodeID ≤ config.nodeMaxAtLargeBytes.toNat
  held : ∀ nodeID, t.atLarge.held nodeID + t.vdr.held nodeID =
    ((t.calls.filter fun call => call.nodeID = nodeID ∧ call.phase ≠ .released).map
      fun call => call.msgSize - call.bytesNeeded).sum
  acquired : ∀ call ∈ t.calls, call.phase = .acquired ∨ call.phase = .refused → call.bytesNeeded = 0
  waits : ∀ call ∈ t.calls, call.phase = .blocked → call.closed = false →
    t.atLarge.remaining = 0 ∨ t.atLarge.held call.nodeID = config.nodeMaxAtLargeBytes.toNat

theorem bytesHeld_eq (t : Throttler N) (nodeID : N) :
    t.bytesHeld nodeID = ((t.calls.filter fun call => call.nodeID = nodeID ∧ call.phase ≠ .released).map
      fun call => call.msgSize - call.bytesNeeded).sum := by
  unfold bytesHeld
  induction t.calls with
  | nil => rfl
  | cons call calls ih =>
    rw [List.map_cons, List.sum_cons, ih, List.filter_cons]
    unfold Call.holds
    by_cases h : call.nodeID = nodeID ∧ call.phase ≠ .released
    · rw [if_pos h, if_pos (by simpa using h), List.map_cons, List.sum_cons]
    · rw [if_neg h, if_neg (by simpa using h), Nat.zero_add]

theorem Sound.conserves (h : t.Sound config) : t.Conserves config where
  atLarge := h.accounts.atLarge
  vdr := h.accounts.vdr
  limit := by
    rw [← h.accounts.limitOf]
    exact h.accounts.limit
  held nodeID := by
    rw [← bytesHeld_eq]
    exact h.accounts.held nodeID
  acquired call hcall hphase := by
    rcases hphase with hphase | hphase
    · exact h.queue.whole call hcall (.inl hphase)
    · exact absurd hphase (h.queue.accepted call hcall)
  waits call hcall hblocked hopen := by
    rw [← h.accounts.limitOf]
    exact h.stalled call hcall hblocked hopen

end Throttler

/-- Whatever happens, in any order, bytes are conserved, no counter wraps around and no message waits
without a reason, if no message of no bytes comes while there are bytes for its node and no call that
is blocked has the next ID. -/
theorem throttler_conserves (config : Config) (events : List (Event N))
    (hruns : Runs Throttler.Meets (newInboundMsgByteThrottler config) events) :
    ∃ t, (newInboundMsgByteThrottler config).run events = .ok t ∧ t.Conserves config := by
  rcases (Throttler.sound_new config).run_ok hruns with ⟨t, hrun, hsound⟩
  exact ⟨t, hrun, hsound.conserves⟩

/-- A message gets the bytes that another one releases. -/
theorem throttler_conserves_two :
    ∃ t, (newInboundMsgByteThrottler ⟨4, 4, 3⟩ : Throttler ℕ).run
        [.acquire 0 3 0, .acquire 1 3 0, .release 0, .wake 1] = .ok t ∧ t.Conserves ⟨4, 4, 3⟩ :=
  throttler_conserves ⟨4, 4, 3⟩ [.acquire 0 3 0, .acquire 1 3 0, .release 0, .wake 1] (by decide)

/-- Bytes do not leak: once all messages are released, the pools are full again. -/
theorem throttler_regains_all {config : Config} {events : List (Event N)}
    (hruns : Runs Throttler.Meets (newInboundMsgByteThrottler config) events) {t : Throttler N}
    (hrun : (newInboundMsgByteThrottler config).run events = .ok t)
    (hreleased : ∀ call ∈ t.calls, call.phase = .released) :
    t.atLarge.remaining = config.atLargeAllocSize.toNat ∧ t.vdr.remaining = config.vdrAllocSize.toNat := by
  obtain ⟨_, hrun', h⟩ := (Throttler.sound_new config).run_ok hruns
  cases hrun.symm.trans hrun'
  have hheld : ∀ n, t.atLarge.held n = 0 ∧ t.vdr.held n = 0 := by
    intro n
    rw [← Nat.add_eq_zero_iff, h.accounts.held, Throttler.bytesHeld, List.sum_eq_zero]
    intro x hx
    rcases List.mem_map.mp hx with ⟨call, hcall, rfl⟩
    exact if_neg fun hholds => hholds.2 (hreleased call hcall)
  rw [← h.accounts.atLarge, ← h.accounts.vdr]
  exact ⟨Pool.remaining_of_held_zero fun n => (hheld n).1, Pool.remaining_of_held_zero fun n => (hheld n).2⟩

theorem throttler_regains_all_two :
    ∃ t : Throttler ℕ, t.calls.length = 2 ∧ t.atLarge.remaining = 4 := by
  have hruns : Runs Throttler.Meets (newInboundMsgByteThrottler ⟨4, 4, 3⟩ : Throttler ℕ)
    [.acquire 0 3 0, .acquire 1 3 0, .release 0, .wake 1, .release 1] := by decide
  exact ⟨_, rfl, (throttler_regains_all hruns rfl (by decide)).1⟩

/-- A message of no bytes waits although no byte is in use. -/
theorem throttler_strands_empty :
    Runs (fun _ _ => True) (newInboundMsgByteThrottler ⟨4, 4, 3⟩ : Throttler ℕ) [.acquire 0 0 0] ∧
      ∃ t, (newInboundMsgByteThrottler ⟨4, 4, 3⟩ : Throttler ℕ).run [.acquire 0 0 0] = .ok t ∧
        ¬ t.Conserves ⟨4, 4, 3⟩ := by
  refine ⟨by decide, _, rfl, fun h => ?_⟩
  have hwaits := h.waits ⟨0, 0, 0, 1, false, .blocked⟩ (by decide) rfl rfl
  revert hwaits
  decide

end Titan.Network
