import Titan.Bootstrap.Sessions

/-!
# Titan.Bootstrap.Restarts — bootstrapping through crashes and restarts

`Node.Inv` is kept by every event, and what a run accepts follows the last accepted block
without gaps. A restart asks for the parents of all gaps, and asking ends with no gap left.
-/

namespace Titan.Bootstrap

open Lib
open Database (Bytes)
open PChain (ID GoMap)

variable {V : Blocks} {C : Chain V} {tree : Tree}

/-! ## Runs -/

/-- The invariant of a node. -/
def Node.Inv (C : Chain V) (n : Node V) : Prop :=
  n.lastAccepted ≤ maxUint64 ∧
  match n.engine with
  | .down => Consistent C n.db
  | .fetching tree missingBlockIDs => Fetched C n.db n.lastAccepted ⟨tree, missingBlockIDs, []⟩ none
  | .looping tree e => Executing C n.db n.lastAccepted tree e
  | .accepting tree e blk => C.mem blk ∧ V.height blk = n.lastAccepted + 1 ∧
      Executing C n.db (V.height blk) tree e

/-- The blocks that arrive are ones of the chain. -/
def Event.OnChain (C : Chain V) : Event V → Prop
  | .want blkID => ∃ b, C.mem b ∧ V.id b = blkID
  | .process blk ancestors => C.mem blk ∧ ByID ancestors
  | _ => True

/-- The blocks accepted since `n` follow its last accepted block. -/
structure Extends (C : Chain V) (n n' : Node V) : Prop where
  accepted : ∃ blks, n'.accepted = n.accepted ++ blks ∧ (∀ b ∈ blks, C.mem b) ∧
    blks.map V.height = List.range' (n.lastAccepted + 1) blks.length ∧
    n'.lastAccepted = n.lastAccepted + blks.length

theorem Extends.same {n n' : Node V} (haccepted : n'.accepted = n.accepted)
    (hlast : n'.lastAccepted = n.lastAccepted) : Extends C n n' :=
  ⟨[], by rw [haccepted, List.append_nil], nofun, rfl, hlast⟩

theorem Extends.trans {n n' n'' : Node V} (h : Extends C n n') (h' : Extends C n' n'') : Extends C n n'' := by
  rcases h.accepted with ⟨blks, haccepted, hmem, hheights, hlast⟩
  rcases h'.accepted with ⟨blks', haccepted', hmem', hheights', hlast'⟩
  refine ⟨blks ++ blks', ?_, ?_, ?_, ?_⟩
  · rw [haccepted', haccepted, List.append_assoc]
  · intro b hb
    rcases List.mem_append.mp hb with hb | hb
    · exact hmem b hb
    · exact hmem' b hb
  · rw [List.map_append, hheights, hheights', List.length_append, hlast,
      Nat.add_right_comm, List.range'_append_1]
  · rw [hlast', hlast, List.length_append, Nat.add_assoc]

section Step

variable {n n' : Node V}

/-- One round of the loop of `execute`: a block that was accepted before is skipped, and
another one is the next of the chain. -/
theorem Executing.next_cases {e : Execution} (h : Executing C n.db n.lastAccepted tree e)
    {entry : ℕ × Bytes} {rest : List (ℕ × Bytes)} (hiterator : e.iterator = entry :: rest) :
    ∃ db' tree' e', e'.iterator = rest ∧
      (∀ x, Covers tree'.knownHeights x ↔ Covers tree.knownHeights x ∧ x ≠ entry.1) ∧
      ((n.next tree e = { n with db := db', engine := .looping tree' e' } ∧ entry.1 ≤ n.lastAccepted ∧
          Executing C db' n.lastAccepted tree' e') ∨
        ∃ blk, n.next tree e = { n with db := db', engine := .accepting tree' e' blk } ∧ C.mem blk ∧
          V.height blk = entry.1 ∧ entry.1 = n.lastAccepted + 1 ∧ Executing C db' entry.1 tree' e') := by
  rcases h.head hiterator with ⟨blk, hparse, hmem, hheight, -, -⟩
  rcases hremoved : Execution.removed { e with iterator := rest } n.db entry.1 (removeBlock tree entry.1).2
    with ⟨db', e'⟩
  rcases h.removed hiterator hremoved with ⟨hrest, hlast, hcovers, hold, hnew⟩
  refine ⟨db', (removeBlock tree entry.1).1, e', hrest, hcovers, ?_⟩
  unfold Node.next
  rw [hiterator]
  dsimp only
  rw [hparse]
  dsimp only
  rw [hheight, hremoved]
  by_cases hskip : entry.1 ≤ e'.lastAcceptedHeight
  · left
    rw [if_pos hskip]
    rw [hlast] at hskip
    exact ⟨rfl, hskip.trans h.started, hold hskip⟩
  · right
    rw [if_neg hskip]
    rcases hnew (by omega) with ⟨hnext, hexecuting⟩
    exact ⟨blk, rfl, hmem, hheight, hnext, hexecuting⟩

theorem Node.Inv.next {e : Execution} (hle : n.lastAccepted ≤ maxUint64)
    (h : Executing C n.db n.lastAccepted tree e) : (n.next tree e).Inv C ∧ Extends C n (n.next tree e) := by
  rcases hiterator : e.iterator with _ | ⟨entry, rest⟩
  · unfold Node.next
    rw [hiterator]
    exact ⟨⟨hle, h.returned⟩, Extends.same rfl rfl⟩
  · rcases h.next_cases hiterator with ⟨db', tree', e', -, -, hskipped | hfound⟩
    · rcases hskipped with ⟨hnext, -, hexecuting⟩
      rw [hnext]
      exact ⟨⟨hle, hexecuting⟩, Extends.same rfl rfl⟩
    · rcases hfound with ⟨blk, hnext, hmem, hheight, hlast, hexecuting⟩
      rw [hnext]
      refine ⟨⟨hle, hmem, hheight.trans hlast, ?_⟩, Extends.same rfl rfl⟩
      rw [hheight]
      exact hexecuting

/-- Fetching after `Bootstrapper.process`. -/
theorem Processed.after {db : DB} {lastAccepted : ℕ} {f f' : Fetch} {blk : V.Block} {missing : Option ID}
    (h : Processed C db lastAccepted f f' blk missing) :
    Fetched C (db.write f'.batch) lastAccepted
      ⟨f'.tree, (missing.elim f'.missingBlockIDs fun i => insert i f'.missingBlockIDs), []⟩ none := by
  rcases missing with _ | i
  · exact ⟨h.fetched.consistent, h.fetched.matched, h.fetched.onChain, h.fetched.wanted⟩
  · refine ⟨h.fetched.consistent, h.fetched.matched, ?_, ?_⟩
    · intro j hj
      rcases Finset.mem_insert.mp hj with rfl | hj
      · exact h.onChain j rfl
      · exact h.fetched.onChain j hj
    · intro u l hu hlt b hb hheight
      rcases h.fetched.wanted hu hlt hb hheight with hin | hid
      · exact .inl (Finset.mem_insert_of_mem hin)
      · exact .inl (Option.some.inj hid ▸ Finset.mem_insert_self _ _)

theorem Node.Inv.consistent (h : n.Inv C) : Consistent C n.db := by
  rcases h with ⟨-, hengine⟩
  split at hengine
  · exact hengine
  · exact hengine.consistent
  · exact hengine.disk
  · exact hengine.2.2.disk

theorem Node.Inv.step (event : Event V) (h : n.Inv C) (hevent : event.OnChain C)
    (hstep : n.step event = some n') : n'.Inv C ∧ Extends C n n' := by
  have hconsistent := h.consistent
  rcases h with ⟨hle, hengine⟩
  unfold Node.step at hstep
  split at hstep
  next hdown => -- start
    rcases getMissingBlockIDs_spec hconsistent (matches_newTree n.db) with ⟨ids, hids, hfetched⟩
    dsimp only at hstep
    rw [hids] at hstep
    cases hstep
    exact ⟨⟨hle, hfetched⟩, Extends.same rfl rfl⟩
  next blkID tree missing hfetching => -- want
    rw [hfetching] at hengine
    cases hstep
    refine ⟨⟨hle, hengine.consistent, hengine.matched, ?_, ?_⟩, Extends.same rfl rfl⟩
    · intro i hi
      rcases Finset.mem_insert.mp hi with rfl | hi
      · exact hevent
      · exact hengine.onChain i hi
    · intro u l hu hlt b hb hheight
      rcases hengine.wanted hu hlt hb hheight with hin | hnone
      · exact .inl (Finset.mem_insert_of_mem hin)
      · exact .inr hnone
  next blk ancestors tree missing hfetching => -- process
    rw [hfetching] at hengine
    rcases process_spec hevent.2 hevent.1 hengine with ⟨f', m, hprocess, hprocessed⟩
    rw [hprocess] at hstep
    have hafter := hprocessed.after
    rcases m with _ | i
    · cases hstep
      exact ⟨⟨hle, hafter⟩, Extends.same rfl rfl⟩
    · cases hstep
      exact ⟨⟨hle, hafter⟩, Extends.same rfl rfl⟩
  next tree missing hfetching => -- execute
    rw [hfetching] at hengine
    split at hstep
    next hempty =>
      cases hstep
      subst hempty
      exact ⟨⟨hle, Executing.new hengine⟩, Extends.same rfl rfl⟩
    next => cases hstep
  next tree e hlooping => -- halt
    rw [hlooping] at hengine
    cases hstep
    exact ⟨⟨hle, hengine.returned⟩, Extends.same rfl rfl⟩
  next tree e hlooping => -- next
    rw [hlooping] at hengine
    cases hstep
    exact Node.Inv.next hle hengine
  next tree e blk haccepting => -- accept
    rw [haccepting] at hengine
    rcases hengine with ⟨hmem, hheight, hexecuting⟩
    cases hstep
    refine ⟨⟨V.height_le blk, hexecuting⟩, [blk], rfl, ?_, ?_, hheight⟩
    · intro b hb
      exact List.mem_singleton.mp hb ▸ hmem
    · rw [List.map_singleton, hheight]
      rfl
  next tree e blk haccepting => -- a block that fails
    cases hstep
    exact ⟨⟨hle, hconsistent⟩, Extends.same rfl rfl⟩
  next => -- crash
    cases hstep
    exact ⟨⟨hle, hconsistent⟩, Extends.same rfl rfl⟩
  next => cases hstep

theorem Node.Inv.run {events : List (Event V)} (h : n.Inv C) (hevents : ∀ e ∈ events, e.OnChain C)
    (hrun : n.run events = some n') : n'.Inv C ∧ Extends C n n' := by
  induction events generalizing n with
  | nil =>
    cases hrun
    exact ⟨h, Extends.same rfl rfl⟩
  | cons event events ih =>
    rcases Option.bind_eq_some_iff.mp hrun with ⟨m, hstep, hrest⟩
    rcases h.step event (hevents event List.mem_cons_self) hstep with ⟨hm, hextends⟩
    rcases ih hm (fun e he => hevents e (List.mem_cons_of_mem _ he)) hrest with ⟨hn', hextends'⟩
    exact ⟨hn', hextends.trans hextends'⟩

end Step

/-! ## Fetching ends -/

section Fetches

variable {n n' : Node V} {missing : Finset ID}

/-- Blocks with their ancestors, as they arrive in response to requests. -/
abbrev Response (V : Blocks) := V.Block × GoMap ID V.Block

def Response.OnChain (C : Chain V) (r : Response V) : Prop := C.mem r.1 ∧ ByID r.2

/-- The responses are to requests for missing blocks. -/
def Fetches : Node V → List (Response V) → Node V → Prop
  | n, [], n' => n' = n
  | n, r :: rs, n' => ∃ tree missing m, n.engine = .fetching tree missing ∧ V.id r.1 ∈ missing ∧
      n.step (.process r.1 r.2) = some m ∧ Fetches m rs n'

open Classical in
/-- The number of heights that are not tracked and of blocks that are missing. -/
noncomputable def toFetch (tree : Tree) (missing : Finset ID) : ℕ :=
  ((Finset.range (maxUint64 + 1)).filter fun x => ¬ Covers tree.knownHeights x).card + missing.card

/-- The response to a request takes a block off the missing ones, or adds a tracked height. -/
theorem Processed.toFetch_lt {db : DB} {lastAccepted : ℕ} {f f' : Fetch} {blk : V.Block} {m : Option ID}
    (h : Processed C db lastAccepted f f' blk m) (hmissing : V.id blk ∈ f.missingBlockIDs) :
    toFetch f'.tree (m.elim f'.missingBlockIDs fun i => insert i f'.missingBlockIDs) <
      toFetch f.tree f.missingBlockIDs := by
  classical
  have herased : f'.missingBlockIDs.card < f.missingBlockIDs.card :=
    (Finset.card_le_card h.erased).trans_lt (Finset.card_erase_lt_of_mem hmissing)
  have hsub : ((Finset.range (maxUint64 + 1)).filter fun x => ¬ Covers f'.tree.knownHeights x) ⊆
      (Finset.range (maxUint64 + 1)).filter fun x => ¬ Covers f.tree.knownHeights x :=
    Finset.monotone_filter_right _ fun x _ hx hcovers => hx (h.grows x hcovers)
  rcases m with _ | i
  · exact Nat.add_lt_add_of_le_of_lt (Finset.card_le_card hsub) herased
  · rcases h.added rfl with ⟨x, hnot, hcovers⟩
    have hx : x ≤ maxUint64 :=
      (h.fetched.matched.separate h.fetched.consistent).le_of_covers hcovers
    have hless : ((Finset.range (maxUint64 + 1)).filter fun x => ¬ Covers f'.tree.knownHeights x).card <
        ((Finset.range (maxUint64 + 1)).filter fun x => ¬ Covers f.tree.knownHeights x).card := by
      refine Finset.card_lt_card (Finset.ssubset_iff_subset_ne.mpr ⟨hsub, fun heq => ?_⟩)
      have hmem : x ∈ (Finset.range (maxUint64 + 1)).filter fun x => ¬ Covers f.tree.knownHeights x :=
        Finset.mem_filter.mpr ⟨Finset.mem_range.mpr (Nat.lt_succ_of_le hx), hnot⟩
      rw [← heq] at hmem
      exact (Finset.mem_filter.mp hmem).2 hcovers
    have hinsert := Finset.card_insert_le i f'.missingBlockIDs
    exact Nat.add_lt_add_of_lt_of_le hless (hinsert.trans herased)

/-- One response. -/
theorem Node.Inv.response {r : Response V} {m : Node V} (h : n.Inv C) (hr : r.OnChain C)
    (hengine : n.engine = .fetching tree missing) (hmissing : V.id r.1 ∈ missing)
    (hstep : n.step (.process r.1 r.2) = some m) :
    m.Inv C ∧ m.lastAccepted = n.lastAccepted ∧ ∃ tree' missing', m.engine = .fetching tree' missing' ∧
      toFetch tree' missing' < toFetch tree missing ∧
      ∀ x, Covers tree.knownHeights x → Covers tree'.knownHeights x := by
  have hinv := (h.step (.process r.1 r.2) hr hstep).1
  have hfetched := h.2
  rw [hengine] at hfetched
  rcases process_spec hr.2 hr.1 hfetched with ⟨f', i, hprocess, hprocessed⟩
  have hlt := hprocessed.toFetch_lt hmissing
  unfold Node.step at hstep
  rw [hengine] at hstep
  dsimp only at hstep
  rw [hprocess] at hstep
  rcases i with _ | i
  · cases hstep
    exact ⟨hinv, rfl, _, _, rfl, hlt, hprocessed.grows⟩
  · cases hstep
    exact ⟨hinv, rfl, _, _, rfl, hlt, hprocessed.grows⟩

/-- Fetching goes on for a bounded time and loses no tracked height. -/
theorem Fetches.spec {rs : List (Response V)} (h : n.Inv C) (hengine : n.engine = .fetching tree missing)
    (hrs : ∀ r ∈ rs, r.OnChain C) (hfetches : Fetches n rs n') :
    rs.length ≤ toFetch tree missing ∧ n'.Inv C ∧ n'.lastAccepted = n.lastAccepted ∧
      ∃ tree' missing', n'.engine = .fetching tree' missing' ∧
        ∀ x, Covers tree.knownHeights x → Covers tree'.knownHeights x := by
  induction rs generalizing n tree missing with
  | nil =>
    cases hfetches
    exact ⟨Nat.zero_le _, h, rfl, tree, missing, hengine, fun _ => id⟩
  | cons r rs ih =>
    rcases hfetches with ⟨t, mi, m, hengine', hmissing, hstep, hrest⟩
    rw [hengine] at hengine'
    cases hengine'
    rcases h.response (hrs r List.mem_cons_self) hengine hmissing hstep with
      ⟨hm, hlast, tree₁, missing₁, hengine₁, hlt, hgrows₁⟩
    rcases ih hm hengine₁ (fun r hr => hrs r (List.mem_cons_of_mem _ hr)) hrest with
      ⟨hlength, hn', hlast', tree₂, missing₂, hengine₂, hgrows₂⟩
    refine ⟨?_, hn', hlast'.trans hlast, tree₂, missing₂, hengine₂, fun x hx => hgrows₂ x (hgrows₁ x hx)⟩
    rw [List.length_cons]
    omega

/-- When nothing is missing, every height up to a tracked one is stored. -/
theorem Node.Inv.stored (h : n.Inv C) (hengine : n.engine = .fetching tree ∅) {x y : ℕ}
    (hy : Covers tree.knownHeights y) (hx : n.lastAccepted < x) (hxy : x ≤ y) :
    (n.db.blocks.lookup x).isSome := by
  have hfetched := h.2
  rw [hengine] at hfetched
  have hgapless := (Executing.new hfetched).gapless
  exact (hfetched.consistent.stored x).mpr ((hfetched.matched.covers x).mp (hgapless hy hx hxy))

end Fetches

/-! ## Executing ends -/

/-- The events of an execution that is not interrupted. -/
def Event.Goes : Event V → Prop
  | .next => True
  | .accept true => True
  | _ => False

theorem Node.run_cons (n : Node V) (event : Event V) (events : List (Event V)) :
    n.run (event :: events) = (n.step event).bind fun m => m.run events := rfl

variable {e : Execution} {n : Node V}

theorem Node.step_next (hengine : n.engine = .looping tree e) :
    n.step .next = some (n.next tree e) := by
  unfold Node.step
  rw [hengine]

theorem Node.step_accept {blk : V.Block}
    (hengine : n.engine = .accepting tree e blk) : n.step (.accept true) = some { n with
      lastAccepted := V.height blk, accepted := n.accepted ++ [blk], engine := .looping tree e } := by
  unfold Node.step
  rw [hengine]

theorem Event.goes_cons {event : Event V} {events : List (Event V)} (h : event.Goes)
    (hevents : ∀ e ∈ events, e.Goes) : ∀ e ∈ event :: events, e.Goes := by
  intro e he
  rcases List.mem_cons.mp he with rfl | he
  · exact h
  · exact hevents e he

/-- An execution that goes on accepts every block that is left. -/
theorem Node.Inv.completes (k : ℕ) (h : n.Inv C)
    (hengine : n.engine = .looping tree e) (hlength : e.iterator.length = k) :
    ∃ events n', (∀ event ∈ events, event.Goes) ∧ n.run events = some n' ∧
      (∃ tree', n'.engine = .fetching tree' ∅) ∧ n.lastAccepted ≤ n'.lastAccepted ∧
      ∀ x, Covers tree.knownHeights x → x ≤ n'.lastAccepted := by
  -- on the number of blocks the iterator still returns
  induction k generalizing n tree e with
  | zero =>
    have hexecuting := h.2
    rw [hengine] at hexecuting
    have hnil := List.length_eq_zero_iff.mp hlength
    have hnext : n.next tree e = { n with db := (e.writeBatch n.db).1, engine := .fetching tree ∅ } := by
      unfold Node.next
      rw [hnil]
    refine ⟨[.next], n.next tree e, Event.goes_cons trivial (List.forall_mem_nil _), ?_, ⟨tree, ?_⟩, ?_,
      fun x hx => ?_⟩
    · rw [Node.run_cons, Node.step_next hengine]
      rfl
    · rw [hnext]
    · rw [hnext]
    · -- nothing is left
      have hlisting := hexecuting.iterator
      rw [hnil] at hlisting
      rw [hexecuting.matched.covers, ← hexecuting.pending.stored] at hx
      rcases Option.isSome_iff_exists.mp hx with ⟨bytes, hbytes⟩
      exact absurd ((hlisting.mem x bytes).mpr ⟨trivial, hbytes⟩) List.not_mem_nil
  | succ k ih =>
    have hexecuting := h.2
    rw [hengine] at hexecuting
    have hinv := (Node.Inv.next h.1 hexecuting).1
    rcases hiterator : e.iterator with _ | ⟨entry, rest⟩
    · rw [hiterator] at hlength
      cases hlength
    · rw [hiterator, List.length_cons, Nat.add_right_cancel_iff] at hlength
      rcases hexecuting.next_cases hiterator with ⟨db', tree', e', hrest, hcovers, hskipped | hfound⟩
      · rcases hskipped with ⟨hnext, hle, -⟩
        rcases ih hinv (by rw [hnext]) (by rw [hrest, hlength]) with
          ⟨events, n', hgoes, hrun, hfetching, hmono, hall⟩
        rw [hnext] at hmono
        refine ⟨.next :: events, n', Event.goes_cons trivial hgoes, ?_, hfetching, hmono, fun x hx => ?_⟩
        · rw [Node.run_cons, Node.step_next hengine]
          exact hrun
        · by_cases heq : x = entry.1
          · exact heq ▸ hle.trans hmono
          · exact hall x ((hcovers x).mpr ⟨hx, heq⟩)
      · rcases hfound with ⟨blk, hnext, -, hheight, hlast, -⟩
        have haccepting : (n.next tree e).engine = .accepting tree' e' blk := by rw [hnext]
        have haccept := Node.step_accept haccepting
        have hinv' := (hinv.step (.accept true) trivial haccept).1
        rcases ih hinv' rfl (by rw [hrest, hlength]) with ⟨events, n', hgoes, hrun, hfetching, hmono, hall⟩
        have hmono' : entry.1 ≤ n'.lastAccepted := hheight ▸ hmono
        refine ⟨.next :: .accept true :: events, n', ?_, ?_, hfetching, by omega, fun x hx => ?_⟩
        · exact Event.goes_cons trivial (Event.goes_cons trivial hgoes)
        · rw [Node.run_cons, Node.step_next hengine, Option.bind_some, Node.run_cons, haccept]
          exact hrun
        · by_cases heq : x = entry.1
          · exact heq ▸ hmono'
          · exact hall x ((hcovers x).mpr ⟨hx, heq⟩)

/-! ## The bootstrapper -/

/-- A node that is down, with any blocks of the chain in its database. -/
structure Node.Stopped (C : Chain V) (n : Node V) : Prop where
  down : n.engine = .down
  consistent : Consistent C n.db
  bounded : n.lastAccepted ≤ maxUint64

theorem Node.Stopped.inv (h : n.Stopped C) : n.Inv C := by
  refine ⟨h.bounded, ?_⟩
  rw [h.down]
  exact h.consistent

/-- In every run with crashes at any points, the blocks that are accepted are the ones after
the last accepted block, in order and each once. An execution that is not interrupted goes
on to the highest tracked block. After a crash the node starts again, and the requests for
missing blocks end with every height up to the highest tracked one stored. -/
theorem bootstrap_gapless (C : Chain V) (n n' : Node V) (events : List (Event V)) (hn : n.Stopped C)
    (hevents : ∀ event ∈ events, event.OnChain C) (hrun : n.run events = some n') :
    Extends C n n' ∧
    (∀ tree e, n'.engine = .looping tree e → ∃ events' m,
      (∀ event ∈ events', event.Goes) ∧ n'.run events' = some m ∧ (∃ tree', m.engine = .fetching tree' ∅) ∧
      Extends C n m ∧ ∀ x, Covers tree.knownHeights x → x ≤ m.lastAccepted) ∧
    ∃ tree missing m, n'.run [.crash, .start] = some m ∧ m.engine = .fetching tree missing ∧
      getMissingBlockIDs V n'.db tree n'.lastAccepted = .ok missing ∧
      ∀ rs m', (∀ r ∈ rs, Response.OnChain C r) → Fetches m rs m' →
        rs.length ≤ toFetch tree missing ∧
        ∃ tree' missing', m'.engine = .fetching tree' missing' ∧
          (∀ i ∈ missing', ∃ b, C.mem b ∧ V.id b = i) ∧
          (missing' = ∅ → ∀ x y, Covers n'.db.intervals y → n'.lastAccepted < x → x ≤ y →
            (m'.db.blocks.lookup x).isSome) := by
  rcases hn.inv.run hevents hrun with ⟨hinv, hextends⟩
  refine ⟨hextends, ?_, ?_⟩
  · intro tree e hengine
    rcases hinv.completes _ hengine rfl with ⟨events', m, hgoes, hrun', hfetching, -, hall⟩
    have honChain : ∀ event ∈ events', event.OnChain C := by
      intro event hevent
      have := hgoes event hevent
      cases event with
      | want => exact absurd this id
      | process => exact absurd this id
      | _ => exact trivial
    exact ⟨events', m, hgoes, hrun', hfetching, hextends.trans (hinv.run honChain hrun').2, hall⟩
  · have hconsistent := hinv.consistent
    have hmatched := matches_newTree n'.db
    rcases getMissingBlockIDs_spec hconsistent hmatched with ⟨ids, hids, hfetched⟩
    refine ⟨Tree.newTree n'.db, ids, { n' with engine := .fetching (Tree.newTree n'.db) ids }, ?_, rfl, hids, ?_⟩
    · rw [Node.run_cons]
      show Node.run _ [.start] = _
      rw [Node.run_cons]
      unfold Node.step
      dsimp only
      rw [hids]
      rfl
    · intro rs m' hrs hfetches
      have hm : Node.Inv C { n' with engine := .fetching (Tree.newTree n'.db) ids } := ⟨hinv.1, hfetched⟩
      rcases Fetches.spec hm rfl hrs hfetches with ⟨hlength, hm', hlast, tree', missing', hengine, hgrows⟩
      refine ⟨hlength, tree', missing', hengine, ?_, ?_⟩
      · have hfetched' := hm'.2
        rw [hengine] at hfetched'
        exact hfetched'.onChain
      · rintro rfl x y hy hx hxy
        exact hm'.stored hengine (hgrows y ((hmatched.covers y).mpr hy)) (hlast ▸ hx) hxy

/-! ## A run with a crash -/

theorem val_lt_of_eight_le (b : Fin 8) {n : ℕ} (h : 8 ≤ n) : b.val < n := b.isLt.trans_le h

/-- Blocks that are their own heights. -/
def numbers : Blocks where
  Block := Fin 8
  id b := ⟨b, val_lt_of_eight_le b (by norm_num)⟩
  parent b := if b = 0 then 9 else ⟨b - 1, (Nat.sub_le _ _).trans_lt (val_lt_of_eight_le b (by norm_num))⟩
  height b := b
  bytes b := [⟨b, val_lt_of_eight_le b (by norm_num)⟩]
  parseBlock
    | [x] => if h : x.val < 8 then some ⟨x, h⟩ else none
    | _ => none
  height_le b := (val_lt_of_eight_le b (by norm_num [maxUint64])).le
  parse_bytes b := dif_pos b.isLt
  id_injective b b' h := Fin.ext (Fin.mk.inj h)
  parent_height := by decide

def numbersChain : Chain numbers where
  mem _ := True
  unique _ _ h := Fin.ext h
  parent_mem _ _ := trivial
  parent_exists := by
    intro b _ hb
    refine ⟨⟨b.val - 1, by omega⟩, ?_⟩
    have hne : b ≠ (0 : Fin 8) := fun heq => absurd hb (by rw [heq]; decide)
    exact (if_neg hne).symm

def number (b : Fin 8) : numbers.Block := b

def freshNode : Node numbers := ⟨⟨∅, ∅⟩, 0, [], .down⟩

/-- Block 1 is accepted before a crash, and block 2 after it. -/
def crashRun : List (Event numbers) :=
  [.start, .want 3, .process (number 3) ∅, .process (number 2) (AList.insert 1 (number 1) ∅), .execute, .next,
    .accept true, .next, .crash, .start, .execute, .next, .next, .accept true, .halt]

theorem bootstrap_gapless_crashRun :
    ∃ n', freshNode.run crashRun = some n' ∧ Extends numbersChain freshNode n' ∧ n'.lastAccepted = 2 := by
  have hlast : (freshNode.run crashRun).map (·.lastAccepted) = some 2 := by decide +kernel
  rcases Option.map_eq_some_iff.mp hlast with ⟨n', hrun, hn'⟩
  have hstopped : freshNode.Stopped numbersChain := by
    refine ⟨rfl, ⟨⟨?_, ?_, ?_⟩, ?_, ?_⟩, Nat.zero_le _⟩
    · exact nofun
    · exact nofun
    · exact nofun
    · simp [freshNode, Covers]
    · exact nofun
  have hancestors : ByID (V := numbers) (AList.insert 1 (number 1) ∅) := by
    intro i b hb
    by_cases heq : i = 1
    · rw [heq, AList.lookup_insert] at hb
      cases hb
      exact heq.symm
    · rw [AList.lookup_insert_ne heq] at hb
      cases hb
  have honChain : ∀ event ∈ crashRun, event.OnChain numbersChain := by
    simp only [crashRun, List.forall_mem_cons, Event.OnChain, true_and]
    refine ⟨⟨number 3, trivial, rfl⟩, ⟨trivial, fun i b hb => nomatch hb⟩, ⟨trivial, hancestors⟩, ?_⟩
    exact List.forall_mem_nil _
  exact ⟨n', hrun, (bootstrap_gapless numbersChain freshNode n' crashRun hstopped honChain hrun).1, hn'⟩

end Titan.Bootstrap
