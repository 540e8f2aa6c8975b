import Titan.StateSync.Votes

/-!
# Titan.StateSync.VoteRuns — the invariant of the state syncer

`Inv` describes a syncer at any time: a voter that is to be asked or was asked has not been
counted in the round, nothing is counted while frontiers are collected, and a summary has the
weight of the counted voters that named it. Under a condition `current` on the run so far, the
right summaries were accepted, and the syncer remembers the ongoing summary of the round.
-/

namespace Titan.StateSync

open Lib
open PChain (ID NodeID GoMap)
open Bootstrap (GoSet Pick Opinion Majority)
open Bootstrap.Poll (reporters trueWeight AllLight)

/-! ## Requests -/

/-- Some nodes move from those to be asked to those that were, `vdrs` among them. -/
structure Moves (target pending target' pending' vdrs : Finset NodeID) : Prop where
  union : target' ∪ pending' = target ∪ pending
  disjoint : Disjoint target pending → Disjoint target' pending'
  asked : vdrs ⊆ pending'
  /-- Nodes are left only while others have not answered. -/
  drained : pending' = ∅ → target' = ∅

theorem reachOut_moves (p : Pick) (n : ℕ) (target pending vdrs : Finset NodeID) (hn : target.card ≤ n)
    (hvdrs : vdrs ⊆ pending) :
    Moves target pending (reachOut p n target pending vdrs).1 (reachOut p n target pending vdrs).2.1
      (reachOut p n target pending vdrs).2.2 := by
  induction n generalizing target pending vdrs with
  | zero => exact ⟨rfl, id, hvdrs, fun _ => Finset.card_eq_zero.mp (Nat.le_zero.mp hn)⟩
  | succ n ih =>
    rw [reachOut]
    split
    next =>
      rcases hpick : p.pick target with _ | vdr
      · exact ⟨rfl, id, hvdrs, fun _ => p.empty _ hpick⟩
      · have hmem := p.mem _ _ hpick
        have hcard := Finset.card_erase_of_mem hmem
        have h := ih (target.erase vdr) (insert vdr pending) (insert vdr vdrs) (by omega)
          (Finset.insert_subset_insert vdr hvdrs)
        refine ⟨?_, ?_, h.asked, h.drained⟩
        · rw [h.union, Finset.union_insert, ← Finset.insert_union, Finset.insert_erase hmem]
        · intro hdisj
          apply h.disjoint
          rw [Finset.disjoint_insert_right]
          exact ⟨Finset.notMem_erase vdr target,
            Finset.disjoint_of_subset_left (Finset.erase_subset _ _) hdisj⟩
    next hfull =>
      refine ⟨rfl, id, hvdrs, ?_⟩
      intro hempty
      dsimp only at hempty
      rw [hempty, Finset.card_empty, maxOutstandingBroadcastRequests] at hfull
      omega

/-- An effect that a round does not depend on. -/
def Effect.Silent (e : Effect) : Prop := e.Aside ∧ ∀ r : Round, r.next e = r

theorem silent_done (requestID : UInt32) : (Effect.done requestID).Silent := ⟨trivial, fun _ => rfl⟩

theorem silent_failed : Effect.failed.Silent := ⟨trivial, fun _ => rfl⟩

namespace Syncer

variable {ss : Syncer}

/-- What `sendGetStateSummaryFrontiers` does: nothing is sent if nobody is asked. -/
theorem sendGetStateSummaryFrontiers_eq (env : Env) (ss : Syncer) :
    ∃ target pending vdrs effects, Moves ss.targetSeeders ss.pendingSeeders target pending vdrs ∧
      (∀ e ∈ effects, Effect.Silent e) ∧
      ss.sendGetStateSummaryFrontiers env =
        { ss with targetSeeders := target, pendingSeeders := pending, log := ss.log ++ effects } := by
  have hmoves := reachOut_moves env.pick _ ss.targetSeeders ss.pendingSeeders ∅ le_rfl (Finset.empty_subset _)
  unfold sendGetStateSummaryFrontiers
  dsimp only
  split
  next =>
    refine ⟨_, _, _, [_], hmoves, ?_, rfl⟩
    intro e he
    rw [List.mem_singleton.mp he]
    exact ⟨trivial, fun _ => rfl⟩
  next => exact ⟨_, _, _, [], hmoves, by simp, by rw [List.append_nil]⟩

theorem sendGetAcceptedStateSummaries_eq (env : Env) (ss : Syncer) :
    ∃ target pending vdrs effects, Moves ss.targetVoters ss.pendingVoters target pending vdrs ∧
      (∀ e ∈ effects, Effect.Silent e) ∧ (pending = ∅ → effects = []) ∧
      ss.sendGetAcceptedStateSummaries env =
        { ss with targetVoters := target, pendingVoters := pending, log := ss.log ++ effects } := by
  have hmoves := reachOut_moves env.pick _ ss.targetVoters ss.pendingVoters ∅ le_rfl (Finset.empty_subset _)
  unfold sendGetAcceptedStateSummaries
  dsimp only
  split
  next hpos =>
    refine ⟨_, _, _, [_], hmoves, ?_, ?_, rfl⟩
    · intro e he
      rw [List.mem_singleton.mp he]
      exact ⟨trivial, fun _ => rfl⟩
    · -- those who are asked are pending
      intro hempty
      have hvdrs := hmoves.asked
      rw [hempty, Finset.subset_empty] at hvdrs
      rw [hvdrs, Finset.card_empty] at hpos
      exact absurd hpos (Nat.lt_irrefl 0)
  next => exact ⟨_, _, _, [], hmoves, by simp, fun _ => rfl, by rw [List.append_nil]⟩

end Syncer

section Silence

variable {cfg : Config} {log effects : List Effect}

theorem round_silent (h : ∀ e ∈ effects, Effect.Silent e) : round (log ++ effects) = round log := by
  induction effects using List.reverseRecOn with
  | nil => rw [List.append_nil]
  | append_singleton effects e ih =>
    rw [← List.append_assoc, round_append, ih fun e he => h e (List.mem_append_left _ he)]
    exact (h e (by simp)).2 _

theorem asides_induction {P : List Effect → Prop} (h : P log)
    (hstep : ∀ {log e}, P log → Effect.Aside e → P (log ++ [e])) (he : ∀ e ∈ effects, Effect.Aside e) :
    P (log ++ effects) := by
  induction effects using List.reverseRecOn with
  | nil => rwa [List.append_nil]
  | append_singleton effects e ih =>
    rw [← List.append_assoc]
    exact hstep (ih fun e h => he e (List.mem_append_left _ h)) (he e (by simp))

theorem Safe.asides (h : Safe cfg log) : (∀ e ∈ effects, Effect.Aside e) → Safe cfg (log ++ effects) :=
  asides_induction h Safe.aside

theorem Complete.asides (h : Complete cfg log) : (∀ e ∈ effects, Effect.Aside e) → Complete cfg (log ++ effects) := by
  refine asides_induction h fun h he => h.other ?_
  rintro n ids rfl
  exact he

end Silence

/-! ## The invariant -/

namespace Syncer

variable {cfg : Config} {ss : Syncer}

/-- The voters that were not counted yet. -/
def voters (ss : Syncer) : Finset NodeID := ss.targetVoters ∪ ss.pendingVoters

/-- The summaries to vote for are those that the round has learned. -/
def Lists (ss : Syncer) : Prop :=
  ∀ id, (ss.weightedSummaries.lookup id).map (·.summary) = (round ss.log).known id

structure Inv (cfg : Config) (current : Prop) (ss : Syncer) : Prop where
  safe : Safe cfg ss.log
  disjoint : Disjoint ss.targetVoters ss.pendingVoters
  voters : ∀ n ∈ ss.voters, n ∈ cfg.stateSyncBeacons.keys ∧ n ∉ (round ss.log).counted.map Prod.fst
  seeding : (ss.targetSeeders ∪ ss.pendingSeeders).Nonempty → (round ss.log).counted = [] ∧ ss.pendingVoters = ∅
  weights : ∀ id ws, ss.weightedSummaries.lookup id = some ws →
    ws.weight = signedWeight cfg.stateSyncBeacons (reporters (round ss.log).counted id)
  lists : ss.voters.Nonempty → ss.Lists
  complete : current → Complete cfg ss.log
  remembers : current → ss.voters.Nonempty → ss.locallyAvailableSummary = (round ss.log).ongoing

variable {current : Prop}

section

variable (h : Inv cfg current ss)
include h

theorem Inv.once : ((round ss.log).counted.map Prod.fst).Nodup :=
  h.safe.once ss.log [] (List.append_nil _).symm

theorem Inv.mono {current' : Prop} (hle : current' → current) : Inv cfg current' ss :=
  { h with
    complete := fun hc => h.complete (hle hc)
    remembers := fun hc => h.remembers (hle hc) }

omit h in
theorem inv_new (cfg : Config) (current : Prop) : Inv cfg current new := by
  have hsafe : Safe cfg [] := by
    constructor
    · intro before summary after heq
      simp at heq
    · intro before after heq
      rw [(List.append_eq_nil_iff.mp heq.symm).1]
      exact List.nodup_nil
  refine ⟨hsafe, disjoint_bot_left, ?_, ?_, ?_, ?_, ?_, ?_⟩
  · intro n hn
    simp [voters, new] at hn
  · intro hne
    simp [new] at hne
  · intro id ws hws
    cases hws
  · intro hne
    simp [voters, new] at hne
  · intro _ before nodeID summaryIDs after heq
    simp [new] at heq
  · intro _ hne
    simp [voters, new] at hne

/-- The log may grow by what a round does not depend on. -/
theorem Inv.silent {ss' : Syncer} {effects : List Effect}
    (heffects : ∀ e ∈ effects, Effect.Silent e) (hlog : ss'.log = ss.log ++ effects)
    (hlocal : ss'.locallyAvailableSummary = ss.locallyAvailableSummary) (hvoters : ss'.voters = ss.voters)
    (hdisjoint : Disjoint ss'.targetVoters ss'.pendingVoters)
    (hseeding : (ss'.targetSeeders ∪ ss'.pendingSeeders).Nonempty →
      (round ss.log).counted = [] ∧ ss'.pendingVoters = ∅)
    (hsummaries : ss'.weightedSummaries = ss.weightedSummaries) : Inv cfg current ss' := by
  have hround : round ss'.log = round ss.log := by rw [hlog, round_silent heffects]
  have haside : ∀ e ∈ effects, Effect.Aside e := fun e he => (heffects e he).1
  refine ⟨?_, hdisjoint, ?_, hround ▸ hseeding, ?_, ?_, ?_, ?_⟩
  · rw [hlog]
    exact h.safe.asides haside
  · rw [hvoters, hround]
    exact h.voters
  · rw [hsummaries, hround]
    exact h.weights
  · rw [hvoters, Lists, hsummaries, hround]
    exact h.lists
  · rw [hlog]
    exact fun hc => (h.complete hc).asides haside
  · rw [hvoters, hlocal, hround]
    exact h.remembers

theorem Inv.emit {e : Effect} (he : e.Silent) : Inv cfg current (ss.emit e) :=
  h.silent (by simpa using he) rfl rfl rfl h.disjoint h.seeding rfl

theorem Inv.sendGetStateSummaryFrontiers (env : Env) :
    Inv cfg current (ss.sendGetStateSummaryFrontiers env) := by
  rcases sendGetStateSummaryFrontiers_eq env ss with ⟨target, pending, vdrs, effects, hmoves, hsilent, heq⟩
  rw [heq]
  exact h.silent hsilent rfl rfl rfl h.disjoint (fun hne => h.seeding (hmoves.union ▸ hne)) rfl

/-- Voters are asked once the frontiers are collected. -/
theorem Inv.sendGetAcceptedStateSummaries (env : Env)
    (hseeders : ss.targetSeeders ∪ ss.pendingSeeders = ∅) :
    Inv cfg current (ss.sendGetAcceptedStateSummaries env) := by
  rcases sendGetAcceptedStateSummaries_eq env ss with ⟨target, pending, vdrs, effects, hmoves, hsilent, -, heq⟩
  rw [heq]
  exact h.silent hsilent rfl rfl hmoves.union (hmoves.disjoint h.disjoint)
    (fun hne => absurd hseeders hne.ne_empty) rfl

omit h in
/-- A summary is learned before votes are counted. -/
theorem Inv.learn {known : Prop} {e : Effect} {summary : Summary} (h : Inv cfg known ss)
    (hcounted : (round ss.log).counted = []) (he : e.Aside) (hkeeps : ((round ss.log).next e).counted = [])
    (hlearns : ((round ss.log).next e).known = (round ss.log).learn summary)
    (hcomplete : current → Complete cfg ss.log)
    (hremembers : current → ss.voters.Nonempty → ss.locallyAvailableSummary = ((round ss.log).next e).ongoing) :
    Inv cfg current ((ss.addSummary summary).emit e) := by
  have hround : round ((ss.addSummary summary).emit e).log = (round ss.log).next e := round_append ss.log e
  refine ⟨h.safe.aside he, h.disjoint, ?_, ?_, ?_, ?_, ?_, ?_⟩
  · intro n hn
    rw [hround, hkeeps]
    exact ⟨(h.voters n hn).1, List.not_mem_nil⟩
  · intro hne
    rw [hround, hkeeps]
    exact ⟨rfl, (h.seeding hne).2⟩
  · intro id ws hws
    have hempty : signedWeight cfg.stateSyncBeacons (reporters [] id) = 0 := Finset.sum_empty
    change (ss.weightedSummaries.insert summary.id ⟨summary, 0⟩).lookup id = some ws at hws
    rw [lookup_insert_ite] at hws
    rw [hround, hkeeps, hempty]
    split at hws
    next => cases hws; rfl
    next => rw [h.weights id ws hws, hcounted, hempty]
  · intro hne id
    change ((ss.weightedSummaries.insert summary.id ⟨summary, 0⟩).lookup id).map _ = _
    rw [hround, hlearns, Round.learn, Function.update_apply, lookup_insert_ite]
    split
    next => rfl
    next => exact h.lists hne id
  · exact fun hc => (hcomplete hc).asides (by simpa using he)
  · rw [hround]
    exact hremembers

theorem Inv.initiate (env : Env) : Inv cfg current (ss.initiate env) := by
  unfold Syncer.initiate
  split
  · exact h.emit (silent_done _)
  · refine Inv.sendGetStateSummaryFrontiers ?_ env
    exact { h with }

/-! ## Starting a round -/

omit h in
/-- A cleared syncer, with nodes to ask. -/
theorem inv_clear (hsafe : Safe cfg ss.log) (hcomplete : current → Complete cfg ss.log) (total : ℕ)
    (seeders targets : Finset NodeID) (htargets : ∀ n ∈ targets, n ∈ cfg.stateSyncBeacons.keys)
    (hforgotten : current → targets.Nonempty → ss.locallyAvailableSummary = none) :
    Inv cfg current
      { ss.clear with frontiersTotalWeight := total, targetSeeders := seeders, targetVoters := targets } := by
  have hround : round (ss.log ++ [.startup]) = .empty := round_append ss.log .startup
  refine ⟨hsafe.aside trivial, Finset.disjoint_empty_right _, ?_, ?_, ?_, ?_, ?_, ?_⟩
  · intro n hn
    have hn : n ∈ targets ∪ ∅ := hn
    change n ∈ _ ∧ n ∉ (round (ss.log ++ [.startup])).counted.map Prod.fst
    rw [hround]
    exact ⟨htargets n (by simpa using hn), List.not_mem_nil⟩
  · intro _
    change (round (ss.log ++ [.startup])).counted = [] ∧ _
    rw [hround]
    exact ⟨rfl, rfl⟩
  · intro id ws hws
    cases hws
  · intro _ id
    change _ = (round (ss.log ++ [.startup])).known id
    rw [hround]
    rfl
  · exact fun hc => (hcomplete hc).other (by simp)
  · intro hc hne
    change _ = (round (ss.log ++ [.startup])).ongoing
    rw [hround]
    exact hforgotten hc (Finset.union_empty targets ▸ hne)

/-- The VM has an ongoing summary if the syncer remembers one. -/
def Current (env : Env) (ss : Syncer) : Prop :=
  ss.locallyAvailableSummary.isSome → ∃ s, env.ongoing = .found s

variable {env : Env}

omit h in
theorem Inv.startup (hsafe : Safe cfg ss.log) (hcomplete : current → Complete cfg ss.log)
    (hcurrent : current → ss.Current env) : Inv cfg current (ss.startup cfg env) := by
  -- without an ongoing summary, none was remembered
  have hforgotten : (∀ s, env.ongoing ≠ .found s) → current → ss.locallyAvailableSummary = none := by
    intro hnone hc
    by_contra hsome
    rcases hcurrent hc (Option.isSome_iff_ne_none.mpr hsome) with ⟨s, hs⟩
    exact hnone s hs
  have hkeys : ∀ n ∈ cfg.stateSyncBeacons.keys.toFinset, n ∈ cfg.stateSyncBeacons.keys :=
    fun n hn => List.mem_toFinset.mp hn
  unfold Syncer.startup
  split
  next => exact (inv_clear hsafe hcomplete _ ∅ ∅ (by simp) (by simp)).emit silent_failed
  next beaconIDs _ =>
    split
    next hfailed =>
      exact (inv_clear hsafe hcomplete _ _ _ hkeys fun hc _ => hforgotten (by simp [hfailed]) hc).emit silent_failed
    next hnotFound =>
      exact (inv_clear hsafe hcomplete _ _ _ hkeys fun hc _ => hforgotten (by simp [hnotFound]) hc).initiate env
    next localSummary _ =>
      have h : Inv cfg False { ss.clear with
          frontiersTotalWeight := beaconIDs.length, targetSeeders := beaconIDs.toFinset,
          targetVoters := cfg.stateSyncBeacons.keys.toFinset, locallyAvailableSummary := some localSummary } :=
        { inv_clear hsafe False.elim beaconIDs.length beaconIDs.toFinset _ hkeys False.elim with
          remembers := False.elim }
      have hround : round (ss.log ++ [.startup]) = .empty := round_append ss.log .startup
      have hcounted : (round (ss.log ++ [.startup])).counted = [] := by rw [hround]; rfl
      exact (h.learn (e := .ongoing localSummary) hcounted trivial hcounted rfl
        (fun hc => (hcomplete hc).other (by simp)) fun _ _ => rfl).initiate env

/-! ## Collecting frontiers -/

section

variable (hcurrent : current → ss.Current env)
include hcurrent

theorem Inv.receivedStateSummaryFrontier :
    Inv cfg current (ss.receivedStateSummaryFrontier cfg env) := by
  have hsend := h.sendGetStateSummaryFrontiers env
  rcases sendGetStateSummaryFrontiers_eq env ss with ⟨target, pending, vdrs, effects, hmoves, -, heq⟩
  unfold Syncer.receivedStateSummaryFrontier
  dsimp only
  rw [heq] at hsend ⊢
  split
  next => exact hsend
  next hzero =>
    have hpending : pending = ∅ := by simpa using hzero
    split
    · refine Inv.sendGetAcceptedStateSummaries ?_ env ?_
      · exact { hsend with }
      · change target ∪ pending = ∅
        rw [hmoves.drained hpending, hpending, Finset.union_empty]
    · exact .startup hsend.safe hsend.complete hcurrent

theorem Inv.stateSummaryFrontier (nodeID : NodeID)
    (requestID : UInt32) (summary : Option Summary) :
    Inv cfg current (ss.stateSummaryFrontier cfg env nodeID requestID summary) := by
  unfold Syncer.stateSummaryFrontier
  split
  · exact h
  split
  · exact h
  next hpending =>
    have hseeders : (ss.targetSeeders ∪ ss.pendingSeeders).Nonempty :=
      ⟨nodeID, Finset.mem_union_right _ (not_not.mp hpending)⟩
    have h' : Inv cfg current { ss with pendingSeeders := ss.pendingSeeders.erase nodeID } :=
      { h with seeding := fun _ => h.seeding hseeders }
    have hcounted := (h.seeding hseeders).1
    rcases summary with _ | summary
    · exact h'.receivedStateSummaryFrontier hcurrent
    · exact (h'.learn (e := .learned summary) hcounted trivial hcounted rfl h.complete
        h.remembers).receivedStateSummaryFrontier hcurrent

theorem Inv.getStateSummaryFrontierFailed
    (nodeID : NodeID) (requestID : UInt32) :
    Inv cfg current (ss.getStateSummaryFrontierFailed cfg env nodeID requestID) := by
  unfold Syncer.getStateSummaryFrontierFailed
  split
  · exact h
  · have hseeding := fun hne => h.seeding
      (Finset.Nonempty.mono (Finset.union_subset_union_right (Finset.erase_subset nodeID ss.pendingSeeders)) hne)
    refine Inv.receivedStateSummaryFrontier ?_ hcurrent
    exact { h with seeding := hseeding }

end

end

/-! ## Counting votes -/

section Vote

variable {nodeID : NodeID} {summaryIDs : GoSet ID}

theorem lookup_countVote (id : ID) :
    (ss.countVote cfg nodeID summaryIDs).weightedSummaries.lookup id =
      (ss.weightedSummaries.lookup id).map fun ws => { ws with
        weight := ws.weight +
          if id ∈ summaryIDs.elems then (Majority.weight cfg.stateSyncBeacons nodeID).toInt else 0 } :=
  lookup_foldl_addWeight _ _ summaryIDs.nodup _ _

variable (cfg ss nodeID summaryIDs) in
theorem round_countVote :
    round (ss.countVote cfg nodeID summaryIDs).log =
      { round ss.log with counted := (round ss.log).counted ++ [(nodeID, summaryIDs)] } :=
  round_append ss.log (.counted nodeID summaryIDs)

theorem Inv.listed (h : Inv cfg current ss) (hn : nodeID ∈ ss.pendingVoters) :
    (ss.countVote cfg nodeID summaryIDs).Lists := by
  intro id
  rw [round_countVote, lookup_countVote, Option.map_map]
  exact h.lists ⟨nodeID, Finset.mem_union_right _ hn⟩ id

theorem Inv.countVote (h : Inv cfg current ss) (hn : nodeID ∈ ss.pendingVoters) :
    Inv cfg False (ss.countVote cfg nodeID summaryIDs) := by
  have hnew := (h.voters nodeID (Finset.mem_union_right _ hn)).2
  have hround := round_countVote cfg ss nodeID summaryIDs
  refine ⟨?_, ?_, ?_, ?_, ?_, fun _ => h.listed hn, False.elim, False.elim⟩
  · apply h.safe.append
    · intro s hs
      cases hs
    · change (((round ss.log).counted ++ [(nodeID, summaryIDs)]).map Prod.fst).Nodup
      rw [List.map_append, List.map_singleton, ← List.concat_eq_append]
      exact List.Nodup.concat hnew h.once
  · exact Finset.disjoint_of_subset_right (Finset.erase_subset _ _) h.disjoint
  · intro n hv
    -- a voter that is to be asked was not asked before
    have hne : n ≠ nodeID := by
      rintro rfl
      rcases Finset.mem_union.mp hv with htarget | hpending
      · exact Finset.disjoint_left.mp h.disjoint htarget hn
      · exact Finset.notMem_erase n ss.pendingVoters hpending
    have hold := h.voters n (Finset.union_subset_union_right (Finset.erase_subset _ _) hv)
    rw [hround]
    refine ⟨hold.1, ?_⟩
    rw [List.map_append, List.mem_append, not_or]
    exact ⟨hold.2, by simpa using hne⟩
  · intro hne
    have hempty := (h.seeding hne).2
    rw [hempty] at hn
    cases hn
  · intro id ws hws
    rw [lookup_countVote] at hws
    rcases Option.map_eq_some_iff.mp hws with ⟨old, hold, rfl⟩
    rw [hround]
    rw [signedWeight_append hnew, h.weights id old hold]

end Vote

/-! ## The decision -/

/-- What `selectSyncableStateSummary` returns when a summary is left. -/
theorem selectSyncableStateSummary_spec (ss : Syncer) (env : Env) (hne : ss.weightedSummaries.entries ≠ []) :
    ∃ s, ss.selectSyncableStateSummary env = some s ∧
      if ∃ l ∈ ss.locallyAvailableSummary, (ss.weightedSummaries.lookup l.id).isSome
      then ss.locallyAvailableSummary = some s
      else (∃ id ws, ss.weightedSummaries.lookup id = some ws ∧ ws.summary = s) ∧
        ∀ id ws, ss.weightedSummaries.lookup id = some ws → ws.summary.height ≤ s.height := by
  have hmem : ∀ id ws, ⟨id, ws⟩ ∈ env.walk.order ss.weightedSummaries.entries ↔
      ss.weightedSummaries.lookup id = some ws := by
    intro id ws
    rw [(env.walk.perm _).mem_iff]
    exact AList.mem_lookup_iff.symm
  unfold selectSyncableStateSummary
  split
  next hlocal =>
    rcases hlocal with ⟨l, hl, hsome⟩
    rcases Option.isSome_iff_exists.mp hsome with ⟨ws, hws⟩
    rw [hl]
    exact ⟨l, selectLoop_local 0 none ⟨⟨l.id, ws⟩, (hmem l.id ws).mpr hws, rfl⟩, rfl⟩
  next hlocal =>
    have hfilter : ∀ e ∈ env.walk.order ss.weightedSummaries.entries,
        ss.locallyAvailableSummary.filter (fun s => decide (s.id = e.1)) = none := by
      intro e he
      rw [Option.filter_eq_none_iff]
      intro l hl heq
      have hid : l.id = e.1 := by simpa using heq
      exact hlocal ⟨l, hl, by rw [hid, (hmem e.1 e.2).mp he]; rfl⟩
    have horder : env.walk.order ss.weightedSummaries.entries ≠ [] := by
      intro hnil
      have hperm := env.walk.perm ss.weightedSummaries.entries
      rw [hnil] at hperm
      exact hne hperm.nil_eq.symm
    rcases selectLoop_highest _ 0 none hfilter (by simp) (fun _ => rfl) (.inl horder)
      with ⟨s, hs, hfrom, -, hall⟩
    refine ⟨s, hs, ?_, ?_⟩
    · rcases hfrom with hnone | ⟨e, he, heq⟩
      · cases hnone
      · exact ⟨e.1, e.2, (hmem e.1 e.2).mp he, heq⟩
    · intro id ws hws
      exact hall ⟨id, ws⟩ ((hmem id ws).mpr hws)

/-- The summary that is chosen among those with enough weight. -/
def Picks (cfg : Config) (ss : Syncer) (s : Summary) : Prop :=
  if ∃ l ∈ ss.locallyAvailableSummary, ∃ ws, ss.weightedSummaries.lookup l.id = some ws ∧ cfg.alpha ≤ ws.weight
  then ss.locallyAvailableSummary = some s
  else (∃ id ws, (ss.weightedSummaries.lookup id = some ws ∧ cfg.alpha ≤ ws.weight) ∧ ws.summary = s) ∧
    ∀ id ws, ss.weightedSummaries.lookup id = some ws ∧ cfg.alpha ≤ ws.weight → ws.summary.height ≤ s.height

/-- What `decideVote` does: a summary is accepted if one has enough weight. Otherwise a new
round starts or state sync is skipped. -/
theorem decideVote_cases (cfg : Config) (env : Env) (ss : Syncer) :
    (∃ s effects, ss.Picks cfg s ∧ (∀ e ∈ effects, Effect.Silent e) ∧
      ss.decideVote cfg env = { ss with
        weightedSummaries := dropUnsupported cfg.alpha ss.weightedSummaries
        log := ss.log ++ [.accept s] ++ effects }) ∨
    ((∀ id ws, ss.weightedSummaries.lookup id = some ws → ws.weight < cfg.alpha) ∧
      let ss' : Syncer := { ss with weightedSummaries := dropUnsupported cfg.alpha ss.weightedSummaries }
      (ss.decideVote cfg env = ss'.startup cfg env ∨ ss.decideVote cfg env = ss'.emit (.done ss.requestID))) := by
  unfold decideVote
  dsimp only
  split
  next hzero =>
    right
    constructor
    · intro id ws hws
      by_contra hge
      have hleft := lookup_dropUnsupported.mpr ⟨hws, not_lt.mp hge⟩
      have hentry := AList.mem_lookup_iff.mp hleft
      rw [List.length_eq_zero_iff.mp hzero] at hentry
      cases hentry
    · split
      · exact .inl rfl
      · exact .inr rfl
  next hsize =>
    left
    rcases selectSyncableStateSummary_spec { ss with
        weightedSummaries := dropUnsupported cfg.alpha ss.weightedSummaries } env
      (fun hnil => hsize (by rw [hnil]; rfl)) with ⟨s, hs, hspec⟩
    have hpicks : ss.Picks cfg s := by
      simp only [Option.isSome_iff_exists, lookup_dropUnsupported] at hspec
      exact hspec
    rw [hs]
    dsimp only
    split
    · exact ⟨s, [.failed], hpicks, by simpa using silent_failed, rfl⟩
    · exact ⟨s, [], hpicks, by simp, by rw [List.append_nil]; rfl⟩
    · exact ⟨s, [.done ss.requestID], hpicks, by simpa using silent_done _, rfl⟩

theorem round_known_id (log : List Effect) (id : ID) (s : Summary) (h : (round log).known id = some s) :
    s.id = id := by
  induction log using List.reverseRecOn with
  | nil => cases h
  | append_singleton log e ih =>
    have hlearn : ∀ summary, (round log).learn summary id = some s → s.id = id := by
      intro summary hs
      rw [Round.learn, Function.update_apply] at hs
      split at hs
      next hid =>
        cases hs
        exact hid.symm
      next => exact ih hs
    rw [round_append] at h
    cases e with
    | startup => cases h
    | ongoing summary => exact hlearn summary h
    | learned summary => exact hlearn summary h
    | _ => exact ih h

theorem Lists.summary_id (h : ss.Lists) {id : ID} {ws : WeightedSummary}
    (hws : ss.weightedSummaries.lookup id = some ws) : ws.summary.id = id := by
  have hknown := h id
  rw [hws] at hknown
  exact round_known_id ss.log id ws.summary hknown.symm

/-- A chosen summary has enough support. -/
theorem Inv.picks_supported (h : Inv cfg current ss) (hlists : ss.Lists) {s : Summary} (hs : ss.Picks cfg s) :
    cfg.alpha ≤ (round ss.log).support cfg s.id := by
  have hweight : ∃ ws, ss.weightedSummaries.lookup s.id = some ws ∧ cfg.alpha ≤ ws.weight := by
    unfold Picks at hs
    split at hs
    next hlocal =>
      rcases hlocal with ⟨l, hl, hws⟩
      rw [Option.mem_def, hs] at hl
      cases hl
      exact hws
    next =>
      rcases hs.1 with ⟨id, ws, ⟨hws, hle⟩, rfl⟩
      exact ⟨ws, (hlists.summary_id hws).symm ▸ hws, hle⟩
  rcases hweight with ⟨ws, hws, hle⟩
  calc cfg.alpha ≤ ws.weight := hle
    _ = signedWeight cfg.stateSyncBeacons (reporters (round ss.log).counted s.id) := h.weights s.id ws hws
    _ ≤ (round ss.log).support cfg s.id := signedWeight_le _

theorem Inv.decideVote {counted : Prop} (h : Inv cfg counted ss) (hlists : ss.Lists) (hvoters : ss.voters = ∅)
    (haccept : ∀ s, ss.Picks cfg s → current → Complete cfg (ss.log ++ [.accept s]))
    (hnone : (∀ id ws, ss.weightedSummaries.lookup id = some ws → ws.weight < cfg.alpha) →
      current → Complete cfg ss.log)
    (hcurrent : current → ss.Current env) : Inv cfg current (ss.decideVote cfg env) := by
  have hdone : ¬ ss.voters.Nonempty := Finset.not_nonempty_iff_eq_empty.mpr hvoters
  have hdropped : ∀ id ws, (dropUnsupported cfg.alpha ss.weightedSummaries).lookup id = some ws →
      ws.weight = signedWeight cfg.stateSyncBeacons (reporters (round ss.log).counted id) :=
    fun id ws hws => h.weights id ws (lookup_dropUnsupported.mp hws).1
  rcases decideVote_cases cfg env ss with ⟨s, effects, hpicks, hsilent, heq⟩ | ⟨hlow, heq | heq⟩
  · have hround : round (ss.log ++ [.accept s]) = round ss.log := round_append ss.log (.accept s)
    have hsafe : Safe cfg (ss.log ++ [.accept s]) := by
      apply h.safe.append
      · intro s' hs'
        cases hs'
        exact h.picks_supported hlists hpicks
      · exact h.once
    have h' : Inv cfg current { ss with
        weightedSummaries := dropUnsupported cfg.alpha ss.weightedSummaries, log := ss.log ++ [.accept s] } :=
      ⟨hsafe, h.disjoint, hround.symm ▸ h.voters, hround.symm ▸ h.seeding, hround.symm ▸ hdropped,
        fun hne => absurd hne hdone, haccept s hpicks, fun _ hne => absurd hne hdone⟩
    rw [heq]
    exact h'.silent hsilent rfl rfl rfl h.disjoint h'.seeding rfl
  · rw [heq]
    exact .startup h.safe (hnone hlow) hcurrent
  · rw [heq]
    have h' : Inv cfg current { ss with weightedSummaries := dropUnsupported cfg.alpha ss.weightedSummaries } :=
      ⟨h.safe, h.disjoint, h.voters, h.seeding, hdropped, fun hne => absurd hne hdone, hnone hlow,
        fun _ hne => absurd hne hdone⟩
    exact h'.emit (silent_done _)

/-- What `acceptedStateSummary` does with a vote: it is dropped or counted, and the last one is
followed by the decision. -/
theorem acceptedStateSummary_cases (cfg : Config) (env : Env) (ss : Syncer) (nodeID : NodeID) (requestID : UInt32)
    (summaryIDs : GoSet ID) :
    ss.acceptedStateSummary cfg env nodeID requestID summaryIDs = ss ∨
    (nodeID ∈ ss.pendingVoters ∧
      let counted := (ss.countVote cfg nodeID summaryIDs)
      let sent := counted.sendGetAcceptedStateSummaries env
      (sent.pendingVoters.Nonempty ∧ ss.acceptedStateSummary cfg env nodeID requestID summaryIDs = sent) ∨
      (sent = { counted with targetVoters := ∅, pendingVoters := ∅ } ∧
        ss.acceptedStateSummary cfg env nodeID requestID summaryIDs = sent.decideVote cfg env)) := by
  unfold acceptedStateSummary
  split
  · exact .inl rfl
  split
  · exact .inl rfl
  next hpending =>
    right
    refine ⟨not_not.mp hpending, ?_⟩
    dsimp only
    split
    next hsome => exact .inl ⟨Finset.card_pos.mp (Nat.pos_of_ne_zero hsome), rfl⟩
    next hnone =>
      refine .inr ⟨?_, rfl⟩
      rcases sendGetAcceptedStateSummaries_eq env (ss.countVote cfg nodeID summaryIDs)
        with ⟨target, pending, vdrs, effects, hmoves, -, hnothing, heq⟩
      rw [heq] at hnone ⊢
      have hempty : pending = ∅ := by simpa using hnone
      rw [hempty, hmoves.drained hempty, hnothing hempty, List.append_nil]

theorem Inv.noSeeders {nodeID : NodeID} (h : Inv cfg current ss) (hn : nodeID ∈ ss.pendingVoters) :
    ss.targetSeeders ∪ ss.pendingSeeders = ∅ := by
  by_contra hne
  rw [(h.seeding (Finset.nonempty_iff_ne_empty.mpr hne)).2] at hn
  cases hn

end Syncer

end Titan.StateSync
