import Titan.StateSync.VoteRuns

/-!
# Titan.StateSync.Choice — what the syncer accepts

Accepted summaries always have enough support. The right one is accepted after the last vote
if no weight reaches `2 ^ 63` and the VM has an ongoing summary as long as the syncer
remembers one: `startup` does not forget a summary that is no longer ongoing.
-/

namespace Titan.StateSync

open Lib
open PChain (ID NodeID GoMap)
open Bootstrap (GoSet Pick Opinion Majority)
open Bootstrap.Poll (reporters trueWeight AllLight)

namespace Syncer

variable {cfg : Config} {current : Prop} {ss : Syncer} {env : Env}

/-! ## The last vote -/

section Vote

variable {nodeID : NodeID} {summaryIDs : GoSet ID}

section

variable (h : Inv cfg current ss)
include h

/-- Without large weights, summaries have the weight of their support. -/
theorem Inv.weight_eq (hlight : AllLight cfg.stateSyncBeacons) {id : ID} {ws : WeightedSummary}
    (hws : ss.weightedSummaries.lookup id = some ws) : ws.weight = (round ss.log).support cfg id :=
  (h.weights id ws hws).trans (signedWeight_of_light hlight _)

/-- The summaries with enough weight are those with enough support. -/
theorem Inv.supported_iff (hlists : ss.Lists) (hlight : AllLight cfg.stateSyncBeacons) (s : Summary) :
    (round ss.log).Supported cfg s ↔
      ∃ id ws, (ss.weightedSummaries.lookup id = some ws ∧ cfg.alpha ≤ ws.weight) ∧ ws.summary = s := by
  unfold Round.Supported
  rw [← hlists s.id]
  constructor
  · rintro ⟨hknown, hle⟩
    rcases Option.map_eq_some_iff.mp hknown with ⟨ws, hws, hsummary⟩
    refine ⟨s.id, ws, ⟨hws, ?_⟩, hsummary⟩
    rwa [h.weight_eq hlight hws]
  · rintro ⟨id, ws, ⟨hws, hle⟩, rfl⟩
    rw [hlists.summary_id hws]
    rw [h.weight_eq hlight hws] at hle
    exact ⟨by rw [hws]; rfl, hle⟩

theorem Inv.chooses (hlists : ss.Lists) (hlight : AllLight cfg.stateSyncBeacons)
    (hlocal : ss.locallyAvailableSummary = (round ss.log).ongoing)
    (hongoing : ∀ l ∈ (round ss.log).ongoing, ((round ss.log).known l.id).isSome) {s : Summary}
    (hs : ss.Picks cfg s) : (round ss.log).Chooses cfg s := by
  have hiff : (∃ l ∈ ss.locallyAvailableSummary, ∃ ws, ss.weightedSummaries.lookup l.id = some ws ∧
      cfg.alpha ≤ ws.weight) ↔ ∃ l ∈ (round ss.log).ongoing, cfg.alpha ≤ (round ss.log).support cfg l.id := by
    rw [hlocal]
    refine exists_congr fun l => and_congr_right fun hl => ?_
    constructor
    · rintro ⟨ws, hws, hle⟩
      rwa [h.weight_eq hlight hws] at hle
    · intro hle
      have hknown := hongoing l hl
      rw [← hlists l.id, Option.isSome_map] at hknown
      rcases Option.isSome_iff_exists.mp hknown with ⟨ws, hws⟩
      exact ⟨ws, hws, by rwa [h.weight_eq hlight hws]⟩
  unfold Picks at hs
  unfold Round.Chooses
  by_cases hcond : ∃ l ∈ (round ss.log).ongoing, cfg.alpha ≤ (round ss.log).support cfg l.id
  · rw [if_pos hcond, ← hlocal]
    rwa [if_pos (hiff.mpr hcond)] at hs
  · rw [if_neg hcond]
    rw [if_neg fun hlocal => hcond (hiff.mp hlocal)] at hs
    refine ⟨(h.supported_iff hlists hlight s).mpr hs.1, ?_⟩
    intro s' hs'
    rcases (h.supported_iff hlists hlight s').mp hs' with ⟨id, ws, hws, rfl⟩
    exact hs.2 id ws hws

omit h in
/-- The ongoing summary of a round is among those that are voted for. -/
theorem ongoing_known (log : List Effect) : ∀ l ∈ (round log).ongoing, ((round log).known l.id).isSome := by
  induction log using List.reverseRecOn with
  | nil =>
    intro l hl
    cases hl
  | append_singleton log e ih =>
    rw [round_append]
    cases e with
    | startup =>
      intro l hl
      cases hl
    | ongoing summary =>
      intro l hl
      cases hl
      simp [Round.next, Round.learn]
    | learned summary =>
      intro l hl
      have hold := ih l hl
      simp only [Round.next, Round.learn, Function.update_apply]
      split
      · rfl
      · exact hold
    | _ => exact ih

theorem Inv.acceptedStateSummary (hlight : current → AllLight cfg.stateSyncBeacons)
    (hcurrent : current → ss.Current env) (requestID : UInt32) :
    Inv cfg current (ss.acceptedStateSummary cfg env nodeID requestID summaryIDs) := by
  rcases acceptedStateSummary_cases cfg env ss nodeID requestID summaryIDs with heq | ⟨hn, hcases⟩
  · rwa [heq]
  have hcounted : Inv cfg False (ss.countVote cfg nodeID summaryIDs) := h.countVote hn
  have hlocal : current → ss.locallyAvailableSummary = (round (ss.countVote cfg nodeID summaryIDs).log).ongoing := by
    intro hc
    rw [round_countVote]
    exact h.remembers hc ⟨nodeID, Finset.mem_union_right _ hn⟩
  rcases hcases with ⟨⟨n, hpending⟩, heq⟩ | ⟨hlast, heq⟩
  · -- a voter is left, so that this was not the last vote
    have hvoter : n ∈ (ss.countVote cfg nodeID summaryIDs).voters := by
      rcases sendGetAcceptedStateSummaries_eq env (ss.countVote cfg nodeID summaryIDs)
        with ⟨target, pending, _, _, hmoves, -, -, hsent⟩
      rw [hsent] at hpending
      exact hmoves.union.subset (Finset.mem_union_right target hpending)
    have hopen : current → Complete cfg (ss.countVote cfg nodeID summaryIDs).log := by
      intro hc
      apply (h.complete hc).vote
      rintro ⟨hfinished, -⟩
      exact (hcounted.voters n hvoter).2 (hfinished n (hcounted.voters n hvoter).1)
    rw [heq]
    refine Inv.sendGetAcceptedStateSummaries ?_ env (h.noSeeders hn)
    exact { hcounted with complete := hopen, remembers := fun hc _ => hlocal hc }
  · have hsent := hcounted.sendGetAcceptedStateSummaries env (h.noSeeders hn)
    rw [heq]
    rw [hlast] at hsent ⊢
    have hlists : (ss.countVote cfg nodeID summaryIDs).Lists := h.listed hn
    refine hsent.decideVote hlists rfl ?_ ?_ hcurrent
    · intro s hpicks hc
      exact (h.complete hc).choice (hsent.chooses hlists (hlight hc) (hlocal hc) (ongoing_known _) hpicks)
    · -- nothing has enough support
      intro hnone hc
      apply (h.complete hc).vote
      rintro ⟨-, s, hs⟩
      rcases (hsent.supported_iff hlists (hlight hc) s).mp hs with ⟨id, ws, ⟨hws, hle⟩, -⟩
      exact absurd hle (not_le.mpr (hnone id ws hws))

end

end Vote

theorem Inv.step (h : Inv cfg current ss) (hlight : current → AllLight cfg.stateSyncBeacons)
    (hcurrent : current → ss.Current env) (event : Event) : Inv cfg current (ss.step cfg env event) := by
  have htry : ∀ requestID shouldStart,
      Inv cfg current (Syncer.tryStartSyncing cfg env { ss with requestID := requestID } shouldStart) := by
    intro requestID shouldStart
    unfold Syncer.tryStartSyncing
    split
    · exact { h with }
    · exact .startup h.safe h.complete hcurrent
  cases event with
  | start startReqID shouldStart => exact htry startReqID shouldStart
  | connected shouldStart => exact htry ss.requestID shouldStart
  | stateSummaryFrontier nodeID requestID summary => exact h.stateSummaryFrontier hcurrent nodeID requestID summary
  | getStateSummaryFrontierFailed nodeID requestID => exact h.getStateSummaryFrontierFailed hcurrent nodeID requestID
  | acceptedStateSummary nodeID requestID summaryIDs => exact h.acceptedStateSummary hlight hcurrent requestID
  | getAcceptedStateSummaryFailed nodeID requestID =>
    unfold Syncer.step Syncer.getAcceptedStateSummaryFailed
    dsimp only
    split
    · exact h
    · have h' : Inv cfg current { ss with failedVoters := insert nodeID ss.failedVoters } := { h with }
      exact h'.acceptedStateSummary hlight hcurrent requestID
  | notify => exact h.emit (silent_done _)

end Syncer

/-! ## Runs -/

/-- At every step the VM has an ongoing summary if the syncer remembers one. -/
def StaysCurrent (cfg : Config) (events : List (Env × Event)) : Prop :=
  ∀ before env event after, events = before ++ (env, event) :: after → (run cfg before).Current env

theorem inv_run (cfg : Config) (events : List (Env × Event)) :
    (run cfg events).Inv cfg (AllLight cfg.stateSyncBeacons ∧ StaysCurrent cfg events) := by
  induction events using List.reverseRecOn with
  | nil => exact Syncer.inv_new cfg _
  | append_singleton events e ih =>
    have hbefore : StaysCurrent cfg (events ++ [e]) → StaysCurrent cfg events := by
      intro hcurrent before env event after heq
      exact hcurrent before env event (after ++ [e]) (by rw [heq]; simp)
    rw [run, List.foldl_concat]
    exact (ih.mono (And.imp_right hbefore)).step And.left (fun hc => hc.2 events e.1 e.2 [] rfl) e.2

/-- In every run, accepted summaries have enough support and nobody is counted twice in a
round. Without weights from `2 ^ 63` on and outdated local summaries, the right summary is
accepted after the last vote of a round. -/
theorem stateSync_accepts_supported (cfg : Config) (events : List (Env × Event)) :
    Safe cfg (run cfg events).log ∧
      (AllLight cfg.stateSyncBeacons → StaysCurrent cfg events → Complete cfg (run cfg events).log) :=
  ⟨(inv_run cfg events).safe, fun hlight hcurrent => (inv_run cfg events).complete ⟨hlight, hcurrent⟩⟩

/-! ## One beacon -/

/-- A beacon of the given weight. -/
def oneBeacon (weight : BitVec 64) : Config :=
  ⟨(∅ : GoMap NodeID (BitVec 64)).insert 1 weight, 1, fun _ _ => true⟩

/-- There is no ongoing summary, and an accepted one is synced to in the background. -/
def quietEnv : Env := ⟨Bootstrap.Poll.leastPick, some [1], .notFound, Walk.stored _, some .dynamic⟩

/-- The beacon sends the summary of its frontier and votes for it. -/
def oneVote : List (Env × Event) :=
  [(quietEnv, .start 0 true), (quietEnv, .stateSummaryFrontier 1 1 (some ⟨7, 100⟩)),
    (quietEnv, .acceptedStateSummary 1 2 ⟨[7], by decide⟩)]

/-- A beacon of weight `2 ^ 63` votes for a summary, but state sync is skipped. -/
theorem heavy_beacon_skips_stateSync :
    (run (oneBeacon 0x8000000000000000) oneVote).log =
        [.startup, .getStateSummaryFrontier {1} 1, .learned ⟨7, 100⟩, .getAcceptedStateSummary {1} 2 [100],
          .counted 1 ⟨[7], by decide⟩, .done 2] ∧
      ¬ Complete (oneBeacon 0x8000000000000000) (run (oneBeacon 0x8000000000000000) oneVote).log := by
  refine ⟨by rfl, ?_⟩
  intro hcomplete
  have hlast := hcomplete
    [.startup, .getStateSummaryFrontier {1} 1, .learned ⟨7, 100⟩, .getAcceptedStateSummary {1} 2 [100]]
    1 ⟨[7], by decide⟩ [.done 2] (by rfl) (fun n hn => hn) ⟨⟨7, 100⟩, by rfl, by decide +kernel⟩
  rcases hlast with ⟨s, rest, hnext, -⟩
  cases hnext

theorem stateSync_accepts_supported_vote :
    (run (oneBeacon 5) oneVote).log =
        [.startup, .getStateSummaryFrontier {1} 1, .learned ⟨7, 100⟩, .getAcceptedStateSummary {1} 2 [100],
          .counted 1 ⟨[7], by decide⟩, .accept ⟨7, 100⟩, .done 2] ∧
      Safe (oneBeacon 5) (run (oneBeacon 5) oneVote).log ∧
      Complete (oneBeacon 5) (run (oneBeacon 5) oneVote).log := by
  have h := stateSync_accepts_supported (oneBeacon 5) oneVote
  refine ⟨by rfl, h.1, h.2 ?_ ?_⟩
  · intro n w hw
    change ((∅ : GoMap NodeID (BitVec 64)).insert 1 5).lookup n = some w at hw
    rw [lookup_insert_ite] at hw
    split at hw
    · cases hw
      decide
    · cases hw
  · -- nothing is remembered at any of the three steps
    intro before env event after heq hsome
    rcases before with _ | ⟨e, _ | ⟨e', _ | ⟨e'', before⟩⟩⟩
    · cases hsome
    · cases heq
      cases hsome
    · cases heq
      cases hsome
    · simp [oneVote] at heq

end Titan.StateSync
