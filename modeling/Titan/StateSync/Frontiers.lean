import Titan.StateSync.Syncer

/-!
# Titan.StateSync.Frontiers — the sample of the state syncer and its weight

`NewConfig` replaces the beacons by the state syncers of the user, each with a weight of one
(`syncer/config.go`). The number of nodes to sample is lowered to their weight, but in a
variable of the block: the configuration keeps the number that was given.

A round starts over if too few of the sampled nodes answered. What is subtracted from the
weight of the sample is the weight that the failed nodes have as beacons
(`syncer/state_syncer.go`).
-/

namespace Titan.StateSync

open PChain (NodeID GoMap)

/-- `TotalWeight` of a manager. -/
def totalWeight (vdrs : GoMap NodeID (BitVec 64)) : ℕ := (vdrs.entries.map fun e => e.2.toNat).sum

/-- `AddStaker` with a weight of one. -/
def addStaker (vdrs : GoMap NodeID (BitVec 64)) (nodeID : NodeID) : Option (GoMap NodeID (BitVec 64)) :=
  if nodeID ∈ vdrs then none else some (vdrs.insert nodeID 1)

/-- The comparison over exact rationals, multiplied by the weight of the beacons. -/
def enoughFrontiers (beaconsTotalWeight : ℕ) (alpha : ℤ) (frontiersTotalWeight failedBeaconWeight : ℕ) : Bool :=
  ¬ ((frontiersTotalWeight : ℤ) - failedBeaconWeight) * beaconsTotalWeight < frontiersTotalWeight * alpha

/-- `NewConfig`, with `SampleK` next to the rest. -/
def newConfig (beacons : GoMap NodeID (BitVec 64)) (sampleK alpha : ℤ) (stateSyncerIDs : List NodeID) :
    Option (ℤ × Config) :=
  if stateSyncerIDs = [] then
    some (sampleK, ⟨beacons, alpha, enoughFrontiers (totalWeight beacons) alpha⟩)
  else do
    let stateSyncBeacons ← stateSyncerIDs.foldlM addStaker ∅
    let stateSyncingWeight := totalWeight stateSyncBeacons
    -- The minimum with this weight is stored in a second `sampleK` that nothing reads.
    let alpha : ℤ := stateSyncingWeight / 2 + 1
    some (sampleK, ⟨stateSyncBeacons, alpha, enoughFrontiers stateSyncingWeight alpha⟩)

/-- The end of the frontier phase: a new round, or the vote over the summaries. -/
def Syncer.endFrontiers (cfg : Config) (env : Env) (ss : Syncer) (restart : Prop) [Decidable restart] : Syncer :=
  if restart then ss.startup cfg env
  else Syncer.sendGetAcceptedStateSummaries env { ss with requestID := ss.requestID + 1 }

/-- Nodes that differ are added, and each adds one to the weight. -/
theorem addStakers_ok : ∀ {ids : List NodeID} (vdrs : GoMap NodeID (BitVec 64)), ids.Nodup →
    (∀ id ∈ ids, id ∉ vdrs) → ∃ vdrs', ids.foldlM addStaker vdrs = some vdrs' ∧
      totalWeight vdrs' = totalWeight vdrs + ids.length
  | [], vdrs, _, _ => ⟨vdrs, rfl, rfl⟩
  | id :: ids, vdrs, hids, hnew => by
    have hid := hnew id List.mem_cons_self
    obtain ⟨hnot, hids⟩ := List.nodup_cons.mp hids
    obtain ⟨vdrs', hfold, htotal⟩ := addStakers_ok (vdrs.insert id 1) hids fun i hi hmem => by
      rcases AList.mem_insert vdrs |>.mp hmem with rfl | hmem
      · exact hnot hi
      · exact hnew i (List.mem_cons_of_mem _ hi) hmem
    refine ⟨vdrs', ?_, ?_⟩
    · rwa [List.foldlM_cons, addStaker, if_neg hid]
    · rw [htotal, totalWeight, AList.entries_insert_of_notMem hid, List.map_cons, List.sum_cons, ← totalWeight,
        List.length_cons, show (1 : BitVec 64).toNat = 1 from rfl]
      omega

/-- The number of nodes to sample is the given one, also when the beacons are replaced. -/
theorem newConfig_ok (beacons : GoMap NodeID (BitVec 64)) (sampleK alpha : ℤ) {stateSyncerIDs : List NodeID}
    (hids : stateSyncerIDs.Nodup) : ∃ cfg, newConfig beacons sampleK alpha stateSyncerIDs = some (sampleK, cfg) ∧
      cfg.enoughFrontiers = enoughFrontiers (totalWeight cfg.stateSyncBeacons) cfg.alpha ∧
      totalWeight cfg.stateSyncBeacons =
        if stateSyncerIDs = [] then totalWeight beacons else stateSyncerIDs.length := by
  by_cases hnil : stateSyncerIDs = []
  · exact ⟨_, if_pos hnil, rfl, (if_pos hnil).symm⟩
  · obtain ⟨vdrs, hfold, htotal⟩ := addStakers_ok ∅ hids fun id _ => AList.notMem_empty id
    refine ⟨_, by rw [newConfig, if_neg hnil, hfold]; rfl, rfl, ?_⟩
    rw [if_neg hnil, htotal]
    exact Nat.zero_add _

end Titan.StateSync
