import Titan.StateSync.Syncer
import Titan.Bootstrap.MajorityRuns
import Titan.Lib.SortedMap

/-!
# Titan.StateSync.Votes — the votes of a round

The log tells what a round has learned and counted (`Round`). Every summary that is accepted
has the support it needs, whatever the weights are: a weight that is read as a negative
number only lowers the count. `Complete` says that the last vote of a round is followed by
the acceptance of the right summary if one has enough support.
-/

namespace Titan.StateSync

open Lib
open PChain (ID NodeID GoMap)
open Bootstrap (GoSet Pick Opinion Majority)
open Bootstrap.Poll (reporters trueWeight mem_reporters reporters_append AllLight)

/-! ## Rounds -/

/-- What happened since the last start of a round. -/
structure Round where
  ongoing : Option Summary
  /-- The last summary with an ID that was learned. -/
  known : ID → Option Summary
  counted : List Opinion

namespace Round

def empty : Round := ⟨none, fun _ => none, []⟩

def learn (r : Round) (summary : Summary) : ID → Option Summary :=
  Function.update r.known summary.id (some summary)

def next (r : Round) : Effect → Round
  | .startup => empty
  | .ongoing summary => { r with ongoing := some summary, known := r.learn summary }
  | .learned summary => { r with known := r.learn summary }
  | .counted nodeID summaryIDs => { r with counted := r.counted ++ [(nodeID, summaryIDs)] }
  | _ => r

/-- The true weight of the beacons that named a summary. -/
def support (cfg : Config) (r : Round) (id : ID) : ℕ :=
  trueWeight cfg.stateSyncBeacons (reporters r.counted id)

/-- Every beacon has voted. -/
def Finished (cfg : Config) (r : Round) : Prop :=
  ∀ n ∈ cfg.stateSyncBeacons.keys, n ∈ r.counted.map Prod.fst

/-- The summary is known and has enough support. -/
def Supported (cfg : Config) (r : Round) (summary : Summary) : Prop :=
  r.known summary.id = some summary ∧ cfg.alpha ≤ r.support cfg summary.id

/-- The ongoing summary if it has enough support, or else one of greatest height that does. -/
def Chooses (cfg : Config) (r : Round) (summary : Summary) : Prop :=
  if ∃ l ∈ r.ongoing, cfg.alpha ≤ r.support cfg l.id then r.ongoing = some summary
  else r.Supported cfg summary ∧ ∀ s, r.Supported cfg s → s.height ≤ summary.height

end Round

def round (log : List Effect) : Round := log.foldl Round.next .empty

/-! ## What is expected of a log -/

structure Safe (cfg : Config) (log : List Effect) : Prop where
  /-- Accepted summaries have enough support. -/
  accepted : ∀ before summary after, log = before ++ .accept summary :: after →
    cfg.alpha ≤ (round before).support cfg summary.id
  /-- No beacon is counted twice in a round. -/
  once : ∀ before after, log = before ++ after → ((round before).counted.map Prod.fst).Nodup

/-- The last vote of a round is followed by the acceptance of a summary, if one can be. -/
def Complete (cfg : Config) (log : List Effect) : Prop :=
  ∀ before nodeID summaryIDs after, log = before ++ .counted nodeID summaryIDs :: after →
    (round (before ++ [.counted nodeID summaryIDs])).Finished cfg →
    (∃ s, (round (before ++ [.counted nodeID summaryIDs])).Supported cfg s) →
      ∃ s rest, after = .accept s :: rest ∧ (round (before ++ [.counted nodeID summaryIDs])).Chooses cfg s

section Logs

variable {cfg : Config} {log : List Effect}

@[simp] theorem round_append (log : List Effect) (e : Effect) : round (log ++ [e]) = (round log).next e :=
  List.foldl_concat ..

theorem split_append {e x : Effect} {before after : List Effect} (h : log ++ [e] = before ++ x :: after) :
    (log = before ∧ e = x ∧ after = []) ∨ ∃ after', after = after' ++ [e] ∧ log = before ++ x :: after' := by
  rcases List.eq_nil_or_concat after with rfl | ⟨after', y, rfl⟩
  · left
    rcases List.append_inj' h rfl with ⟨hlog, he⟩
    exact ⟨hlog, by simpa using he, rfl⟩
  · right
    have heq : log ++ [e] = (before ++ x :: after') ++ [y] := by simpa using h
    rcases List.append_inj' heq rfl with ⟨hlog, he⟩
    cases (List.singleton_inj.mp he)
    exact ⟨after', by simp, hlog⟩

theorem Safe.append {e : Effect} (h : Safe cfg log)
    (haccept : ∀ s, e = .accept s → cfg.alpha ≤ (round log).support cfg s.id)
    (honce : (((round log).next e).counted.map Prod.fst).Nodup) : Safe cfg (log ++ [e]) := by
  constructor
  · intro before summary after heq
    rcases split_append heq with ⟨rfl, he, -⟩ | ⟨after', -, hlog⟩
    · exact haccept summary he
    · exact h.accepted before summary after' hlog
  · intro before after heq
    rcases List.eq_nil_or_concat after with rfl | ⟨after', y, rfl⟩
    · rw [List.append_nil] at heq
      rw [← heq, round_append]
      exact honce
    · have heq' : log ++ [e] = (before ++ after') ++ [y] := by simpa using heq
      exact h.once before after' (List.append_inj' heq' rfl).1

/-- Neither a vote nor an acceptance. -/
def Effect.Aside : Effect → Prop
  | .counted _ _ => False
  | .accept _ => False
  | _ => True

theorem Safe.aside {e : Effect} (h : Safe cfg log) (he : e.Aside) : Safe cfg (log ++ [e]) := by
  have honce := h.once log [] (List.append_nil log).symm
  apply h.append
  · intro s hs
    rw [hs] at he
    exact he.elim
  · cases e with
    | startup => exact List.nodup_nil
    | counted => exact he.elim
    | _ => exact honce

theorem Complete.other {e : Effect} (h : Complete cfg log) (he : ∀ n ids, e ≠ .counted n ids) :
    Complete cfg (log ++ [e]) := by
  intro before nodeID summaryIDs after heq hfinished hsupported
  rcases split_append heq with ⟨-, hcounted, -⟩ | ⟨after', rfl, hlog⟩
  · exact absurd hcounted (he nodeID summaryIDs)
  · rcases h before nodeID summaryIDs after' hlog hfinished hsupported with ⟨s, rest, rfl, hs⟩
    exact ⟨s, rest ++ [e], rfl, hs⟩

/-- A vote that is not the last one, or after which nothing has enough support. -/
theorem Complete.vote {nodeID : NodeID} {summaryIDs : GoSet ID} (h : Complete cfg log)
    (hopen : ¬ ((round (log ++ [.counted nodeID summaryIDs])).Finished cfg ∧
      ∃ s, (round (log ++ [.counted nodeID summaryIDs])).Supported cfg s)) :
    Complete cfg (log ++ [.counted nodeID summaryIDs]) := by
  intro before nodeID' summaryIDs' after heq hfinished hsupported
  rcases split_append heq with ⟨rfl, he, rfl⟩ | ⟨after', rfl, hlog⟩
  · rw [← he] at hfinished hsupported
    exact absurd ⟨hfinished, hsupported⟩ hopen
  · rcases h before nodeID' summaryIDs' after' hlog hfinished hsupported with ⟨s, rest, rfl, hs⟩
    exact ⟨s, rest ++ [.counted nodeID summaryIDs], rfl, hs⟩

theorem Complete.choice {nodeID : NodeID} {summaryIDs : GoSet ID} {s : Summary} (h : Complete cfg log)
    (hs : (round (log ++ [.counted nodeID summaryIDs])).Chooses cfg s) :
    Complete cfg (log ++ [.counted nodeID summaryIDs] ++ [.accept s]) := by
  intro before nodeID' summaryIDs' after heq hfinished hsupported
  rcases split_append heq with ⟨-, he, -⟩ | ⟨after', rfl, hlog⟩
  · cases he
  · rcases split_append hlog with ⟨rfl, he, rfl⟩ | ⟨after'', rfl, hlog'⟩
    · rw [← he]
      exact ⟨s, [], rfl, hs⟩
    · rcases h before nodeID' summaryIDs' after'' hlog' hfinished hsupported with ⟨s', rest, rfl, hs'⟩
      exact ⟨s', _, rfl, hs'⟩

end Logs

/-! ## Weights -/

section Weights

variable {W : GoMap NodeID (BitVec 64)}

/-- The weight of some nodes as it is added up. -/
def signedWeight (W : GoMap NodeID (BitVec 64)) (nodes : Finset NodeID) : ℤ :=
  ∑ n ∈ nodes, (Majority.weight W n).toInt

theorem toInt_le_toNat (w : BitVec 64) : w.toInt ≤ w.toNat := by
  rw [BitVec.toInt_eq_toNat_cond]
  split <;> omega

theorem signedWeight_le (nodes : Finset NodeID) : signedWeight W nodes ≤ trueWeight W nodes := by
  unfold signedWeight trueWeight
  push_cast
  exact Finset.sum_le_sum fun n _ => toInt_le_toNat _

theorem signedWeight_of_light (h : AllLight W) (nodes : Finset NodeID) :
    signedWeight W nodes = trueWeight W nodes := by
  unfold signedWeight trueWeight
  push_cast
  refine Finset.sum_congr rfl fun n _ => ?_
  unfold Majority.weight
  rcases hw : W.lookup n with _ | w
  · rfl
  · have hlight := h n w hw
    rw [Option.getD_some, BitVec.toInt_eq_toNat_cond, if_pos (by omega)]

theorem signedWeight_append {counted : List Opinion} {o : Opinion} (hnew : o.1 ∉ counted.map Prod.fst) (id : ID) :
    signedWeight W (reporters (counted ++ [o]) id) =
      signedWeight W (reporters counted id) + if id ∈ o.2.elems then (Majority.weight W o.1).toInt else 0 := by
  rw [reporters_append]
  split
  next =>
    have hnot : o.1 ∉ reporters counted id := by
      intro hmem
      rcases mem_reporters.mp hmem with ⟨o', ho', -, heq⟩
      exact hnew (heq ▸ List.mem_map_of_mem ho')
    rw [signedWeight, Finset.sum_insert hnot, add_comm, signedWeight]
  next => rw [add_zero]

end Weights

/-! ## Loops -/

theorem lookup_addWeight (w : BitVec 64) (m : GoMap ID WeightedSummary) (id x : ID) :
    (Syncer.addWeight w m id).lookup x =
      (m.lookup x).map fun ws => if x = id then { ws with weight := ws.weight + w.toInt } else ws := by
  unfold Syncer.addWeight
  by_cases hx : x = id
  · subst hx
    rcases h : m.lookup x with _ | ws
    · exact h
    · simp
  · have hmap : (m.lookup x).map (fun ws => if x = id then { ws with weight := ws.weight + w.toInt } else ws) =
        m.lookup x := by simp [hx]
    rw [hmap]
    rcases m.lookup id with _ | ws
    · rfl
    · exact AList.lookup_insert_ne hx

/-- The weight of a vote is added to each summary that it names. -/
theorem lookup_foldl_addWeight (w : BitVec 64) (ids : List ID) (hnodup : ids.Nodup)
    (m : GoMap ID WeightedSummary) (x : ID) :
    (ids.foldl (Syncer.addWeight w) m).lookup x =
      (m.lookup x).map fun ws => { ws with weight := ws.weight + if x ∈ ids then w.toInt else 0 } := by
  induction ids generalizing m with
  | nil => simp
  | cons id ids ih =>
    rw [List.nodup_cons] at hnodup
    rw [List.foldl_cons, ih hnodup.2, lookup_addWeight]
    rcases m.lookup x with _ | ws
    · rfl
    · by_cases hx : x = id
      · subst hx
        simp [hnodup.1]
      · simp [hx]

theorem lookup_foldl_drop (alpha : ℤ) (l : List (Sigma fun _ : ID => WeightedSummary))
    (m : GoMap ID WeightedSummary) (x : ID) :
    (l.foldl (fun m e => if e.2.weight < alpha then m.erase e.1 else m) m).lookup x =
      if ∃ e ∈ l, e.1 = x ∧ e.2.weight < alpha then none else m.lookup x := by
  induction l generalizing m with
  | nil => simp
  | cons e l ih =>
    rw [List.foldl_cons, ih]
    by_cases hl : ∃ e ∈ l, e.1 = x ∧ e.2.weight < alpha
    · simp [hl]
    · by_cases he : e.2.weight < alpha
      · rw [if_pos he, lookup_erase_ite]
        by_cases hx : x = e.1
        · simp [hx, he]
        · simp [hl, hx, Ne.symm hx]
      · simp [hl, he]

/-- The summaries with enough weight stay. -/
theorem lookup_dropUnsupported {alpha : ℤ} {m : GoMap ID WeightedSummary} {x : ID} {ws : WeightedSummary} :
    (Syncer.dropUnsupported alpha m).lookup x = some ws ↔ m.lookup x = some ws ∧ alpha ≤ ws.weight := by
  unfold Syncer.dropUnsupported
  rw [lookup_foldl_drop]
  have hentries : (∃ e ∈ m.entries, e.1 = x ∧ e.2.weight < alpha) ↔ ∃ ws, m.lookup x = some ws ∧ ws.weight < alpha := by
    constructor
    · rintro ⟨⟨y, ws⟩, he, rfl, hlt⟩
      exact ⟨ws, AList.mem_lookup_iff.mpr he, hlt⟩
    · rintro ⟨ws, hws, hlt⟩
      exact ⟨⟨x, ws⟩, AList.mem_lookup_iff.mp hws, rfl, hlt⟩
  split
  next hdrop =>
    rcases hentries.mp hdrop with ⟨ws', hws', hlt⟩
    constructor
    · intro h
      cases h
    · rintro ⟨hws, hle⟩
      rw [hws'] at hws
      cases hws
      omega
  next hkeep =>
    constructor
    · intro hws
      refine ⟨hws, ?_⟩
      by_contra hlt
      exact hkeep (hentries.mpr ⟨ws, hws, by omega⟩)
    · exact And.left

/-! ## The choice of a summary -/

section Select

variable {loc : Option Summary}

theorem selectLoop_local {l : Summary} {es : List (Sigma fun _ : ID => WeightedSummary)} (height : ℕ)
    (preferred : Option Summary) (h : ∃ e ∈ es, e.1 = l.id) :
    Syncer.selectLoop (some l) es height preferred = some l := by
  induction es generalizing height preferred with
  | nil => simp at h
  | cons e es ih =>
    rw [Syncer.selectLoop]
    by_cases he : l.id = e.1
    · rw [Option.filter_some_pos (by simpa using he)]
    · have hrest : ∃ e ∈ es, e.1 = l.id := by
        rcases h with ⟨e', he', heq⟩
        rcases List.mem_cons.mp he' with rfl | hmem
        · exact absurd heq.symm he
        · exact ⟨e', hmem, heq⟩
      have hfilter : (some l).filter (fun s => decide (s.id = e.1)) = none := by simp [he]
      rw [hfilter]
      dsimp only
      split
      · exact ih _ _ hrest
      · exact ih _ _ hrest

/-- Without the local summary, the loop ends with a summary of greatest height. -/
theorem selectLoop_highest (es : List (Sigma fun _ : ID => WeightedSummary)) (height : ℕ)
    (preferred : Option Summary) (hloc : ∀ e ∈ es, loc.filter (·.id = e.1) = none)
    (hheight : ∀ s ∈ preferred, s.height = height) (hzero : preferred = none → height = 0)
    (hne : es ≠ [] ∨ preferred.isSome) :
    ∃ s, Syncer.selectLoop loc es height preferred = some s ∧
      (preferred = some s ∨ ∃ e ∈ es, e.2.summary = s) ∧ height ≤ s.height ∧
      ∀ e ∈ es, e.2.summary.height ≤ s.height := by
  induction es generalizing height preferred with
  | nil =>
    rcases Option.isSome_iff_exists.mp (hne.resolve_left fun h => h rfl) with ⟨s, rfl⟩
    exact ⟨s, rfl, .inl rfl, (hheight s rfl).ge, by simp⟩
  | cons e es ih =>
    have hloc' : ∀ e ∈ es, loc.filter (·.id = e.1) = none :=
      fun e' he' => hloc e' (List.mem_cons_of_mem _ he')
    rw [Syncer.selectLoop, hloc e List.mem_cons_self]
    dsimp only
    split
    next hle =>
      -- the summary is preferred from here on
      rcases ih e.2.summary.height (some e.2.summary) hloc' (by simp) (by simp) (.inr rfl)
        with ⟨s, hs, hmem, hge, hall⟩
      refine ⟨s, hs, .inr ?_, hle.trans hge, List.forall_mem_cons.mpr ⟨hge, hall⟩⟩
      rcases hmem with heq | ⟨e', he', heq⟩
      · exact ⟨e, List.mem_cons_self, Option.some.inj heq⟩
      · exact ⟨e', List.mem_cons_of_mem _ he', heq⟩
    next hlt =>
      have hsome : preferred.isSome := by
        by_contra hnone
        have hz := hzero (by simpa using hnone)
        omega
      rcases ih height preferred hloc' hheight hzero (.inr hsome) with ⟨s, hs, hmem, hge, hall⟩
      refine ⟨s, hs, ?_, hge, List.forall_mem_cons.mpr ⟨by omega, hall⟩⟩
      rcases hmem with heq | ⟨e', he', heq⟩
      · exact .inl heq
      · exact .inr ⟨e', List.mem_cons_of_mem _ he', heq⟩

end Select

end Titan.StateSync
