import Titan.Snow.Tree

/-!
# Titan.Snow.Snowflake — when a snowflake instance finalizes

`binarySnowflake` and `nnarySnowflake` with several termination conditions. The two are one
definition in the type of their choices, which is `int` and `ids.ID`. A counter is kept next to
its condition, so that there are as many counters as conditions.

`streak` is what a counter counts: the last polls in a row that were strong enough for its
condition and for one choice.
-/

namespace Titan.Snow

structure TerminationCondition where
  alphaConfidence : ℤ
  beta : ℕ
deriving DecidableEq, Repr

structure Snowflake (α : Type) where
  /-- The preference of the embedded slush instance. -/
  preference : α
  alphaPreference : ℤ
  confidence : List (TerminationCondition × ℕ)
  finalized : Bool

inductive Poll (α : Type)
  | recorded (count : ℤ) (choice : α)
  | unsuccessful

namespace Snowflake

variable {α : Type}

def clear (confidence : List (TerminationCondition × ℕ)) : List (TerminationCondition × ℕ) :=
  confidence.map fun c => (c.1, 0)

def new (alphaPreference : ℤ) (conditions : List TerminationCondition) (choice : α) : Snowflake α :=
  ⟨choice, alphaPreference, conditions.map (·, 0), false⟩

def newBinarySnowflake : ℤ → List TerminationCondition → ℤ → Snowflake ℤ := new

def newNnarySnowflake : ℤ → List TerminationCondition → ID → Snowflake ID := new

/-- The loop of `RecordPoll`: the counters, and whether one of them finalized the instance. -/
def recordLoop (count : ℤ) : List (TerminationCondition × ℕ) → List (TerminationCondition × ℕ) × Bool
  | [] => ([], false)
  | (condition, n) :: rest =>
    if count < condition.alphaConfidence then (clear ((condition, n) :: rest), false)
    else if condition.beta ≤ n + 1 then ((condition, n + 1) :: rest, true)
    else
      let (rest, finalized) := recordLoop count rest
      ((condition, n + 1) :: rest, finalized)

def recordUnsuccessfulPoll (sf : Snowflake α) : Snowflake α :=
  { sf with confidence := clear sf.confidence }

variable [DecidableEq α]

def recordPoll (sf : Snowflake α) (count : ℤ) (choice : α) : Snowflake α :=
  if sf.finalized then sf
  else if count < sf.alphaPreference then sf.recordUnsuccessfulPoll
  else
    -- changing the preference resets the counters first
    let confidence := if choice ≠ sf.preference then clear sf.confidence else sf.confidence
    let (confidence, finalized) := recordLoop count confidence
    ⟨choice, sf.alphaPreference, confidence, finalized⟩

def record (sf : Snowflake α) : Poll α → Snowflake α
  | .recorded count choice => sf.recordPoll count choice
  | .unsuccessful => sf.recordUnsuccessfulPoll

def run (sf : Snowflake α) (polls : List (Poll α)) : Snowflake α := polls.foldl record sf

/-! ## Streaks -/

def strong (condition : TerminationCondition) (choice : α) : Poll α → Bool
  | .recorded count c => condition.alphaConfidence ≤ count ∧ c = choice
  | .unsuccessful => false

/-- The number of the last polls in a row that were strong for the choice. -/
def streak (condition : TerminationCondition) (choice : α) (polls : List (Poll α)) : ℕ :=
  (polls.reverse.takeWhile (strong condition choice)).length

variable {condition : TerminationCondition} {choice : α} {polls : List (Poll α)} {p : Poll α}

theorem streak_concat : streak condition choice (polls ++ [p]) =
    if strong condition choice p then streak condition choice polls + 1 else 0 := by
  rw [streak, List.reverse_append, List.reverse_singleton, List.singleton_append, List.takeWhile_cons]
  split <;> rfl

/-- A poll that is strong for a higher threshold is strong for a lower one. -/
theorem streak_le {c d : TerminationCondition} (h : c.alphaConfidence ≤ d.alphaConfidence) :
    streak d choice polls ≤ streak c choice polls := by
  induction polls using List.reverseRecOn with
  | nil => exact Nat.zero_le _
  | append_singleton polls p ih =>
    rw [streak_concat, streak_concat]
    split
    next hd =>
      have hc : strong c choice p := by
        cases p with
        | unsuccessful => exact hd
        | recorded count other =>
          simp only [strong, decide_eq_true_eq] at hd ⊢
          exact ⟨h.trans hd.1, hd.2⟩
      rw [if_pos hc]
      exact Nat.succ_le_succ ih
    next => exact Nat.zero_le _

/-! ## Counting -/

/-- The conditions are in the order of their thresholds. -/
structure Valid (alphaPreference : ℤ) (conditions : List TerminationCondition) : Prop where
  increasing : conditions.Pairwise fun c d => c.alphaConfidence < d.alphaConfidence
  alpha_le : ∀ c ∈ conditions, alphaPreference ≤ c.alphaConfidence
  beta_pos : ∀ c ∈ conditions, 1 ≤ c.beta

variable {conditions : List TerminationCondition} {count : ℤ} {sf : Snowflake α}

/-- The loop counts a poll for the conditions that it is strong enough for. -/
theorem recordLoop_spec (n : TerminationCondition → ℕ)
    (h : conditions.Pairwise fun c d => c.alphaConfidence < d.alphaConfidence) :
    ((recordLoop count (conditions.map fun c => (c, n c))).2 = true ↔
      ∃ c ∈ conditions, c.alphaConfidence ≤ count ∧ c.beta ≤ n c + 1) ∧
    ((recordLoop count (conditions.map fun c => (c, n c))).2 = false →
      (recordLoop count (conditions.map fun c => (c, n c))).1 =
        conditions.map fun c => (c, if c.alphaConfidence ≤ count then n c + 1 else 0)) := by
  induction conditions with
  | nil => simp [recordLoop]
  | cons c conditions ih =>
    rw [List.pairwise_cons] at h
    rw [List.map_cons, recordLoop]
    split
    next hlt =>
      -- the later thresholds are not reached either
      have hweak : ∀ d ∈ c :: conditions, count < d.alphaConfidence := by
        rintro d (_ | ⟨_, hd⟩)
        · exact hlt
        · exact hlt.trans (h.1 d hd)
      constructor
      · simp only [Bool.false_eq_true, false_iff]
        rintro ⟨d, hd, hle, -⟩
        exact absurd (hweak d hd) (not_lt.mpr hle)
      · intro _
        change clear ((c :: conditions).map fun c => (c, n c)) = _
        rw [clear, List.map_map]
        refine List.map_congr_left fun d hd => ?_
        rw [if_neg (not_le.mpr (hweak d hd))]
        rfl
    next hle =>
      rw [not_lt] at hle
      split
      next hbeta => simp [hle, hbeta]
      next hbeta =>
        obtain ⟨hfin, hopen⟩ := ih h.2
        constructor
        · simp [hfin, hbeta]
        · intro hnot
          simp [hopen hnot, hle]

/-- The instance after these polls, the last of which may have finalized it. -/
structure Counts (conditions : List TerminationCondition) (polls : List (Poll α)) (sf : Snowflake α) : Prop where
  valid : Valid sf.alphaPreference conditions
  finalized : sf.finalized ↔ ∃ c ∈ conditions, c.beta ≤ streak c sf.preference polls
  confidence : sf.finalized = false →
    sf.confidence = conditions.map fun c => (c, streak c sf.preference polls)
  last : ∀ c ∈ conditions, ∀ choice ≠ sf.preference, streak c choice polls = 0

theorem Counts.cleared (h : Counts conditions polls sf) (hopen : sf.finalized = false)
    (hweak : ∀ c ∈ conditions, ∀ choice, strong c choice p = false) :
    Counts conditions (polls ++ [p]) sf.recordUnsuccessfulPoll := by
  have hzero : ∀ c ∈ conditions, ∀ choice, streak c choice (polls ++ [p]) = 0 := by
    intro c hc choice
    rw [streak_concat, hweak c hc choice]
    rfl
  refine ⟨h.valid, ?_, fun _ => ?_, fun c hc choice _ => hzero c hc choice⟩
  · refine iff_of_false (ne_true_of_eq_false hopen) ?_
    rintro ⟨c, hc, hle⟩
    rw [hzero c hc] at hle
    exact absurd (h.valid.beta_pos c hc) (Nat.not_lt.mpr hle)
  · rw [recordUnsuccessfulPoll, clear, h.confidence hopen, List.map_map]
    exact List.map_congr_left fun c hc => congrArg (Prod.mk c) (hzero c hc _).symm

theorem Counts.record (h : Counts conditions polls sf) (hopen : sf.finalized = false) (p : Poll α) :
    Counts conditions (polls ++ [p]) (sf.record p) := by
  cases p with
  | unsuccessful => exact h.cleared hopen fun _ _ _ => rfl
  | recorded count choice =>
    by_cases hlt : count < sf.alphaPreference
    · simp only [Snowflake.record, recordPoll, hopen, hlt, if_true, Bool.false_eq_true, if_false]
      refine h.cleared hopen fun c hc _ => ?_
      have := h.valid.alpha_le c hc
      simp only [strong, decide_eq_false_iff_not]
      omega
    · -- when the preference changes, the cleared counters are the streaks of the new one
      have hconf : (if choice ≠ sf.preference then clear sf.confidence else sf.confidence) =
          conditions.map fun c => (c, streak c choice polls) := by
        split
        next hne =>
          rw [h.confidence hopen, clear, List.map_map]
          exact List.map_congr_left fun c hc => congrArg (Prod.mk c) (h.last c hc choice hne).symm
        next heq => rw [h.confidence hopen, not_not.mp heq]
      simp only [Snowflake.record, recordPoll, hopen, hlt, Bool.false_eq_true, if_false, hconf]
      obtain ⟨hfin, hcounters⟩ :=
        @recordLoop_spec conditions count (fun c => streak c choice polls) h.valid.increasing
      have hstreak (c) : streak c choice (polls ++ [.recorded count choice]) =
          if c.alphaConfidence ≤ count then streak c choice polls + 1 else 0 := by
        simp [streak_concat, strong]
      refine ⟨h.valid, ?_, fun h => ?_, fun c _ other hne => ?_⟩
      · rw [hfin]
        refine exists_congr fun c => and_congr_right fun hc => ?_
        have := h.valid.beta_pos c hc
        rw [hstreak]
        split <;> omega
      · simp only [hstreak]
        exact hcounters h
      · simp [streak_concat, strong, hne.symm]

/-! ## Runs -/

theorem run_concat : sf.run (polls ++ [p]) = (sf.run polls).record p := by
  rw [run, List.foldl_append]
  rfl

theorem run_finalized (h : (sf.run polls).finalized) (more : List (Poll α)) :
    (sf.run (polls ++ more)).finalized ∧ (sf.run (polls ++ more)).preference = (sf.run polls).preference := by
  induction more using List.reverseRecOn with
  | nil => simp [h]
  | append_singleton more p ih =>
    rw [← List.append_assoc, run_concat, ← ih.2]
    cases p with
    | unsuccessful => exact ⟨ih.1, rfl⟩
    | recorded count choice => simp [record, recordPoll, ih.1]

/-- The polls contain `beta` in a row that are strong for one choice, the last of them `p`,
on an instance that is still open. -/
def Decides (sf : Snowflake α) (polls : List (Poll α)) (c : TerminationCondition) (choice : α) : Prop :=
  ∃ before p after, polls = before ++ [p] ++ after ∧ c.beta ≤ streak c choice (before ++ [p]) ∧
    (sf.run before).finalized = false

structure FinalizesOnStreaks (sf : Snowflake α) (conditions : List TerminationCondition)
    (polls : List (Poll α)) : Prop where
  finalized_iff : (sf.run polls).finalized ↔ ∃ c ∈ conditions, ∃ choice, Decides sf polls c choice
  decision : ∀ c ∈ conditions, ∀ choice, Decides sf polls c choice → (sf.run polls).preference = choice
  stays : (sf.run polls).finalized → ∀ more, (sf.run (polls ++ more)).finalized ∧
    (sf.run (polls ++ more)).preference = (sf.run polls).preference
  descending : (sf.run polls).finalized = false →
    ((sf.run polls).confidence.map Prod.snd).IsChain (· ≥ ·)

section Fresh

variable (h : Counts conditions [] sf)

include h

theorem run_counts (hopen : (sf.run polls).finalized = false) : Counts conditions polls (sf.run polls) := by
  induction polls using List.reverseRecOn with
  | nil => exact h
  | append_singleton polls p ih =>
    have hbefore : (sf.run polls).finalized = false := by
      by_contra hfin
      rw [(run_finalized (Bool.of_not_eq_false hfin) [p]).1] at hopen
      cases hopen
    rw [run_concat]
    exact (ih hbefore).record hbefore p

theorem run_counts_concat (hopen : (sf.run polls).finalized = false) (p : Poll α) :
    Counts conditions (polls ++ [p]) (sf.run (polls ++ [p])) := by
  rw [run_concat]
  exact (run_counts h hopen).record hopen p

theorem Decides.finalized (hc : condition ∈ conditions) (hdecides : Decides sf polls condition choice) :
    (sf.run polls).finalized ∧ (sf.run polls).preference = choice := by
  obtain ⟨before, p, after, rfl, hle, hopen⟩ := hdecides
  have hcounts := run_counts_concat h hopen p
  have hpref : (sf.run (before ++ [p])).preference = choice := by
    by_contra hother
    rw [hcounts.last condition hc choice (Ne.symm hother)] at hle
    exact absurd (h.valid.beta_pos condition hc) (Nat.not_lt.mpr hle)
  have hfin := hcounts.finalized.mpr ⟨condition, hc, hpref ▸ hle⟩
  exact ⟨(run_finalized hfin after).1, (run_finalized hfin after).2.trans hpref⟩

theorem exists_decides (hfin : (sf.run polls).finalized) :
    ∃ c ∈ conditions, ∃ choice, Decides sf polls c choice := by
  induction polls using List.reverseRecOn with
  | nil =>
    obtain ⟨c, hc, hle⟩ := h.finalized.mp hfin
    exact absurd (h.valid.beta_pos c hc) (Nat.not_lt.mpr hle)
  | append_singleton polls p ih =>
    cases hopen : (sf.run polls).finalized with
    | true =>
      obtain ⟨c, hc, choice, before, q, after, rfl, hdecides⟩ := ih hopen
      exact ⟨c, hc, choice, before, q, after ++ [p], by simp, hdecides⟩
    | false =>
      obtain ⟨c, hc, hle⟩ := (run_counts_concat h hopen p).finalized.mp hfin
      exact ⟨c, hc, _, polls, p, [], by simp, hle, hopen⟩

end Fresh

theorem new_finalizesOnStreaks {alphaPreference : ℤ} {initial : α} (hvalid : Valid alphaPreference conditions) :
    FinalizesOnStreaks (new alphaPreference conditions initial) conditions polls := by
  have h : Counts conditions [] (new alphaPreference conditions initial) := by
    refine ⟨hvalid, iff_of_false Bool.false_ne_true ?_, fun _ => rfl, fun _ _ _ _ => rfl⟩
    rintro ⟨c, hc, hle⟩
    exact absurd (hvalid.beta_pos c hc) (Nat.not_lt.mpr hle)
  refine ⟨⟨exists_decides h, ?_⟩, fun c hc choice hd => (hd.finalized h hc).2, run_finalized, ?_⟩
  · rintro ⟨c, hc, choice, hd⟩
    exact (hd.finalized h hc).1
  · intro hopen
    rw [(run_counts h hopen).confidence hopen, List.map_map]
    refine List.Pairwise.isChain (List.pairwise_map.mpr ?_)
    exact hvalid.increasing.imp fun hlt => streak_le hlt.le

/-- A snowflake instance finalizes exactly on `beta` polls in a row that are strong for one choice. -/
theorem snowflake_finalizes_on_streaks {alphaPreference : ℤ} (hvalid : Valid alphaPreference conditions) :
    (∀ (initial : ℤ) polls,
      FinalizesOnStreaks (newBinarySnowflake alphaPreference conditions initial) conditions polls) ∧
    ∀ (initial : ID) polls,
      FinalizesOnStreaks (newNnarySnowflake alphaPreference conditions initial) conditions polls :=
  ⟨fun _ _ => new_finalizesOnStreaks hvalid, fun _ _ => new_finalizesOnStreaks hvalid⟩

theorem snowflake_finalizes_on_streaks_two :
    ((newBinarySnowflake 2 [⟨2, 2⟩, ⟨3, 1⟩] 0).run [.recorded 2 1, .unsuccessful, .recorded 3 1]).finalized ∧
    FinalizesOnStreaks (newBinarySnowflake 2 [⟨2, 2⟩, ⟨3, 1⟩] 0) [⟨2, 2⟩, ⟨3, 1⟩]
      [.recorded 2 1, .unsuccessful, .recorded 3 1] :=
  ⟨by decide, (snowflake_finalizes_on_streaks ⟨by decide, by decide, by decide⟩).1 0 _⟩

end Snowflake

end Titan.Snow
