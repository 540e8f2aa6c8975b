import Titan.Genesis.Splitting
import Titan.Lib.Tally

/-!
# Titan.Genesis.Soundness — which configurations build a sound genesis state

A validated configuration builds a sound genesis state exactly if the staked allocations lock
at least one unit for each initial staker and the end times of the stakers do not wrap around
or reach the start. `validateConfig` checks neither: it adds up the locked amounts of all
allocations, and it lets the offsets use up the whole duration.
-/

namespace Titan.Genesis

open Lib

/-! ## What is expected of a genesis state -/

/-- The unlock time of an output at genesis. -/
def unlockTime (time : BitVec 64) (locktime : ℕ) : ℕ := if time.toNat < locktime then locktime else 0

/-- The key under which an output holds its amount. -/
def Output.key (o : Output) : Key := (o.address, o.locktime.getD 0)

def held (outputs : List Output) : List (Key × ℕ) := outputs.map fun o => (o.key, o.amount)

namespace Config

variable (config : Config)

/-- The locked amounts of the configuration. -/
def configured : List (Key × ℕ) :=
  (locked config.allocations).map fun e => ((e.1.1, unlockTime config.startTime e.1.2), e.2)

/-- The end time of the staker with an index. -/
def endTime (i : ℕ) : BitVec 64 :=
  config.endStakingTime (BitVec.ofNat 64 i * (config.initialStakeDurationOffset * second))

/-- An end time after the start and within the duration. -/
def InTime (endTime : BitVec 64) : Prop :=
  config.startTime.toNat < endTime.toNat ∧
    endTime.toNat ≤ config.startTime.toNat + config.initialStakeDuration.toNat

structure Sound (g : State) : Prop where
  /-- There is a validator for each staker. All but the last get the floor of the mean. -/
  stakers : ∃ vdrs, g.validators.Perm vdrs ∧ vdrs.map (·.nodeID) = config.initialStakers.map (·.nodeID) ∧
    ∀ v ∈ vdrs.dropLast, v.weight = total (locked config.staked) / config.initialStakers.length
  weights : ∀ v ∈ g.validators, 0 < v.weight ∧ v.weight = (v.stakeOuts.map (·.amount)).sum
  times : ∀ v ∈ g.validators, config.InTime v.endTime
  amounts : ∀ k, totalAt (held (g.utxos.map Prod.fst)) k + totalAt (held (g.validators.flatMap (·.stakeOuts))) k =
    totalAt config.configured k
  supply : g.initialSupply = (config.xAllocations.map Prod.fst).sum + (g.utxos.map (·.1.amount)).sum +
    (g.validators.map (·.weight)).sum

/-- Every end time is in time. -/
def TimesFit : Prop := ∀ i < config.initialStakers.length, config.InTime (config.endTime i)

end Config

/-! ## Sums -/

theorem totalAt_eq_weigh (l : List (Key × ℕ)) (k : Key) : totalAt l k = weigh (fun x => if x = k then 1 else 0) l := by
  unfold totalAt weigh
  congr 1
  refine List.map_congr_left fun e _ => ?_
  by_cases he : e.1 = k <;> simp [he]

theorem weigh_map (f : Key → ℕ) (g : Key → Key) (l : List (Key × ℕ)) :
    weigh f (l.map fun e => (g e.1, e.2)) = weigh (fun k => f (g k)) l := by
  unfold weigh
  rw [List.map_map]
  rfl

theorem total_eq_sum (l : List (Key × ℕ)) : total l = (l.map Prod.snd).sum := by
  simp [total, weigh]

theorem map_eq_of_forall₂ {α β γ : Type} {R : α → β → Prop} {f : α → γ} {g : β → γ} {l : List α} {l' : List β}
    (h : List.Forall₂ R l l') (hR : ∀ a b, R a b → g b = f a) : l'.map g = l.map f := by
  induction h with
  | nil => rfl
  | cons hab _ ih => rw [List.map_cons, List.map_cons, hR _ _ hab, ih]

theorem sum_total (nodes : List (List Allocation)) :
    (nodes.map fun node => total (locked node)).sum = total (locked nodes.flatten) := by
  induction nodes with
  | nil => rfl
  | cons node nodes ih =>
    rw [List.map_cons, List.sum_cons, ih, List.flatten_cons, locked_append]
    exact (weigh_append 1 _ _).symm

/-- The amounts of P-chain allocations. -/
def PAllocation.entries (l : List PAllocation) : List (Key × ℕ) := l.map fun a => ((a.address, a.locktime), a.amount)

theorem held_output (time : BitVec 64) (l : List PAllocation) :
    held (l.map (·.output time)) = (PAllocation.entries l).map fun e => ((e.1.1, unlockTime time e.1.2), e.2) := by
  unfold held PAllocation.entries
  rw [List.map_map, List.map_map]
  refine List.map_congr_left fun a _ => ?_
  simp only [Function.comp_apply, PAllocation.output, Output.key, unlockTime]
  split <;> rfl

theorem entries_stakedBy (node : List Allocation) : PAllocation.entries (Config.stakedBy node) = locked node := by
  unfold PAllocation.entries Config.stakedBy locked scheduled
  rw [List.map_flatMap]
  refine List.flatMap_congr fun a _ => ?_
  rw [List.map_map]
  rfl

theorem entries_flatten (nodes : List (List Allocation)) :
    PAllocation.entries (nodes.map Config.stakedBy).flatten = locked nodes.flatten := by
  induction nodes with
  | nil => rfl
  | cons node nodes ih =>
    rw [List.map_cons, List.flatten_cons, List.flatten_cons, locked_append, ← entries_stakedBy, ← ih]
    exact List.map_append

/-- Summands that are zero may be filtered out. -/
theorem sum_map_filter {α : Type} {p : α → Bool} {f : α → ℕ} {l : List α} (h : ∀ x ∈ l, p x = false → f x = 0) :
    ((l.filter p).map f).sum = (l.map f).sum := by
  have hzero : ((l.filter fun x => !p x).map f).sum = 0 := by
    refine List.sum_eq_zero fun n hn => ?_
    rcases List.mem_map.mp hn with ⟨x, hx, rfl⟩
    rcases List.mem_filter.mp hx with ⟨hx, hp⟩
    exact h x hx (by simpa using hp)
  rw [← ((List.filter_append_perm p l).map f).sum_eq, List.map_append, List.sum_append, hzero, Nat.add_zero]

namespace Config

variable {config : Config}

/-- The UTXOs carry the locked amounts that are not staked. -/
theorem weigh_platformAllocations (f : Key → ℕ) :
    weigh f (PAllocation.entries config.platformAllocations) = weigh f (locked config.unstaked) := by
  have hentries : PAllocation.entries config.platformAllocations = (locked config.unstaked).filter (0 < ·.2) := by
    simp [platformAllocations, PAllocation.entries, locked, scheduled, List.map_flatMap, List.filter_flatMap,
      List.filter_map, Function.comp_def]
  rw [hentries]
  exact sum_map_filter fun e _ hpos => by rw [Nat.eq_zero_of_not_pos (of_decide_eq_false hpos), Nat.mul_zero]

theorem weigh_staked_unstaked (f : Key → ℕ) :
    weigh f (locked config.unstaked) + weigh f (locked config.staked) = weigh f (locked config.allocations) := by
  have hperm : (config.staked ++ config.unstaked).Perm config.allocations := by
    simpa [staked, unstaked] using List.filter_append_perm (·.avaxAddr ∈ config.initialStakedFunds) config.allocations
  rw [Nat.add_comm, ← weigh_append, ← locked_append]
  exact ((hperm.flatMap_right _).map _).sum_eq

/-- The supply is the sum of all amounts, which does not wrap around. -/
theorem initialSupply_eq {supply : ℕ} (hcomputes : config.ComputesSupply) (h : config.initialSupply = .ok supply) :
    supply = (config.xAllocations.map Prod.fst).sum + total (locked config.allocations) ∧ supply ≤ maxUint64 := by
  have hx : (config.xAllocations.map Prod.fst).sum = (config.allocations.map (·.initialAmount)).sum := by
    unfold xAllocations
    rw [((List.perm_insertionSort _ _).map Prod.fst).sum_eq, List.map_map]
    exact sum_map_filter fun a _ hpos => Nat.eq_zero_of_not_pos (of_decide_eq_false hpos)
  rw [initialSupply, if_pos hcomputes] at h
  rw [hx]
  generalize config.allocations = l at h
  induction l using List.reverseRecOn generalizing supply with
  | nil =>
    cases h
    exact ⟨rfl, by decide⟩
  | append_singleton l a ih =>
    rw [List.foldlM_append] at h
    rcases bind_ok h with ⟨n, hn, h⟩
    rcases bind_ok h with ⟨n', hstep, h⟩
    cases h
    rcases bind_ok hstep with ⟨m, hadd, h⟩
    rcases checkedAdd_ok hadd with ⟨hm, rfl⟩
    rcases foldlM_checkedAdd_ok hm h with ⟨rfl, hle⟩
    have hlast : total (locked (l ++ [a])) = total (locked l) + (a.unlockSchedule.map LockedAmount.amount).sum := by
      simp [total, locked, scheduled, weigh, Function.comp_def]
    refine ⟨?_, hle⟩
    rw [(ih hn).1, hlast, List.map_append, List.sum_append, List.map_singleton, List.sum_singleton]
    omega

/-! ## Validators -/

variable (config) in
/-- What the loop over the stakers makes of the nodes. -/
theorem buildValidators_ok {stakers : List Staker} {nodes : List (List Allocation)} {offset : BitVec 64}
    {vdrs : List PValidator} (h : config.buildValidators stakers nodes offset = .ok vdrs) :
    vdrs.map (·.nodeID) = stakers.map (·.nodeID) ∧
      vdrs.map (·.staked) = (nodes.take stakers.length).map stakedBy ∧
      ∀ i v, vdrs[i]? = some v →
        v.endTime = config.endStakingTime (offset + BitVec.ofNat 64 i * (config.initialStakeDurationOffset * second)) := by
  induction stakers generalizing nodes offset vdrs with
  | nil =>
    cases h
    exact ⟨rfl, by simp, by simp⟩
  | cons staker stakers ih =>
    rcases nodes with _ | ⟨node, nodes⟩
    · cases h
    rcases bind_ok h with ⟨rest, hrest, h⟩
    cases h
    rcases ih hrest with ⟨hids, hstaked, hends⟩
    refine ⟨?_, ?_, ?_⟩
    · rw [List.map_cons, List.map_cons, hids]
    · rw [List.map_cons, List.length_cons, List.take_succ_cons, List.map_cons, hstaked]
    · intro i v hv
      rcases i with _ | i
      · cases hv
        simp
      · rw [hends i v (by simpa using hv)]
        congr 1
        rw [BitVec.ofNat_add, BitVec.add_mul, BitVec.one_mul, BitVec.add_comm (BitVec.ofNat 64 i * _), BitVec.add_assoc]

theorem exists_buildValidators (config : Config) {stakers : List Staker} {nodes : List (List Allocation)} (offset : BitVec 64)
    (h : stakers.length ≤ nodes.length) : ∃ vdrs, config.buildValidators stakers nodes offset = .ok vdrs := by
  induction stakers generalizing nodes offset with
  | nil => exact ⟨[], rfl⟩
  | cons staker stakers ih =>
    rcases nodes with _ | ⟨node, nodes⟩
    · simp at h
    rcases ih (offset + config.initialStakeDurationOffset * second) (by simpa using h) with ⟨vdrs, hvdrs⟩
    rw [buildValidators, hvdrs]
    exact ⟨_, rfl⟩

end Config

/-- What a validator's transaction says. -/
structure Adds (time : BitVec 64) (vdr : PValidator) (tx : ValidatorTx) : Prop where
  nodeID : tx.nodeID = vdr.nodeID
  endTime : tx.endTime = vdr.endTime
  weight : tx.weight = total (PAllocation.entries vdr.staked)
  stake : ∀ f, weigh f (held tx.stakeOuts) = weigh (fun k => f (k.1, unlockTime time k.2)) (PAllocation.entries vdr.staked)

theorem sum_amount_eq (l : List PAllocation) : (l.map (·.amount)).sum = total (PAllocation.entries l) := by
  rw [total_eq_sum, PAllocation.entries, List.map_map]
  rfl

variable {time : BitVec 64}

variable {vdr : PValidator} {tx : ValidatorTx}

theorem newValidator_adds (h : newValidator time vdr = .ok tx) : Adds time vdr tx := by
  have hperm := List.perm_insertionSort PAllocation.le vdr.staked
  rcases bind_ok h with ⟨weight, hweight, h⟩
  rcases bind_ok h with ⟨-, -, h⟩
  rcases bind_ok h with ⟨-, -, h⟩
  cases h
  refine ⟨rfl, rfl, ?_, ?_⟩
  · rw [(foldlM_checkedAdd_ok (by decide) hweight).1, Nat.zero_add, (hperm.map _).sum_eq, sum_amount_eq]
  · intro f
    rw [held_output, weigh_map f fun k => (k.1, unlockTime time k.2)]
    exact ((hperm.map _).map _).sum_eq

theorem exists_newValidator (hpos : 0 < total (PAllocation.entries vdr.staked))
    (hfits : total (PAllocation.entries vdr.staked) ≤ maxUint64) (htime : time < vdr.endTime) :
    ∃ tx, newValidator time vdr = .ok tx := by
  have hsum : ((vdr.staked.insertionSort PAllocation.le).map (·.amount)).sum = total (PAllocation.entries vdr.staked) := by
    rw [((List.perm_insertionSort PAllocation.le vdr.staked).map _).sum_eq, sum_amount_eq]
  unfold newValidator
  dsimp only
  rw [foldlM_checkedAdd _ _ (by rw [hsum]; omega), ok_bind, ensure, if_pos (by rw [hsum]; omega), ok_bind, ensure,
    if_pos htime]
  exact ⟨_, rfl⟩

/-- What all validators hold. -/
theorem weigh_validators {vdrs : List PValidator} {txs : List ValidatorTx}
    (h : List.Forall₂ (Adds time) vdrs txs) (f : Key → ℕ) :
    weigh f (held (txs.flatMap (·.stakeOuts))) =
      weigh (fun k => f (k.1, unlockTime time k.2)) (PAllocation.entries (vdrs.map (·.staked)).flatten) := by
  induction h with
  | nil => rfl
  | cons hadds _ ih =>
    rw [List.flatMap_cons, List.map_cons, List.flatten_cons]
    unfold held PAllocation.entries at ih ⊢
    rw [List.map_append, List.map_append, weigh_append, weigh_append, ih]
    exact congrArg (· + _) (hadds.stake f)

/-- The weight of a validator is the sum of its stake. -/
theorem Adds.weight_eq_sum (h : Adds time vdr tx) :
    tx.weight = (tx.stakeOuts.map (·.amount)).sum := by
  rw [h.weight]
  refine (h.stake 1).symm.trans ?_
  simp [weigh, held, Function.comp_def]

theorem exists_adds {vdrs : List PValidator} {txs : List ValidatorTx}
    (h : List.Forall₂ (Adds time) vdrs txs) : ∀ tx ∈ txs, ∃ vdr, Adds time vdr tx := by
  induction h with
  | nil => simp
  | cons hadds _ ih => exact List.forall_mem_cons.mpr ⟨⟨_, hadds⟩, ih⟩

namespace Config

variable {config : Config} {heap : Walk ValidatorTx} {g : State}

/-! ## The genesis state -/

/-- What `fromConfig` returns: a UTXO for each allocation that is not staked, and a validator
for each staker. -/
structure Builds (config : Config) (heap : Walk ValidatorTx) (vdrs : List PValidator) (txs : List ValidatorTx)
    (g : State) : Prop where
  validators : config.buildValidators config.initialStakers
    (splitAllocations config.staked config.initialStakers.length) 0 = .ok vdrs
  adds : List.Forall₂ (Adds config.startTime) vdrs txs
  order : g.validators = heap.order txs
  utxos : g.utxos.map Prod.fst = config.platformAllocations.map (·.output config.startTime)
  supply : config.initialSupply = .ok g.initialSupply

theorem fromConfig_ok (h : config.fromConfig heap = .ok g) : ∃ vdrs txs, config.Builds heap vdrs txs g := by
  rcases bind_ok h with ⟨supply, hsupply, h⟩
  rcases bind_ok h with ⟨vdrs, hvdrs, h⟩
  rcases bind_ok h with ⟨utxos, hutxos, h⟩
  rcases bind_ok h with ⟨txs, htxs, h⟩
  cases h
  refine ⟨vdrs, txs, hvdrs, (mapM_ok.mp htxs).imp fun _ _ => newValidator_adds, rfl, ?_, hsupply⟩
  apply map_eq_of_forall₂ (mapM_ok.mp hutxos)
  intro allocation utxo hutxo
  rcases bind_ok hutxo with ⟨-, -, hutxo⟩
  cases hutxo
  rfl

namespace Builds

variable {vdrs : List PValidator} {txs : List ValidatorTx} (h : config.Builds heap vdrs txs g)

include h

theorem perm : g.validators.Perm txs := h.order ▸ heap.perm txs

theorem nodeIDs : txs.map (·.nodeID) = config.initialStakers.map (·.nodeID) := by
  rw [← (buildValidators_ok config h.validators).1]
  exact map_eq_of_forall₂ h.adds fun _ _ hadds => hadds.nodeID

theorem length_txs : txs.length = config.initialStakers.length := by
  simpa using congrArg List.length h.nodeIDs

/-- The end times are those of the stakers. -/
theorem endTime_of_getElem? {i : ℕ} (htx : txs[i]? = some tx) : tx.endTime = config.endTime i := by
  rcases List.getElem?_eq_some_iff.mp htx with ⟨hi, rfl⟩
  have hlength := h.adds.length_eq
  have hvdr := (buildValidators_ok config h.validators).2.2 i (vdrs.get ⟨i, by omega⟩) (List.getElem?_eq_getElem _)
  have hadds := (List.forall₂_iff_get.mp h.adds).2 i (by omega) hi
  rw [show ∀ x : BitVec 64, 0 + x = x from BitVec.zero_add] at hvdr
  exact hadds.endTime.trans hvdr

theorem times_iff : (∀ v ∈ g.validators, config.InTime v.endTime) ↔ config.TimesFit := by
  constructor
  · intro htimes i hi
    rw [← h.length_txs] at hi
    have htx : txs[i]? = some (txs.get ⟨i, hi⟩) := List.getElem?_eq_getElem hi
    rw [← h.endTime_of_getElem? htx]
    exact htimes _ (h.perm.mem_iff.mpr (List.get_mem txs ⟨i, hi⟩))
  · intro hfit v hv
    rcases List.mem_iff_getElem?.mp (h.perm.mem_iff.mp hv) with ⟨i, hi⟩
    rw [h.endTime_of_getElem? hi]
    apply hfit
    rw [← h.length_txs]
    exact (List.getElem?_eq_some_iff.mp hi).1

theorem weigh_utxos (f : Key → ℕ) : weigh f (held (g.utxos.map Prod.fst)) =
    weigh (fun k => f (k.1, unlockTime config.startTime k.2)) (locked config.unstaked) := by
  rw [h.utxos, held_output, weigh_map f fun k => (k.1, unlockTime config.startTime k.2), weigh_platformAllocations]

theorem sum_utxos : (g.utxos.map (·.1.amount)).sum = total (locked config.unstaked) := by
  have hweigh : weigh 1 (held (g.utxos.map Prod.fst)) = total (locked config.unstaked) := h.weigh_utxos 1
  rw [← hweigh]
  simp [weigh, held, Function.comp_def]

/-- The supply is as stated just if the weights add up to what is staked. -/
theorem supply_iff (hcomputes : config.ComputesSupply) :
    g.initialSupply = (config.xAllocations.map Prod.fst).sum + (g.utxos.map (·.1.amount)).sum +
      (g.validators.map (·.weight)).sum ↔ (txs.map (·.weight)).sum = total (locked config.staked) := by
  have hsupply := (initialSupply_eq hcomputes h.supply).1
  have hsplit : total (locked config.unstaked) + total (locked config.staked) = total (locked config.allocations) :=
    weigh_staked_unstaked 1
  rw [hsupply, h.sum_utxos, (h.perm.map _).sum_eq]
  omega

end Builds

/-- A sound state has a unit at least for each staker. -/
theorem Sound.staked (h : config.Sound g) (hcomputes : config.ComputesSupply) (hok : config.fromConfig heap = .ok g) :
    config.initialStakers.length ≤ total (locked config.staked) ∧ config.TimesFit := by
  rcases fromConfig_ok hok with ⟨vdrs, txs, hbuilds⟩
  refine ⟨?_, hbuilds.times_iff.mp h.times⟩
  rw [← (hbuilds.supply_iff hcomputes).mp h.supply, ← hbuilds.length_txs, ← List.length_map (·.weight)]
  apply List.length_le_sum_of_one_le
  intro weight hweight
  rcases List.mem_map.mp hweight with ⟨tx, htx, rfl⟩
  exact (h.weights tx (hbuilds.perm.mem_iff.mpr htx)).1

/-- With a unit for each staker and end times that fit, the state is built and sound. -/
theorem exists_sound (hstakers : config.initialStakers.length ≠ 0) {supply : ℕ} (hcomputes : config.ComputesSupply)
    (hsupply : config.initialSupply = .ok supply)
    (hstaked : config.initialStakers.length ≤ total (locked config.staked)) (htimes : config.TimesFit)
    (heap : Walk ValidatorTx) : ∃ g, config.fromConfig heap = .ok g ∧ config.Sound g := by
  have hbound : total (locked config.staked) < 2 ^ 64 := by
    have heq := initialSupply_eq hcomputes hsupply
    have hsplit : total (locked config.unstaked) + total (locked config.staked) = total (locked config.allocations) :=
      weigh_staked_unstaked 1
    unfold maxUint64 at heq
    omega
  rcases splitAllocations_spec hstakers hbound hstaked with ⟨nodes, last, hsplit, hlength, hfull, hlast, hcarries⟩
  have hmean : 1 ≤ total (locked config.staked) / config.initialStakers.length :=
    (Nat.one_le_div_iff (Nat.pos_of_ne_zero hstakers)).mpr hstaked
  have hcount : (nodes ++ [last]).length = config.initialStakers.length := by simpa using hlength
  have hnode : ∀ node ∈ nodes ++ [last], 0 < total (locked node) ∧ total (locked node) ≤ maxUint64 := by
    have htotal := hcarries 1
    rw [List.flatten_append, List.flatten_singleton, locked_append, weigh_append] at htotal
    change _ + total (locked last) = total (locked config.staked) at htotal
    intro node hmem
    unfold maxUint64
    rcases List.mem_append.mp hmem with hmem | hmem
    · rw [hfull node hmem]
      omega
    · rw [List.mem_singleton.mp hmem]
      omega
  rcases exists_buildValidators config 0 hcount.ge with ⟨vdrs, hvdrs⟩
  rcases buildValidators_ok config hvdrs with ⟨-, hstakedBy, hends⟩
  rw [← hcount, List.take_length] at hstakedBy
  have hlen : vdrs.length = config.initialStakers.length := by
    rw [← hcount, ← List.length_map (·.staked), hstakedBy, List.length_map]
  -- every validator has a stake and a time
  have hvalidators : ∀ vdr ∈ vdrs, ∃ tx, newValidator config.startTime vdr = .ok tx := by
    intro vdr hvdr
    rcases List.mem_map.mp (hstakedBy ▸ List.mem_map_of_mem hvdr) with ⟨node, hmem, heq⟩
    rcases List.mem_iff_getElem?.mp hvdr with ⟨i, hi⟩
    have hi' := (List.getElem?_eq_some_iff.mp hi).1
    have hend : vdr.endTime = config.endTime i := by
      rw [hends i vdr hi, show ∀ x : BitVec 64, 0 + x = x from BitVec.zero_add]
      rfl
    apply exists_newValidator
    · rw [← heq, entries_stakedBy]
      exact (hnode node hmem).1
    · rw [← heq, entries_stakedBy]
      exact (hnode node hmem).2
    · rw [hend, BitVec.lt_def]
      exact (htimes i (by omega)).1
  have hutxos : ∀ a ∈ config.platformAllocations, ∃ utxo, newUTXO config.startTime a = .ok utxo := by
    intro a ha
    rcases List.mem_flatMap.mp ha with ⟨allocation, -, ha⟩
    rcases List.mem_map.mp ha with ⟨unlock, hunlock, rfl⟩
    have hpos : 0 < unlock.amount := by simpa using (List.mem_filter.mp hunlock).2
    rw [newUTXO, ensure, if_pos hpos.ne']
    exact ⟨_, rfl⟩
  rcases exists_mapM_ok hvalidators with ⟨txs, htxs⟩
  rcases exists_mapM_ok hutxos with ⟨utxos, hutxos⟩
  have hok : config.fromConfig heap = .ok ⟨utxos, heap.order txs, config.startTime, supply, config.message⟩ := by
    rw [fromConfig, hsupply, ok_bind, hsplit, hvdrs, ok_bind, newState, hutxos, ok_bind, htxs]
    rfl
  refine ⟨_, hok, ?_⟩
  rcases fromConfig_ok hok with ⟨vdrs', txs', hbuilds⟩
  rw [← hsplit] at hvdrs
  cases hvdrs.symm.trans hbuilds.validators
  have hweights : txs'.map (·.weight) = (nodes ++ [last]).map fun node => total (locked node) := by
    have hmap := congrArg (List.map fun staked => total (PAllocation.entries staked)) hstakedBy
    rw [List.map_map, List.map_map] at hmap
    rw [map_eq_of_forall₂ hbuilds.adds fun _ _ hadds => hadds.weight]
    exact hmap.trans (List.map_congr_left fun node _ => congrArg total (entries_stakedBy node))
  have hstakes : ∀ f, weigh f (held (txs'.flatMap (·.stakeOuts))) =
      weigh (fun k => f (k.1, unlockTime config.startTime k.2)) (locked config.staked) := by
    intro f
    rw [weigh_validators hbuilds.adds, hstakedBy, entries_flatten, hcarries]
  have hsum : (txs'.map (·.weight)).sum = total (locked config.staked) := by
    rw [hweights, sum_total]
    exact hcarries 1
  constructor
  · refine ⟨txs', hbuilds.perm, hbuilds.nodeIDs, ?_⟩
    intro v hv
    have hmem : v.weight ∈ (txs'.map (·.weight)).dropLast := by
      rw [← List.map_dropLast]
      exact List.mem_map_of_mem hv
    rw [hweights, List.map_append, List.map_singleton, List.dropLast_concat] at hmem
    rcases List.mem_map.mp hmem with ⟨node, hnode', heq⟩
    rw [← heq, hfull node hnode']
  · intro v hv
    have hv' := hbuilds.perm.mem_iff.mp hv
    have hmem : v.weight ∈ txs'.map (·.weight) := List.mem_map_of_mem hv'
    rw [hweights] at hmem
    rcases List.mem_map.mp hmem with ⟨node, hnode', heq⟩
    rcases exists_adds hbuilds.adds v hv' with ⟨vdr, hadds⟩
    exact ⟨heq ▸ (hnode node hnode').1, hadds.weight_eq_sum⟩
  · exact hbuilds.times_iff.mpr htimes
  · intro k
    have hperm : (held ((heap.order txs).flatMap (·.stakeOuts))).Perm (held (txs'.flatMap (·.stakeOuts))) :=
      (hbuilds.perm.flatMap_right _).map _
    rw [totalAt_perm hperm, totalAt_eq_weigh, totalAt_eq_weigh, totalAt_eq_weigh, hbuilds.weigh_utxos, hstakes,
      weigh_staked_unstaked, configured]
    exact (weigh_map (fun x => if x = k then 1 else 0) (fun k => (k.1, unlockTime config.startTime k.2)) _).symm
  · exact (hbuilds.supply_iff hcomputes).mpr hsum

end Config

/-! ## Times -/

namespace Time

theorem toInt_add_ofInt {sec : BitVec 64} {d : ℤ} (hmin : -2 ^ 63 ≤ sec.toInt + d) (hmax : sec.toInt + d < 2 ^ 63) :
    (sec + BitVec.ofInt 64 d).toInt = sec.toInt + d := by
  rw [BitVec.toInt_add, BitVec.toInt_ofInt, Int.add_bmod_bmod]
  exact Int.bmod_eq_of_le (by simpa using hmin) (by simpa using hmax)

/-- Whole seconds are added exactly where the result fits. -/
theorem add_seconds {sec d : BitVec 64} {k : ℤ} (hd : d.toInt = k * 10 ^ 9) (hmin : -2 ^ 63 ≤ sec.toInt + k)
    (hmax : sec.toInt + k < 2 ^ 63) : (⟨sec, 0⟩ : Time).add d = ⟨sec + BitVec.ofInt 64 k, 0⟩ := by
  have hdiv : d.toInt.tdiv (10 ^ 9) = k := by rw [hd, Int.mul_tdiv_cancel k (by decide)]
  have hmod : d.toInt.tmod (10 ^ 9) = 0 := by rw [hd, Int.mul_tmod_left]
  have hsum := toInt_add_ofInt hmin hmax
  have hsec : addSec sec k = sec + BitVec.ofInt 64 k := by
    unfold addSec
    dsimp only
    rw [hsum, if_pos (by congr 1; exact propext (by omega))]
  unfold add
  dsimp only
  rw [hdiv, hmod, if_neg (by decide), if_neg (by decide), hsec]
  rfl

end Time

/-- A product of seconds that fits, as a duration. -/
theorem toInt_mul_second {d : BitVec 64} {k : ℕ} (hd : d.toNat = k * 10 ^ 9) (hk : k * 10 ^ 9 < 2 ^ 63) :
    d.toInt = k * 10 ^ 9 := by
  rw [BitVec.toInt_eq_toNat_of_lt (by omega), hd]
  rfl

/-- The end time of a staker if nothing wraps around. -/
theorem toNat_endTime {start dur off : BitVec 64} {i : ℕ} (hoff : i * off.toNat < dur.toNat)
    (hmax : dur.toNat * 10 ^ 9 < 2 ^ 63) (hstart : start.toNat + dur.toNat < 2 ^ 62) :
    (((Time.ofUnix start).add (dur * second)).add (-(BitVec.ofNat 64 i * (off * second)))).unix.toNat =
      start.toNat + dur.toNat - i * off.toNat := by
  have hsecond : second.toNat = 10 ^ 9 := by decide
  have hepoch : Time.unixToInternal.toNat = 62135596800 := by decide
  have hdur : (dur * second).toInt = dur.toNat * 10 ^ 9 := by
    apply toInt_mul_second _ hmax
    have hfits : dur.toNat * 10 ^ 9 < 2 ^ 64 := by omega
    rw [BitVec.toNat_mul, hsecond, Nat.mod_eq_of_lt hfits]
  have hneg : (-(BitVec.ofNat 64 i * (off * second))).toInt = -(i * off.toNat : ℕ) * 10 ^ 9 := by
    have hint : (BitVec.ofNat 64 i * (off * second)).toInt = (i * off.toNat : ℕ) * 10 ^ 9 := by
      have hless : i * off.toNat * 10 ^ 9 < 2 ^ 63 := lt_of_le_of_lt (Nat.mul_le_mul_right _ hoff.le) hmax
      have hfits : i * off.toNat * 10 ^ 9 < 2 ^ 64 := hless.trans (by decide)
      apply toInt_mul_second _ hless
      rw [BitVec.toNat_mul, BitVec.toNat_mul, BitVec.toNat_ofNat, hsecond, ← Nat.mul_mod, ← Nat.mul_assoc,
        Nat.mod_eq_of_lt hfits]
    rw [BitVec.toInt_neg, hint, Int.neg_mul]
    exact Int.bmod_eq_of_le (by omega) (by omega)
  have hunix : (start + Time.unixToInternal).toInt = start.toNat + 62135596800 := by
    have hnat : (start + Time.unixToInternal).toNat = start.toNat + 62135596800 := by
      rw [BitVec.toNat_add, hepoch]
      omega
    rw [BitVec.toInt_eq_toNat_of_lt (by omega), hnat]
    rfl
  have hmid : (start + Time.unixToInternal + BitVec.ofInt 64 dur.toNat).toInt = start.toNat + 62135596800 + dur.toNat := by
    rw [Time.toInt_add_ofInt (by omega) (by omega), hunix]
  have hlast : (start + Time.unixToInternal + BitVec.ofInt 64 dur.toNat + BitVec.ofInt 64 (-(i * off.toNat : ℕ))).toInt =
      start.toNat + 62135596800 + dur.toNat - (i * off.toNat : ℕ) := by
    rw [Time.toInt_add_ofInt (by omega) (by omega), hmid]
    omega
  rw [Time.ofUnix, Time.add_seconds hdur (by omega) (by omega), Time.add_seconds hneg (by omega) (by omega), Time.unix]
  generalize start + Time.unixToInternal + BitVec.ofInt 64 dur.toNat + BitVec.ofInt 64 (-(i * off.toNat : ℕ)) = last
    at hlast ⊢
  have hnat : last.toNat = start.toNat + 62135596800 + dur.toNat - i * off.toNat := by
    rw [BitVec.toInt_eq_toNat_cond] at hlast
    split at hlast <;> omega
  rw [BitVec.toNat_sub, hnat, hepoch]
  omega

/-- The offsets leave a part of the duration, and the times are those of a clock. -/
def Config.Ordinary (config : Config) : Prop :=
  config.initialStakeDurationOffset.toNat * (config.initialStakers.length - 1) < config.initialStakeDuration.toNat ∧
    config.startTime.toNat + config.initialStakeDuration.toNat < 2 ^ 62

theorem Config.Ordinary.timesFit {config : Config} (h : config.Ordinary)
    (hmax : config.initialStakeDuration.toNat * 10 ^ 9 < 2 ^ 63) : config.TimesFit := by
  intro i hi
  have hoff : i * config.initialStakeDurationOffset.toNat < config.initialStakeDuration.toNat := by
    refine lt_of_le_of_lt ?_ h.1
    rw [Nat.mul_comm]
    exact Nat.mul_le_mul_left _ (by omega)
  unfold InTime endTime endStakingTime
  rw [toNat_endTime hoff hmax h.2]
  omega

/-! ## Validated configurations -/

/-- Ten units are locked for the address 1, and two stakers share the allocation of `funds`. -/
def twoStakers (funds : Address) : Config where
  networkID := 1
  allocations := [⟨0, 1, 3, [⟨10, 50⟩]⟩, ⟨0, 2, 4, []⟩]
  startTime := 20
  initialStakeDuration := 100
  initialStakeDurationOffset := 30
  initialStakedFunds := [funds]
  initialStakers := [⟨8, 0, 0, none⟩, ⟨9, 0, 0, none⟩]
  cChainGenesis := "genesis"
  message := ""

end Titan.Genesis
