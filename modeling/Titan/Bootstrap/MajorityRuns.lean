import Titan.Bootstrap.Majority

/-!
# Titan.Bootstrap.MajorityRuns — what the majority poll returns

`Inv` describes a poll at any time: every node is waiting to be asked, was asked or was
counted, and a block has received the weight of the nodes that reported it.

The result compares this weight with half of a total in which weights from `2 ^ 63` on
were read as negative numbers. It is the majority for all opinions exactly if no weight is
that large or there is at most one node.
-/

namespace Titan.Bootstrap

open Lib
open PChain (ID NodeID GoMap)

/-! ## Requests -/

theorem popNodes_spec (p : Pick) (n : ℕ) (pending nodes : Finset NodeID) (hn : n ≤ pending.card)
    (hdisj : Disjoint pending nodes) :
    (Requests.popNodes p n pending nodes).1 ∪ (Requests.popNodes p n pending nodes).2 = pending ∪ nodes ∧
      Disjoint (Requests.popNodes p n pending nodes).1 (Requests.popNodes p n pending nodes).2 ∧
      (Requests.popNodes p n pending nodes).2.card = nodes.card + n := by
  induction n generalizing pending nodes with
  | zero => exact ⟨rfl, hdisj, rfl⟩
  | succ n ih =>
    rw [Requests.popNodes]
    rcases hpick : p.pick pending with _ | nodeID
    · -- the set is not empty
      rw [p.empty _ hpick, Finset.card_empty] at hn
      exact absurd hn (by omega)
    · have hmem := p.mem _ _ hpick
      have hnot : nodeID ∉ nodes := Finset.disjoint_left.mp hdisj hmem
      have hdisj' : Disjoint (pending.erase nodeID) (insert nodeID nodes) := by
        rw [Finset.disjoint_insert_right]
        exact ⟨Finset.notMem_erase nodeID pending,
          Finset.disjoint_of_subset_left (Finset.erase_subset _ _) hdisj⟩
      have hcard := Finset.card_erase_of_mem hmem
      rcases ih (pending.erase nodeID) (insert nodeID nodes) (by omega) hdisj' with ⟨hunion, hdisj', hsize⟩
      refine ⟨?_, hdisj', ?_⟩
      · rw [hunion, Finset.union_insert, ← Finset.insert_union, Finset.insert_erase hmem]
      · rw [hsize, Finset.card_insert_of_notMem hnot]
        omega

/-- What `GetPeers` moves: some nodes from `pendingSend` to `outstanding`, up to the
limit. -/
structure Requests.Moves (r r' : Requests) : Prop where
  maxOutstanding : r'.maxOutstanding = r.maxOutstanding
  union : r'.pendingSend ∪ r'.outstanding = r.pendingSend ∪ r.outstanding
  disjoint : Disjoint r'.pendingSend r'.outstanding
  limit : r'.outstanding.card ≤ r.maxOutstanding
  /-- A node that can be asked is asked. -/
  progress : r.outstanding.card < r.maxOutstanding → r.pendingSend.Nonempty →
    r'.pendingSend.card < r.pendingSend.card

theorem getPeers_moves {r : Requests} (hdisj : Disjoint r.pendingSend r.outstanding)
    (hlimit : r.outstanding.card ≤ r.maxOutstanding) (p : Pick) : r.Moves (r.getPeers p).2 := by
  unfold Requests.getPeers
  dsimp only
  split
  next hle => exact ⟨rfl, rfl, hdisj, hlimit, fun hlt => absurd hlt (by omega)⟩
  next hlt =>
    set n := min (r.maxOutstanding - r.outstanding.card) r.pendingSend.card with hn
    rcases popNodes_spec p n r.pendingSend ∅ (min_le_right _ _) (Finset.disjoint_empty_right _)
      with ⟨hunion, hdisj', hcard⟩
    set popped := Requests.popNodes p n r.pendingSend ∅
    rw [Finset.union_empty] at hunion
    rw [Finset.card_empty, Nat.zero_add] at hcard
    have hsub : popped.1 ⊆ r.pendingSend := hunion ▸ Finset.subset_union_left
    refine ⟨rfl, ?_, ?_, ?_, ?_⟩
    · show popped.1 ∪ (r.outstanding ∪ popped.2) = r.pendingSend ∪ r.outstanding
      rw [← hunion, Finset.union_right_comm, Finset.union_assoc, Finset.union_comm r.outstanding,
        ← Finset.union_assoc]
    · exact Finset.disjoint_union_right.mpr ⟨Finset.disjoint_of_subset_left hsub hdisj, hdisj'⟩
    · calc (r.outstanding ∪ popped.2).card ≤ r.outstanding.card + popped.2.card := Finset.card_union_le _ _
        _ ≤ r.maxOutstanding := by omega
    · intro hspace hne
      have hpos : 0 < r.pendingSend.card := Finset.card_pos.mpr hne
      have htotal := Finset.card_union_of_disjoint hdisj'
      rw [hunion] at htotal
      show popped.1.card < r.pendingSend.card
      omega

theorem finished_iff {r : Requests} : r.finished = true ↔ r.pendingSend = ∅ ∧ r.outstanding = ∅ := by
  unfold Requests.finished
  rw [decide_eq_true_eq, Finset.card_eq_zero, Finset.card_eq_zero]

/-! ## Received weights -/

theorem lookup_addReceived (weight : ℤ) (received : GoMap ID ℤ) (blkID x : ID) :
    (Majority.addReceived weight received blkID).lookup x =
      if x = blkID then some ((received.lookup blkID).getD 0 + weight) else received.lookup x := by
  unfold Majority.addReceived
  by_cases hx : x = blkID
  · subst hx
    rw [if_pos rfl]
    rcases received.lookup x with _ | r
    · exact (AList.lookup_insert received).trans (congrArg some (zero_add weight).symm)
    · exact AList.lookup_insert received
  · rw [if_neg hx]
    rcases received.lookup blkID with _ | r
    · exact AList.lookup_insert_ne hx
    · exact AList.lookup_insert_ne hx

theorem lookup_foldl_addReceived (weight : ℤ) (blkIDs : List ID) (hnodup : blkIDs.Nodup)
    (received : GoMap ID ℤ) (x : ID) :
    (blkIDs.foldl (Majority.addReceived weight) received).lookup x =
      if x ∈ blkIDs then some ((received.lookup x).getD 0 + weight) else received.lookup x := by
  induction blkIDs generalizing received with
  | nil => simp
  | cons blkID blkIDs ih =>
    rw [List.nodup_cons] at hnodup
    rw [List.foldl_cons, ih hnodup.2, lookup_addReceived]
    by_cases hx : x = blkID
    · subst hx
      rw [if_neg hnodup.1, if_pos rfl, if_pos List.mem_cons_self]
    · simp only [List.mem_cons, hx, false_or, if_false]

namespace Poll

variable {W : GoMap NodeID (BitVec 64)} {limit : ℕ} {s : Poll}

theorem mem_reporters {counted : List Opinion} {blkID : ID} {n : NodeID} :
    n ∈ reporters counted blkID ↔ ∃ o ∈ counted, blkID ∈ o.2.elems ∧ o.1 = n := by
  unfold reporters
  rw [List.mem_toFinset, List.mem_map]
  constructor
  · rintro ⟨o, ho, rfl⟩
    rcases List.mem_filter.mp ho with ⟨hmem, hblk⟩
    exact ⟨o, hmem, by simpa using hblk, rfl⟩
  · rintro ⟨o, ho, hblk, rfl⟩
    exact ⟨o, List.mem_filter.mpr ⟨ho, by simpa using hblk⟩, rfl⟩

theorem reporters_append (counted : List Opinion) (o : Opinion) (blkID : ID) :
    reporters (counted ++ [o]) blkID =
      if blkID ∈ o.2.elems then insert o.1 (reporters counted blkID) else reporters counted blkID := by
  unfold reporters
  rw [List.filter_append, List.map_append, List.toFinset_append]
  split
  next hblk =>
    rw [List.filter_cons_of_pos (by simpa using hblk), List.filter_nil, Finset.union_comm, Finset.insert_eq]
    rfl
  next hblk =>
    rw [List.filter_cons_of_neg (by simpa using hblk), List.filter_nil]
    exact Finset.union_empty _

/-- What a block has received. -/
def receivedWeight (W : GoMap NodeID (BitVec 64)) (counted : List Opinion) (blkID : ID) : Option ℤ :=
  if (reporters counted blkID).Nonempty then some (trueWeight W (reporters counted blkID)) else none

theorem receivedWeight_append {counted : List Opinion} {o : Opinion} (hnew : o.1 ∉ counted.map Prod.fst)
    (blkID : ID) :
    receivedWeight W (counted ++ [o]) blkID =
      if blkID ∈ o.2.elems then
        some ((receivedWeight W counted blkID).getD 0 + ((Majority.weight W o.1).toNat : ℤ))
      else receivedWeight W counted blkID := by
  have hnot : o.1 ∉ reporters counted blkID := by
    intro hmem
    rcases mem_reporters.mp hmem with ⟨o', ho', -, heq⟩
    exact hnew (heq ▸ List.mem_map_of_mem ho')
  unfold receivedWeight
  rw [reporters_append]
  by_cases hblk : blkID ∈ o.2.elems
  · rw [if_pos hblk, if_pos hblk, if_pos (Finset.insert_nonempty _ _), trueWeight,
      Finset.sum_insert hnot]
    by_cases hne : (reporters counted blkID).Nonempty
    · rw [if_pos hne, Option.getD_some, trueWeight]
      push_cast
      rw [add_comm]
    · rw [if_neg hne, Option.getD_none, Finset.not_nonempty_iff_eq_empty.mp hne]
      simp
  · rw [if_neg hblk, if_neg hblk]

/-! ## The invariant -/

structure Inv (W : GoMap NodeID (BitVec 64)) (limit : ℕ) (s : Poll) : Prop where
  weights : s.majority.nodeWeights = W
  maxOutstanding : s.majority.requests.maxOutstanding = limit
  outstanding : s.majority.requests.outstanding.card ≤ limit
  disjoint : Disjoint s.majority.requests.pendingSend s.majority.requests.outstanding
  once : (s.counted.map Prod.fst).Nodup
  answered : Disjoint (s.majority.requests.pendingSend ∪ s.majority.requests.outstanding)
    (s.counted.map Prod.fst).toFinset
  all : s.majority.requests.pendingSend ∪ s.majority.requests.outstanding ∪
    (s.counted.map Prod.fst).toFinset = W.keys.toFinset
  received : ∀ blkID, s.majority.received.lookup blkID = receivedWeight W s.counted blkID
  accepted : s.majority.accepted.Nodup ∧ ∀ blkID, blkID ∈ s.majority.accepted ↔
    s.majority.requests.finished = true ∧
      ∃ r, s.majority.received.lookup blkID = some r ∧ Majority.requiredWeight W ≤ r

theorem inv_new (W : GoMap NodeID (BitVec 64)) (limit : ℕ) :
    Inv W limit ⟨Majority.newMajority W limit, []⟩ := by
  constructor
  · rfl
  · rfl
  · exact Nat.zero_le _
  · exact Finset.disjoint_empty_right _
  · exact List.nodup_nil
  · exact Finset.disjoint_empty_right _
  · simp [Majority.newMajority]
  · intro blkID
    rfl
  · refine ⟨List.nodup_nil, fun blkID => ?_⟩
    simp [Majority.newMajority]

theorem Inv.getPeers (h : Inv W limit s) (p : Pick) : Inv W limit (s.step (.getPeers p)) := by
  have hmoves := getPeers_moves h.disjoint (h.maxOutstanding.symm ▸ h.outstanding) p
  have hlimit := hmoves.limit
  rw [h.maxOutstanding] at hlimit
  refine ⟨h.weights, hmoves.maxOutstanding.trans h.maxOutstanding, hlimit, hmoves.disjoint, h.once, ?_, ?_,
    h.received, h.accepted.1, ?_⟩
  · have hanswered := h.answered
    rw [← hmoves.union] at hanswered
    exact hanswered
  · have hall := h.all
    rw [← hmoves.union] at hall
    exact hall
  · -- asking more nodes neither starts nor ends a poll
    have hsame : (s.majority.requests.getPeers p).2.finished = s.majority.requests.finished := by
      rw [Bool.eq_iff_iff, finished_iff, finished_iff, ← Finset.union_eq_empty, ← Finset.union_eq_empty,
        hmoves.union]
    intro blkID
    show blkID ∈ s.majority.accepted ↔ (s.majority.requests.getPeers p).2.finished = true ∧ _
    rw [hsame]
    exact h.accepted.2 blkID

variable {nodeID : NodeID}

/-- An opinion that was not asked for changes nothing. -/
theorem recordOpinion_unexpected (hn : nodeID ∉ s.majority.requests.outstanding)
    (blkIDs : GoSet ID) (walk : Walk (Sigma fun _ : ID => ℤ)) :
    s.step (.recordOpinion nodeID blkIDs walk) = s := by
  have hrecord : s.majority.requests.recordResponse nodeID = (false, s.majority.requests) := by
    unfold Requests.recordResponse
    rw [Finset.erase_eq_of_notMem hn, decide_eq_false hn]
  unfold step Majority.recordOpinion
  dsimp only
  rw [hrecord]
  rfl

/-- The poll after an opinion that was asked for. -/
structure Counts (s : Poll) (nodeID : NodeID) (blkIDs : GoSet ID) (s' : Poll) : Prop where
  weights : s'.majority.nodeWeights = s.majority.nodeWeights
  requests : s'.majority.requests =
    { s.majority.requests with outstanding := s.majority.requests.outstanding.erase nodeID }
  counted : s'.counted = s.counted ++ [(nodeID, blkIDs)]
  received : s'.majority.received = blkIDs.elems.foldl
    (Majority.addReceived ((Majority.weight s.majority.nodeWeights nodeID).toNat : ℤ)) s.majority.received
  accepted : ∃ walk : Walk (Sigma fun _ : ID => ℤ), s'.majority.accepted = s.majority.accepted ++
    if s'.majority.requests.finished then
      ((walk.order s'.majority.received.entries).filter fun e =>
        Majority.requiredWeight s.majority.nodeWeights ≤ e.2).map (·.1)
    else []

theorem recordOpinion_counts (hn : nodeID ∈ s.majority.requests.outstanding)
    (blkIDs : GoSet ID) (walk : Walk (Sigma fun _ : ID => ℤ)) :
    Counts s nodeID blkIDs (s.step (.recordOpinion nodeID blkIDs walk)) := by
  have hrecord : s.majority.requests.recordResponse nodeID = (true,
      { s.majority.requests with outstanding := s.majority.requests.outstanding.erase nodeID }) := by
    unfold Requests.recordResponse
    rw [decide_eq_true hn]
  unfold step Majority.recordOpinion
  dsimp only
  rw [hrecord]
  simp only [if_true]
  split
  next hfin => exact ⟨rfl, rfl, rfl, rfl, walk, by rw [if_pos hfin]⟩
  next hfin => exact ⟨rfl, rfl, rfl, rfl, walk, by rw [if_neg hfin, List.append_nil]⟩

/-- The blocks that a finished poll collects. -/
theorem mem_accepted (walk : Walk (Sigma fun _ : ID => ℤ)) (received : GoMap ID ℤ) (required : ℤ) :
    (((walk.order received.entries).filter fun e => required ≤ e.2).map (·.1)).Nodup ∧
      ∀ blkID, blkID ∈ ((walk.order received.entries).filter fun e => required ≤ e.2).map (·.1) ↔
        ∃ r, received.lookup blkID = some r ∧ required ≤ r := by
  have hperm := walk.perm received.entries
  constructor
  · have hkeys : ((walk.order received.entries).map Sigma.fst).Nodup :=
      (hperm.map Sigma.fst).nodup_iff.mpr received.keys_nodup
    exact hkeys.sublist (List.filter_sublist.map _)
  · intro blkID
    rw [List.mem_map]
    constructor
    · rintro ⟨⟨k, r⟩, he, rfl⟩
      rcases List.mem_filter.mp he with ⟨hmem, hle⟩
      exact ⟨r, AList.mem_lookup_iff.mpr (hperm.mem_iff.mp hmem), by simpa using hle⟩
    · rintro ⟨r, hr, hle⟩
      refine ⟨⟨blkID, r⟩, List.mem_filter.mpr ⟨?_, by simpa using hle⟩, rfl⟩
      exact hperm.mem_iff.mpr (AList.mem_lookup_iff.mp hr)

theorem Inv.counts {blkIDs : GoSet ID} {s' : Poll} (h : Inv W limit s)
    (hn : nodeID ∈ s.majority.requests.outstanding) (hs' : Counts s nodeID blkIDs s') : Inv W limit s' := by
  have hnew : nodeID ∉ s.counted.map Prod.fst := by
    intro hmem
    exact Finset.disjoint_left.mp h.answered (Finset.mem_union_right _ hn) (List.mem_toFinset.mpr hmem)
  have hpending : nodeID ∉ s.majority.requests.pendingSend := Finset.disjoint_right.mp h.disjoint hn
  -- the poll has not finished, so nothing is accepted yet
  have hrunning : s.majority.accepted = [] := by
    rw [List.eq_nil_iff_forall_not_mem]
    intro blkID hmem
    have hfin := ((h.accepted.2 blkID).mp hmem).1
    rw [(finished_iff.mp hfin).2] at hn
    cases hn
  have hcounted : (s'.counted.map Prod.fst).toFinset = insert nodeID (s.counted.map Prod.fst).toFinset := by
    rw [hs'.counted, List.map_append, List.toFinset_append]
    ext n
    simp
  refine ⟨hs'.weights.trans h.weights, by rw [hs'.requests]; exact h.maxOutstanding, ?_, ?_, ?_, ?_, ?_, ?_, ?_⟩
  · rw [hs'.requests]
    exact (Finset.card_le_card (Finset.erase_subset _ _)).trans h.outstanding
  · rw [hs'.requests]
    exact Finset.disjoint_of_subset_right (Finset.erase_subset _ _) h.disjoint
  · rw [hs'.counted, List.map_append, List.map_singleton, ← List.concat_eq_append]
    exact List.Nodup.concat hnew h.once
  · rw [hcounted, Finset.disjoint_insert_right, hs'.requests]
    constructor
    · rw [Finset.mem_union, not_or]
      exact ⟨hpending, Finset.notMem_erase _ _⟩
    · exact Finset.disjoint_of_subset_left (Finset.union_subset_union_right (Finset.erase_subset _ _))
        h.answered
  · rw [hcounted, ← h.all, hs'.requests]
    ext n
    by_cases hnn : n = nodeID
    · subst hnn
      simp [hn]
    · simp [hnn]
  · intro blkID
    rw [hs'.received, lookup_foldl_addReceived _ _ blkIDs.nodup, hs'.counted,
      receivedWeight_append hnew, h.received, h.weights]
  · rcases hs'.accepted with ⟨walk, haccepted⟩
    rw [haccepted, hrunning, List.nil_append, h.weights]
    rcases mem_accepted walk s'.majority.received (Majority.requiredWeight W) with ⟨hnodup, hmem⟩
    split
    next hfin => exact ⟨hnodup, fun blkID => by rw [hmem blkID]; simp [hfin]⟩
    next hfin => exact ⟨List.nodup_nil, fun blkID => by simp [hfin]⟩

theorem Inv.step (h : Inv W limit s) (op : PollOp) : Inv W limit (s.step op) := by
  cases op with
  | getPeers p => exact h.getPeers p
  | recordOpinion nodeID blkIDs walk =>
    by_cases hn : nodeID ∈ s.majority.requests.outstanding
    · exact h.counts hn (recordOpinion_counts hn blkIDs walk)
    · rw [recordOpinion_unexpected hn]
      exact h

theorem inv_run (W : GoMap NodeID (BitVec 64)) (limit : ℕ) (ops : List PollOp) :
    Inv W limit (run W limit ops) := by
  induction ops using List.reverseRecOn with
  | nil => exact inv_new W limit
  | append_singleton ops op ih =>
    rw [run, List.foldl_append]
    exact ih.step op

/-! ## The result -/

theorem sum_entries {M : Type} [AddCommMonoid M] (W : GoMap NodeID (BitVec 64)) (f : BitVec 64 → M) :
    (W.entries.map fun e => f e.2).sum = ∑ n ∈ W.keys.toFinset, f (Majority.weight W n) := by
  rw [List.sum_toFinset _ W.keys_nodup]
  show _ = ((W.entries.map Sigma.fst).map _).sum
  rw [List.map_map]
  congr 1
  refine List.map_congr_left fun e he => ?_
  have hlookup : W.lookup e.1 = some e.2 := AList.mem_lookup_iff.mpr he
  rw [Function.comp_apply, Majority.weight, hlookup]
  rfl

/-- A finished poll accepts the reported blocks that weigh more than half of the signed
total. -/
theorem Inv.accepted_iff (h : Inv W limit s) (hfin : s.majority.requests.finished = true) (blkID : ID) :
    blkID ∈ s.majority.accepted ↔ (reporters s.counted blkID).Nonempty ∧
      Majority.totalWeight W < 2 * (trueWeight W (reporters s.counted blkID) : ℤ) := by
  rw [h.accepted.2, h.received]
  unfold receivedWeight Majority.requiredWeight
  split
  next hne =>
    simp only [hfin, hne, true_and, Option.some.injEq, exists_eq_left']
    omega
  next hne => simp [hne]

theorem Inv.reporters_subset (h : Inv W limit s) (blkID : ID) :
    reporters s.counted blkID ⊆ W.keys.toFinset := by
  intro n hn
  rcases mem_reporters.mp hn with ⟨o, ho, -, rfl⟩
  rw [← h.all]
  exact Finset.mem_union_right _ (List.mem_toFinset.mpr (List.mem_map_of_mem ho))

theorem trueWeight_empty : trueWeight W ∅ = 0 := Finset.sum_empty

/-- No weight is read as a negative number. -/
def AllLight (W : GoMap NodeID (BitVec 64)) : Prop := ∀ n w, W.lookup n = some w → w.toNat < 2 ^ 63

theorem AllLight.totalWeight_eq (h : AllLight W) :
    Majority.totalWeight W = trueWeight W W.keys.toFinset := by
  rw [Majority.totalWeight, sum_entries W BitVec.toInt, trueWeight]
  push_cast
  refine Finset.sum_congr rfl fun n hn => ?_
  have hsome := AList.lookup_isSome.mpr (AList.mem_keys.mp (List.mem_toFinset.mp hn))
  rcases Option.isSome_iff_exists.mp hsome with ⟨w, hw⟩
  have hlight := h n w hw
  rw [Majority.weight, hw, Option.getD_some, BitVec.toInt_eq_toNat_cond]
  rw [if_pos (by omega)]

theorem Inv.majority_of_light (h : Inv W limit s) (hW : AllLight W) :
    s.majority.requests.finished → s.ResultIsMajority := by
  intro hfin
  refine ⟨h.accepted.1, fun blkID => ?_⟩
  rw [h.accepted_iff hfin, h.weights, hW.totalWeight_eq]
  constructor
  · rintro ⟨-, hlt⟩
    omega
  · intro hlt
    refine ⟨?_, by omega⟩
    -- a block that nobody reported has no weight
    rw [Finset.nonempty_iff_ne_empty]
    intro hempty
    rw [hempty, trueWeight_empty] at hlt
    omega

theorem toInt_lt_iff (w : BitVec 64) : w.toInt < 2 * (w.toNat : ℤ) ↔ w.toNat < 2 * w.toNat := by
  rw [BitVec.toInt_eq_toNat_cond]
  split <;> omega

/-- One node that reports a block is the majority, whatever its weight. -/
theorem Inv.majority_of_one (h : Inv W limit s) (hW : W.keys.length ≤ 1) :
    s.majority.requests.finished → s.ResultIsMajority := by
  intro hfin
  refine ⟨h.accepted.1, fun blkID => ?_⟩
  rw [h.accepted_iff hfin, h.weights]
  by_cases hne : (reporters s.counted blkID).Nonempty
  · have hsub := h.reporters_subset blkID
    rcases hne with ⟨n, hn⟩
    have hcard : W.keys.toFinset.card ≤ 1 := (List.toFinset_card_le _).trans hW
    have hall : W.keys.toFinset = {n} := Finset.eq_singleton_iff_unique_mem.mpr
      ⟨hsub hn, fun m hm => Finset.card_le_one.mp hcard m hm n (hsub hn)⟩
    have hrep : reporters s.counted blkID = {n} :=
      Finset.Subset.antisymm (hall ▸ hsub) (Finset.singleton_subset_iff.mpr hn)
    rw [Majority.totalWeight, sum_entries W BitVec.toInt, hall, hrep, trueWeight, Finset.sum_singleton,
      Finset.sum_singleton, ← toInt_lt_iff]
    simp
  · have hempty := Finset.not_nonempty_iff_eq_empty.mp hne
    rw [hempty, trueWeight_empty]
    simp

/-! ## Misjudged blocks -/

section Misjudged

variable (keys : Finset NodeID) (w : NodeID → BitVec 64)

/-- Each heavy weight takes `2 ^ 64` from the signed total. -/
theorem sum_toInt : ∑ n ∈ keys, (w n).toInt =
    (∑ n ∈ keys, (w n).toNat : ℕ) - 2 ^ 64 * ((keys.filter fun n => 2 ^ 63 ≤ (w n).toNat).card : ℤ) := by
  have hterm : ∀ n ∈ keys, (w n).toInt =
      ((w n).toNat : ℤ) - if 2 ^ 63 ≤ (w n).toNat then 2 ^ 64 else 0 := by
    intro n _
    rw [BitVec.toInt_eq_toNat_cond]
    split <;> split <;> omega
  rw [Finset.sum_congr rfl hterm, Finset.sum_sub_distrib, ← Finset.sum_filter, Finset.sum_const,
    nsmul_eq_mul]
  push_cast
  ring

/-- Light nodes that together pass a bound do so with at most `2 ^ 64` in excess, or one of
them does. -/
theorem exists_passing {bound : ℤ} {light : Finset NodeID} (hlight : ∀ n ∈ light, (w n).toNat < 2 ^ 63)
    (hne : light.Nonempty) (hbound : bound < 2 * (∑ n ∈ light, (w n).toNat : ℕ)) :
    ∃ S ⊆ light, S.Nonempty ∧ bound < 2 * (∑ n ∈ S, (w n).toNat : ℕ) ∧
      (2 * (∑ n ∈ S, (w n).toNat : ℕ) < bound + 2 ^ 64 ∨ ∃ n, S = {n}) := by
  induction hne using Finset.Nonempty.cons_induction with
  | singleton n => exact ⟨{n}, subset_rfl, Finset.singleton_nonempty n, hbound, .inr ⟨n, rfl⟩⟩
  | cons n rest hn hne ih =>
    by_cases hrest : bound < 2 * (∑ n ∈ rest, (w n).toNat : ℕ)
    · rcases ih (fun m hm => hlight m (Finset.mem_cons_of_mem hm)) hrest with ⟨S, hS, hfound⟩
      exact ⟨S, hS.trans (Finset.subset_cons hn), hfound⟩
    · refine ⟨_, subset_rfl, Finset.cons_nonempty hn, hbound, .inl ?_⟩
      have := hlight n (Finset.mem_cons_self n rest)
      rw [Finset.sum_cons]
      omega

/-- With a heavy node and another one, some nodes weigh more than half of the signed total
and at most half of the true one. -/
theorem exists_misjudged (hcard : 2 ≤ keys.card) (hheavy : ∃ n ∈ keys, 2 ^ 63 ≤ (w n).toNat) :
    ∃ S ⊆ keys, S.Nonempty ∧ ∑ n ∈ keys, (w n).toInt < 2 * (∑ n ∈ S, (w n).toNat : ℕ) ∧
      2 * ∑ n ∈ S, (w n).toNat ≤ ∑ n ∈ keys, (w n).toNat := by
  set heavy := keys.filter fun n => 2 ^ 63 ≤ (w n).toNat with hheavydef
  set light := keys.filter fun n => (w n).toNat < 2 ^ 63 with hlightdef
  have hsigned := sum_toInt keys w
  have hsplit := Finset.sum_filter_add_sum_filter_not keys (fun n => (w n).toNat < 2 ^ 63) fun n => (w n).toNat
  simp only [not_lt] at hsplit
  rw [← hheavydef] at hsigned hsplit
  rw [← hlightdef] at hsplit
  have hpos : 1 ≤ heavy.card := by
    rcases hheavy with ⟨n, hn, hw⟩
    exact Finset.card_pos.mpr ⟨n, Finset.mem_filter.mpr ⟨hn, hw⟩⟩
  have hupper : ∑ n ∈ heavy, (w n).toNat ≤ heavy.card * (2 ^ 64 - 1) :=
    Finset.sum_le_card_nsmul heavy _ _ fun n _ => Nat.le_sub_one_of_lt (w n).isLt
  have hlower : heavy.card * 2 ^ 63 ≤ ∑ n ∈ heavy, (w n).toNat :=
    Finset.card_nsmul_le_sum heavy _ _ fun n hn => (Finset.mem_filter.mp hn).2
  rcases Finset.eq_empty_or_nonempty light with hnone | hsome
  · -- all nodes are heavy: the lightest one
    rcases Finset.exists_min_image keys (fun n => (w n).toNat) (Finset.card_pos.mp (by omega))
      with ⟨n, hn, hmin⟩
    rcases Finset.exists_mem_ne (show 1 < keys.card by omega) n with ⟨m, hm, hmn⟩
    refine ⟨{n}, Finset.singleton_subset_iff.mpr hn, Finset.singleton_nonempty n, ?_, ?_⟩
    · rw [hnone, Finset.sum_empty] at hsplit
      omega
    · have hpair : ∑ x ∈ ({n, m} : Finset NodeID), (w x).toNat ≤ ∑ x ∈ keys, (w x).toNat :=
        Finset.sum_le_sum_of_subset (Finset.insert_subset hn (Finset.singleton_subset_iff.mpr hm))
      rw [Finset.sum_pair hmn.symm] at hpair
      have := hmin m hm
      rw [Finset.sum_singleton]
      omega
  · -- light nodes that just weigh more than half of the signed total
    have hlight : ∑ n ∈ keys, (w n).toInt < 2 * (∑ n ∈ light, (w n).toNat : ℕ) := by
      omega
    have hlight63 : ∀ n ∈ light, (w n).toNat < 2 ^ 63 := fun n hn => (Finset.mem_filter.mp hn).2
    rcases exists_passing w hlight63 hsome hlight with ⟨S, hsub, hne, hlt, hexcess⟩
    refine ⟨S, hsub.trans (Finset.filter_subset _ _), hne, hlt, ?_⟩
    rcases hexcess with hexcess | ⟨n, rfl⟩
    · -- a heavy node takes more away than the excess
      omega
    · -- one light node weighs less than the heavy one
      have hn := Finset.singleton_subset_iff.mp hsub
      have := hlight63 n hn
      have hle := Finset.single_le_sum (fun x _ => Nat.zero_le (w x).toNat) hn
      rw [Finset.sum_singleton]
      omega

end Misjudged

/-! ## A poll for given opinions -/

/-- `Pop` that takes the least node. -/
def leastPick : Pick where
  pick s := if h : s.Nonempty then some (s.min' h) else none
  mem s n h := by
    split at h
    next hne =>
      cases h
      exact Finset.min'_mem s hne
    next => cases h
  empty s h := by
    split at h
    next => cases h
    next hne => exact Finset.not_nonempty_iff_eq_empty.mp hne

/-- The nodes answer one after the other. -/
def answers (opinion : NodeID → GoSet ID) (nodes : List NodeID) : List PollOp :=
  nodes.map fun n => .recordOpinion n (opinion n) (Walk.stored _)

/-- Every counted opinion is the one of its node. -/
def Follows (opinion : NodeID → GoSet ID) (s : Poll) : Prop := ∀ o ∈ s.counted, o.2 = opinion o.1

variable {opinion : NodeID → GoSet ID}

theorem Inv.answers (h : Inv W limit s) (hf : Follows opinion s) (nodes : List NodeID) :
    Inv W limit ((answers opinion nodes).foldl Poll.step s) ∧
      Follows opinion ((answers opinion nodes).foldl Poll.step s) ∧
      ((answers opinion nodes).foldl Poll.step s).majority.requests.pendingSend =
        s.majority.requests.pendingSend ∧
      ((answers opinion nodes).foldl Poll.step s).majority.requests.outstanding =
        s.majority.requests.outstanding \ nodes.toFinset := by
  induction nodes generalizing s with
  | nil => exact ⟨h, hf, rfl, by simp [Poll.answers]⟩
  | cons n nodes ih =>
    have hstep := h.step (.recordOpinion n (opinion n) (Walk.stored _))
    -- the node is no longer outstanding, whether it was or not
    have hone : Follows opinion (s.step (.recordOpinion n (opinion n) (Walk.stored _))) ∧
        (s.step (.recordOpinion n (opinion n) (Walk.stored _))).majority.requests =
          { s.majority.requests with outstanding := s.majority.requests.outstanding.erase n } := by
      by_cases hn : n ∈ s.majority.requests.outstanding
      · have hcounts := recordOpinion_counts hn (opinion n) (Walk.stored _)
        refine ⟨fun o ho => ?_, hcounts.requests⟩
        rw [hcounts.counted] at ho
        rcases List.mem_append.mp ho with ho | ho
        · exact hf o ho
        · rw [List.mem_singleton.mp ho]
      · rw [recordOpinion_unexpected hn, Finset.erase_eq_of_notMem hn]
        exact ⟨hf, rfl⟩
    rcases ih hstep hone.1 with ⟨hinv, hfollows, hpending, houtstanding⟩
    refine ⟨hinv, hfollows, hpending.trans (by rw [hone.2]), houtstanding.trans ?_⟩
    rw [hone.2, List.toFinset_cons, Finset.sdiff_insert]
    exact Finset.erase_sdiff_comm _ _ _

/-- As long as nodes can be asked, the poll goes on until it is finished. -/
theorem Inv.exists_finish (hlimit : 0 < limit) (k : ℕ) (h : Inv W limit s) (hf : Follows opinion s)
    (hidle : s.majority.requests.outstanding = ∅) (hk : s.majority.requests.pendingSend.card ≤ k) :
    ∃ ops : List PollOp, (ops.foldl Poll.step s).majority.requests.finished = true ∧
      Follows opinion (ops.foldl Poll.step s) := by
  induction k generalizing s with
  | zero => exact ⟨[], finished_iff.mpr ⟨Finset.card_eq_zero.mp (Nat.le_zero.mp hk), hidle⟩, hf⟩
  | succ k ih =>
    rcases Finset.eq_empty_or_nonempty s.majority.requests.pendingSend with hempty | hne
    · exact ⟨[], finished_iff.mpr ⟨hempty, hidle⟩, hf⟩
    · have hmoves := getPeers_moves h.disjoint (h.maxOutstanding.symm ▸ h.outstanding) leastPick
      have hasked := h.step (.getPeers leastPick)
      rcases hasked.answers hf W.keys with ⟨hinv, hfollows, hpending, houtstanding⟩
      have hfewer := hmoves.progress (by rw [hidle, h.maxOutstanding]; exact hlimit) hne
      have hidle' : ((Poll.answers opinion W.keys).foldl Poll.step
          (s.step (.getPeers leastPick))).majority.requests.outstanding = ∅ := by
        rw [houtstanding, Finset.sdiff_eq_empty_iff_subset, ← hasked.all]
        exact (Finset.subset_union_right).trans Finset.subset_union_left
      rcases ih hinv hfollows hidle' (by rw [hpending]; exact Nat.le_of_lt_succ (hfewer.trans_le hk))
        with ⟨ops, hfin, hfollows'⟩
      refine ⟨(.getPeers leastPick :: Poll.answers opinion W.keys) ++ ops, ?_, ?_⟩
      · rw [List.foldl_append, List.foldl_cons]
        exact hfin
      · rw [List.foldl_append, List.foldl_cons]
        exact hfollows'

/-- A poll in which the nodes of `S`, and no others, report a block. -/
theorem exists_poll (hlimit : 0 < limit) {S : Finset NodeID} (hS : S ⊆ W.keys.toFinset) (blkID : ID) :
    ∃ ops, (run W limit ops).majority.requests.finished = true ∧
      reporters (run W limit ops).counted blkID = S := by
  set opinion : NodeID → GoSet ID := fun n =>
    if n ∈ S then ⟨[blkID], List.nodup_singleton _⟩ else ⟨[], List.nodup_nil⟩ with hopinion
  have hstart : Follows opinion ⟨Majority.newMajority W limit, []⟩ :=
    nofun
  rcases (inv_new W limit).exists_finish hlimit _ hstart rfl le_rfl with ⟨ops, hfin, hfollows⟩
  refine ⟨ops, hfin, ?_⟩
  have hinv : Inv W limit (ops.foldl Poll.step ⟨Majority.newMajority W limit, []⟩) := inv_run W limit ops
  ext n
  rw [mem_reporters]
  constructor
  · rintro ⟨o, ho, hblk, rfl⟩
    rw [hfollows o ho, hopinion] at hblk
    by_contra hn
    simp [hn] at hblk
  · intro hn
    -- a finished poll has counted every node
    have hall := hinv.all
    rw [(finished_iff.mp hfin).1, (finished_iff.mp hfin).2, Finset.empty_union, Finset.empty_union] at hall
    have hcounted := hS hn
    rw [← hall, List.mem_toFinset, List.mem_map] at hcounted
    rcases hcounted with ⟨o, ho, rfl⟩
    refine ⟨o, ho, ?_, rfl⟩
    rw [hfollows o ho, hopinion]
    simp [hn]

/-- The poll is correct for all schedules and opinions exactly if no weight reaches
`2 ^ 63` or there is at most one node. -/
theorem majority_correct_iff (W : GoMap NodeID (BitVec 64)) (limit : ℕ) (hlimit : 0 < limit) :
    (∀ ops, Correct limit (run W limit ops)) ↔ AllLight W ∨ W.keys.length ≤ 1 := by
  constructor
  · intro hcorrect
    by_contra hcond
    rw [not_or, AllLight] at hcond
    push Not at hcond
    rcases hcond with ⟨⟨n, w, hw, hheavy⟩, hlen⟩
    have hcard : 2 ≤ W.keys.toFinset.card := by
      rw [List.toFinset_card_of_nodup W.keys_nodup]
      exact hlen
    have hn : n ∈ W.keys.toFinset := by
      rw [List.mem_toFinset]
      exact AList.mem_keys.mpr (AList.lookup_isSome.mp (by rw [hw]; rfl))
    rcases exists_misjudged W.keys.toFinset (Majority.weight W) hcard
      ⟨n, hn, by rw [Majority.weight, hw]; exact hheavy⟩ with ⟨S, hS, hne, hsigned, htrue⟩
    rcases exists_poll hlimit hS 0 with ⟨ops, hfin, hreporters⟩
    have hinv := inv_run W limit ops
    -- the nodes of `S` weigh too little, but the block is accepted
    have haccepted : (0 : ID) ∈ (run W limit ops).majority.accepted := by
      rw [hinv.accepted_iff hfin, hreporters, Majority.totalWeight, sum_entries W BitVec.toInt]
      exact ⟨hne, hsigned⟩
    have hmajority := (((hcorrect ops).result hfin).2 0).mp haccepted
    rw [hinv.weights, hreporters] at hmajority
    exact absurd hmajority (not_lt.mpr htrue)
  · intro hcond ops
    have hinv := inv_run W limit ops
    refine ⟨hinv.outstanding, hinv.once, ?_⟩
    rcases hcond with hlight | hone
    · exact hinv.majority_of_light hlight
    · exact hinv.majority_of_one hone

/-- A node of weight `2 ^ 63` on its own. -/
theorem majority_correct_of_one_heavy :
    ((∅ : GoMap NodeID (BitVec 64)).insert 2 (2 ^ 63)).keys.length ≤ 1 ∧
      ∀ ops, Correct 1 (run ((∅ : GoMap NodeID (BitVec 64)).insert 2 (2 ^ 63)) 1 ops) :=
  ⟨by decide, (majority_correct_iff _ 1 (by decide)).mpr (.inr (by decide))⟩

/-- A node of weight `2 ^ 63` and one of weight 1, which alone reports the block 7. -/
theorem heavy_weight_accepts_minority :
    let W := ((∅ : GoMap NodeID (BitVec 64)).insert 1 1).insert 2 (2 ^ 63)
    let s := run W 1
      [.getPeers leastPick, .recordOpinion 1 ⟨[7], by decide⟩ (Walk.stored _), .getPeers leastPick,
        .recordOpinion 2 ⟨[], by decide⟩ (Walk.stored _)]
    s.majority.result = ([7], true) ∧ trueWeight W (reporters s.counted 7) = 1 ∧
      trueWeight W W.keys.toFinset = 2 ^ 63 + 1 := by
  decide +kernel

end Poll

end Titan.Bootstrap
