import Titan.Warp.Signature

/-!
# Titan.Warp.Quorum — what an accepted warp signature proves

`Merged` says what the loop of `flattenValidatorSet` has collected: for each key, the sum of
the weights of its nodes modulo `2 ^ 64`. The canonical list is sorted by the keys, so it
does not depend on the orders of the loops.

The weight of a key is never more than the true one, and the total is exact. An accepted
signature is therefore one of a quorum of the true weights.
-/

namespace Titan.Warp

open Lib
open Database (Bytes)
open PChain (NodeID GoMap)

variable {B : Bls}

/-! ## True weights -/

def keyBytes (vdr : GetValidatorOutput B) : Option Bytes := vdr.publicKey.map B.publicKeyToUncompressedBytes

/-- The true sum of weights. -/
def trueWeight (vdrs : List (GetValidatorOutput B)) : ℕ := (vdrs.map fun v => v.weight.toNat).sum

/-- The true weight of the nodes with a key. -/
def keyWeight (vdrs : List (GetValidatorOutput B)) (key : Bytes) : ℕ :=
  trueWeight (vdrs.filter fun v => keyBytes v = some key)

section Weights

variable {vdrs vdrs' : List (GetValidatorOutput B)} {vdr : GetValidatorOutput B} {key : Bytes}

theorem trueWeight_append : trueWeight (vdrs ++ vdrs') = trueWeight vdrs + trueWeight vdrs' := by
  unfold trueWeight
  rw [List.map_append, List.sum_append]

theorem trueWeight_cons : trueWeight (vdr :: vdrs) = vdr.weight.toNat + trueWeight vdrs := by
  unfold trueWeight
  rw [List.map_cons, List.sum_cons]

theorem trueWeight_perm (h : vdrs.Perm vdrs') : trueWeight vdrs = trueWeight vdrs' := (h.map _).sum_eq

theorem keyWeight_perm (h : vdrs.Perm vdrs') (key : Bytes) : keyWeight vdrs key = keyWeight vdrs' key :=
  trueWeight_perm (h.filter _)

theorem keyWeight_cons : keyWeight (vdr :: vdrs) key =
    (if keyBytes vdr = some key then vdr.weight.toNat else 0) + keyWeight vdrs key := by
  unfold keyWeight
  rw [List.filter_cons]
  split
  next h => rw [if_pos (by simpa using h), trueWeight_cons]
  next h => rw [if_neg (by simpa using h), Nat.zero_add]

theorem keyWeight_append_singleton : keyWeight (vdrs ++ [vdr]) key =
    keyWeight vdrs key + if keyBytes vdr = some key then vdr.weight.toNat else 0 := by
  rw [keyWeight_perm (List.perm_append_singleton vdr vdrs), keyWeight_cons, Nat.add_comm]

/-- Without nodes a key has no weight. -/
theorem keyWeight_of_no_node (h : ∀ v ∈ vdrs, keyBytes v ≠ some key) : keyWeight vdrs key = 0 := by
  unfold keyWeight
  rw [List.filter_eq_nil_iff.mpr fun v hv => by simpa using h v hv]
  rfl

theorem sum_single {keys : List Bytes} (hnodup : keys.Nodup) (k : Option Bytes) (w : ℕ) :
    (keys.map fun key => if k = some key then w else 0).sum = if ∃ key ∈ keys, k = some key then w else 0 := by
  rw [← List.sum_toFinset _ hnodup]
  cases k with
  | none => simp
  | some b => simp

/-- The weights of different keys add up to the weight of their nodes. -/
theorem sum_keyWeight {keys : List Bytes} (hnodup : keys.Nodup) (vdrs : List (GetValidatorOutput B)) :
    (keys.map (keyWeight vdrs)).sum =
      trueWeight (vdrs.filter fun v => ∃ key ∈ keys, keyBytes v = some key) := by
  induction vdrs with
  | nil =>
    exact List.sum_eq_zero fun n hn => by
      rcases List.mem_map.mp hn with ⟨_, -, rfl⟩
      rfl
  | cons vdr vdrs ih =>
    rw [List.map_congr_left fun key _ => keyWeight_cons, List.sum_map_add, sum_single hnodup, ih,
      List.filter_cons]
    split
    next h => rw [if_pos (by simpa using h), trueWeight_cons]
    next h => rw [if_neg (by simpa using h), Nat.zero_add]

end Weights

/-! ## The loop -/

/-- What the loop has collected of some validators. -/
structure Merged (vdrs : List (GetValidatorOutput B)) (acc : GoMap Bytes (Validator B) × ℕ) : Prop where
  total : acc.2 = trueWeight vdrs
  none_iff : ∀ key, acc.1.lookup key = none ↔ ∀ v ∈ vdrs, keyBytes v ≠ some key
  key : ∀ key w, acc.1.lookup key = some w →
    w.publicKeyBytes = key ∧ B.publicKeyToUncompressedBytes w.publicKey = key
  weight : ∀ key w, acc.1.lookup key = some w → w.weight.toNat = keyWeight vdrs key % 2 ^ 64

theorem Merged.add {vdrs : List (GetValidatorOutput B)} {acc : GoMap Bytes (Validator B) × ℕ}
    (h : Merged vdrs acc) (vdr : GetValidatorOutput B) : Merged (vdrs ++ [vdr]) (addValidator acc vdr) := by
  unfold addValidator
  have htotal : acc.2 + vdr.weight.toNat = trueWeight (vdrs ++ [vdr]) := by
    rw [trueWeight_append, h.total, trueWeight_cons]
    rfl
  rcases hpk : vdr.publicKey with _ | pk
  · -- a node without a key only counts for the total
    have hkey : ∀ key, keyBytes vdr ≠ some key := by
      intro key
      simp [keyBytes, hpk]
    refine ⟨htotal, fun key => ?_, h.key, fun key w hw => ?_⟩
    · rw [h.none_iff, List.forall_mem_append]
      simp [hkey]
    · rw [keyWeight_append_singleton, if_neg (hkey key)]
      exact h.weight key w hw
  · set pkBytes := B.publicKeyToUncompressedBytes pk
    have hkey : ∀ key, keyBytes vdr = some key ↔ pkBytes = key := by
      intro key
      rw [keyBytes, hpk, Option.map_some, Option.some.injEq]
    -- the entry of the key, as it was or new
    have hunique : ((acc.1.lookup pkBytes).getD ⟨pk, pkBytes, 0, []⟩).publicKeyBytes = pkBytes ∧
        B.publicKeyToUncompressedBytes ((acc.1.lookup pkBytes).getD ⟨pk, pkBytes, 0, []⟩).publicKey = pkBytes ∧
        ((acc.1.lookup pkBytes).getD ⟨pk, pkBytes, 0, []⟩).weight.toNat = keyWeight vdrs pkBytes % 2 ^ 64 := by
      rcases hlookup : acc.1.lookup pkBytes with _ | w
      · rw [keyWeight_of_no_node ((h.none_iff pkBytes).mp hlookup)]
        exact ⟨rfl, rfl, rfl⟩
      · exact ⟨(h.key _ w hlookup).1, (h.key _ w hlookup).2, h.weight _ w hlookup⟩
    refine ⟨htotal, fun key => ?_, fun key w hw => ?_, fun key w hw => ?_⟩
    · by_cases hk : key = pkBytes
      · subst hk
        rw [AList.lookup_insert]
        simp [hkey]
      · rw [AList.lookup_insert_ne hk, h.none_iff, List.forall_mem_append]
        simp [hkey, Ne.symm hk]
    · by_cases hk : key = pkBytes
      · subst hk
        rw [AList.lookup_insert] at hw
        cases hw
        exact ⟨hunique.1, hunique.2.1⟩
      · rw [AList.lookup_insert_ne hk] at hw
        exact h.key key w hw
    · rw [keyWeight_append_singleton]
      by_cases hk : key = pkBytes
      · subst hk
        rw [AList.lookup_insert] at hw
        cases hw
        rw [if_pos ((hkey _).mpr rfl), BitVec.toNat_add, hunique.2.2, Nat.mod_add_mod]
      · rw [AList.lookup_insert_ne hk] at hw
        rw [if_neg fun heq => hk ((hkey key).mp heq).symm, Nat.add_zero]
        exact h.weight key w hw

theorem merged_foldl (vdrs : List (GetValidatorOutput B)) :
    Merged vdrs (vdrs.foldl addValidator (∅, 0)) := by
  induction vdrs using List.reverseRecOn with
  | nil =>
    refine ⟨rfl, fun key => ?_, fun key w hw => ?_, fun key w hw => ?_⟩
    · simp
    · cases hw
    · cases hw
  | append_singleton vdrs vdr ih =>
    rw [List.foldl_append]
    exact ih.add vdr

/-! ## The canonical list -/

/-- The validators of a set, in the order in which they are stored. -/
def outputs (vdrSet : GoMap NodeID (GetValidatorOutput B)) : List (GetValidatorOutput B) :=
  vdrSet.entries.map (·.2)

/-- What the canonical list says of a validator: its key, the key's bytes and its weight. -/
def Validator.canonical (w : Validator B) : B.PublicKey × Bytes × BitVec 64 :=
  (w.publicKey, w.publicKeyBytes, w.weight)

section Canonical

variable (order : FlattenOrder B) (vdrSet : GoMap NodeID (GetValidatorOutput B))

theorem totalWeight_flatten : (flattenValidatorSet order vdrSet).totalWeight = trueWeight (outputs vdrSet) := by
  rw [outputs, ← trueWeight_perm ((order.vdrSet.perm vdrSet.entries).map (·.2))]
  exact (merged_foldl _).total

theorem mem_flatten {w : Validator B} : w ∈ (flattenValidatorSet order vdrSet).validators ↔
    (((order.vdrSet.order vdrSet.entries).map (·.2)).foldl addValidator (∅, 0)).1.lookup
      w.publicKeyBytes = some w := by
  have hmerged := merged_foldl ((order.vdrSet.order vdrSet.entries).map (·.2))
  unfold flattenValidatorSet
  rw [(List.perm_insertionSort _ _).mem_iff, List.mem_map]
  constructor
  · rintro ⟨⟨key, w'⟩, he, rfl⟩
    have hlookup := AList.mem_lookup_iff.mpr ((order.vdrs.perm _).mem_iff.mp he)
    rw [(hmerged.key key w' hlookup).1]
    exact hlookup
  · intro hlookup
    exact ⟨⟨w.publicKeyBytes, w⟩, (order.vdrs.perm _).mem_iff.mpr (AList.mem_lookup_iff.mp hlookup), rfl⟩

/-- The keys are in strictly increasing order. -/
theorem pairwise_flatten :
    (flattenValidatorSet order vdrSet).validators.Pairwise fun v w => v.publicKeyBytes < w.publicKeyBytes := by
  have hmerged := merged_foldl ((order.vdrSet.order vdrSet.entries).map (·.2))
  set vdrs := (((order.vdrSet.order vdrSet.entries).map (·.2)).foldl addValidator (∅, 0)).1
  have hkeys : ((order.vdrs.order vdrs.entries).map (·.2)).map Validator.publicKeyBytes =
      (order.vdrs.order vdrs.entries).map (·.1) := by
    rw [List.map_map]
    refine List.map_congr_left fun e he => ?_
    exact (hmerged.key e.1 e.2 (AList.mem_lookup_iff.mpr ((order.vdrs.perm _).mem_iff.mp he))).1
  have hnodup : (((order.vdrs.order vdrs.entries).map (·.2)).map Validator.publicKeyBytes).Nodup := by
    rw [hkeys]
    exact ((order.vdrs.perm _).map Sigma.fst).nodup_iff.mpr vdrs.keys_nodup
  set r : Validator B → Validator B → Prop := fun v w => v.publicKeyBytes ≤ w.publicKeyBytes
  have hsorted := List.pairwise_insertionSort r ((order.vdrs.order vdrs.entries).map (·.2))
  have hperm := List.perm_insertionSort r ((order.vdrs.order vdrs.entries).map (·.2))
  have hne := List.pairwise_map.mp ((hperm.map Validator.publicKeyBytes).nodup_iff.mpr hnodup)
  exact (hsorted.and hne).imp fun {v w} h => lt_of_le_of_ne h.1 h.2

/-- The canonical entries, without the order of the loop over the set. -/
theorem mem_canonical {pk : B.PublicKey} {key : Bytes} {weight : BitVec 64} :
    (pk, key, weight) ∈ (flattenValidatorSet order vdrSet).validators.map Validator.canonical ↔
      (∃ v ∈ outputs vdrSet, keyBytes v = some key) ∧ B.publicKeyToUncompressedBytes pk = key ∧
        weight.toNat = keyWeight (outputs vdrSet) key % 2 ^ 64 := by
  have hperm : ((order.vdrSet.order vdrSet.entries).map (·.2)).Perm (outputs vdrSet) :=
    (order.vdrSet.perm vdrSet.entries).map _
  have hmerged := merged_foldl ((order.vdrSet.order vdrSet.entries).map (·.2))
  rw [List.mem_map]
  constructor
  · rintro ⟨w, hw, heq⟩
    cases heq
    rw [mem_flatten] at hw
    refine ⟨?_, (hmerged.key _ w hw).2, ?_⟩
    · by_contra hnone
      have hlookup := (hmerged.none_iff w.publicKeyBytes).mpr fun v hv heq =>
        hnone ⟨v, hperm.mem_iff.mp hv, heq⟩
      rw [hw] at hlookup
      cases hlookup
    · rw [hmerged.weight _ w hw, keyWeight_perm hperm]
  · rintro ⟨⟨v, hv, hkey⟩, hpk, hweight⟩
    rcases hlookup : (((order.vdrSet.order vdrSet.entries).map (·.2)).foldl addValidator (∅, 0)).1.lookup key
      with _ | w
    · exact absurd hkey ((hmerged.none_iff key).mp hlookup v (hperm.mem_iff.mpr hv))
    · rcases hmerged.key key w hlookup with ⟨hbytes, hpk'⟩
      refine ⟨w, ?_, ?_⟩
      · rw [mem_flatten, hbytes]
        exact hlookup
      · have hsame : w.publicKey = pk := B.uncompressed_injective (hpk'.trans hpk.symm)
        have hsum : w.weight = weight := by
          apply BitVec.eq_of_toNat_eq
          rw [hmerged.weight key w hlookup, hweight, keyWeight_perm hperm]
        rw [Validator.canonical, hsame, hbytes, hsum]

/-- The canonical list does not depend on the orders of the loops. -/
theorem canonical_unique (order' : FlattenOrder B) :
    (flattenValidatorSet order vdrSet).validators.map Validator.canonical =
      (flattenValidatorSet order' vdrSet).validators.map Validator.canonical := by
  have hsorted : ∀ order : FlattenOrder B,
      ((flattenValidatorSet order vdrSet).validators.map Validator.canonical).Pairwise
        fun a b => a.2.1 < b.2.1 := fun order => List.pairwise_map.mpr (pairwise_flatten order vdrSet)
  have hnodup : ∀ order : FlattenOrder B,
      ((flattenValidatorSet order vdrSet).validators.map Validator.canonical).Nodup := fun order =>
    (hsorted order).imp fun {a b} hlt heq => absurd hlt (by rw [heq]; exact lt_irrefl _)
  have hperm : ((flattenValidatorSet order vdrSet).validators.map Validator.canonical).Perm
      ((flattenValidatorSet order' vdrSet).validators.map Validator.canonical) := by
    rw [List.perm_ext_iff_of_nodup (hnodup order) (hnodup order')]
    rintro ⟨pk, key, weight⟩
    rw [mem_canonical, mem_canonical]
  refine List.Perm.eq_of_pairwise (fun a b _ _ hab hba => ?_) (hsorted order) (hsorted order') hperm
  exact absurd (hab.trans hba) (lt_irrefl _)

end Canonical

/-! ## Signers -/

/-- The key of the node has its bit set. -/
def hasBit (vdrs : List (Validator B)) (bits : ℕ) (vdr : GetValidatorOutput B) : Bool :=
  vdrs.zipIdx.any fun v => bits.testBit v.2 && decide (keyBytes vdr = some v.1.publicKeyBytes)

/-- The true weight of the nodes whose key has its bit set. -/
def signedWeight (vdrSet : GoMap NodeID (GetValidatorOutput B)) (vdrs : List (Validator B)) (bits : ℕ) : ℕ :=
  trueWeight ((outputs vdrSet).filter (hasBit vdrs bits))

/-- The validators whose bit is set. -/
def signers (vdrs : List (Validator B)) (bits : ℕ) : List (Validator B) :=
  (vdrs.zipIdx.filter fun v => bits.testBit v.2).map (·.1)

section Signers

variable (order : FlattenOrder B) (vdrSet : GoMap NodeID (GetValidatorOutput B)) (bits : ℕ)

theorem signers_sublist (vdrs : List (Validator B)) : (signers vdrs bits).Sublist vdrs := by
  have hsub : ((vdrs.zipIdx.filter fun v => bits.testBit v.2).map (·.1)).Sublist (vdrs.zipIdx.map (·.1)) :=
    List.filter_sublist.map _
  rwa [List.zipIdx_map_fst] at hsub

theorem hasBit_iff (vdrs : List (Validator B)) (vdr : GetValidatorOutput B) :
    hasBit vdrs bits vdr = true ↔
      ∃ key ∈ (signers vdrs bits).map Validator.publicKeyBytes, keyBytes vdr = some key := by
  unfold hasBit signers
  rw [List.any_eq_true]
  constructor
  · rintro ⟨v, hv, hbit⟩
    rw [Bool.and_eq_true, decide_eq_true_eq] at hbit
    refine ⟨v.1.publicKeyBytes, ?_, hbit.2⟩
    exact List.mem_map_of_mem (List.mem_map_of_mem (List.mem_filter.mpr ⟨hv, hbit.1⟩))
  · rintro ⟨key, hkey, hvdr⟩
    rcases List.mem_map.mp hkey with ⟨w, hw, rfl⟩
    rcases List.mem_map.mp hw with ⟨v, hv, rfl⟩
    rcases List.mem_filter.mp hv with ⟨hmem, hbit⟩
    refine ⟨v, hmem, ?_⟩
    rw [Bool.and_eq_true, decide_eq_true_eq]
    exact ⟨hbit, hvdr⟩

/-- The true weight of the signers is the sum over their keys. -/
theorem signedWeight_eq : signedWeight vdrSet (flattenValidatorSet order vdrSet).validators bits =
    ((signers (flattenValidatorSet order vdrSet).validators bits).map fun w =>
      keyWeight (outputs vdrSet) w.publicKeyBytes).sum := by
  have hnodup : ((signers (flattenValidatorSet order vdrSet).validators bits).map
      Validator.publicKeyBytes).Nodup := by
    have hsorted := (pairwise_flatten order vdrSet).sublist (signers_sublist bits _)
    exact List.pairwise_map.mpr (hsorted.imp fun {v w} hlt => ne_of_lt hlt)
  have hsum := sum_keyWeight hnodup (outputs vdrSet)
  rw [List.map_map] at hsum
  have hfilter : (outputs vdrSet).filter (hasBit (flattenValidatorSet order vdrSet).validators bits) =
      (outputs vdrSet).filter fun vdr => ∃ key ∈
        (signers (flattenValidatorSet order vdrSet).validators bits).map Validator.publicKeyBytes,
        keyBytes vdr = some key :=
    List.filter_congr fun vdr _ => by rw [Bool.eq_iff_iff, hasBit_iff, decide_eq_true_eq]
  rw [signedWeight, hfilter]
  exact hsum.symm

theorem weight_signer {w : Validator B} (hw : w ∈ signers (flattenValidatorSet order vdrSet).validators bits) :
    w.weight.toNat = keyWeight (outputs vdrSet) w.publicKeyBytes % 2 ^ 64 :=
  ((mem_canonical order vdrSet).mp (List.mem_map_of_mem ((signers_sublist bits _).subset hw))).2.2

/-- A sum that wrapped around is too small, never too large. -/
theorem sumWeight_le : sumWeight (signers (flattenValidatorSet order vdrSet).validators bits) ≤
    signedWeight vdrSet (flattenValidatorSet order vdrSet).validators bits := by
  rw [signedWeight_eq]
  refine List.sum_le_sum fun w hw => ?_
  rw [weight_signer order vdrSet bits hw]
  exact Nat.mod_le _ _

/-- No shared key carries more than a word. -/
def NoOverflow (vdrSet : GoMap NodeID (GetValidatorOutput B)) : Prop :=
  ∀ key, keyWeight (outputs vdrSet) key ≤ maxUint64

theorem sumWeight_eq (h : NoOverflow vdrSet) :
    sumWeight (signers (flattenValidatorSet order vdrSet).validators bits) =
      signedWeight vdrSet (flattenValidatorSet order vdrSet).validators bits := by
  rw [signedWeight_eq]
  refine congrArg List.sum (List.map_congr_left fun w hw => ?_)
  have hle : keyWeight (outputs vdrSet) w.publicKeyBytes ≤ 2 ^ 64 - 1 := h w.publicKeyBytes
  rw [weight_signer order vdrSet bits hw, Nat.mod_eq_of_lt (by omega)]

end Signers

/-! ## The check -/

/-- A parsed signature by the aggregate of the signers' keys. -/
def ValidAggregate (s : BitSetSignature) (msg : UnsignedMessage) (vdrs : List (Validator B)) : Prop :=
  ∃ aggSig aggPubKey, B.signatureFromBytes s.signature = some aggSig ∧
    B.aggregatePublicKeys ((signers vdrs (bitsFromBytes s.signers)).map Validator.publicKey) = some aggPubKey ∧
    B.verify aggPubKey aggSig msg.bytes = true

/-- The number of signers has no leading zero bytes, and every bit has a validator. -/
structure Canonical (s : BitSetSignature) (vdrs : List (Validator B)) : Prop where
  unpadded : numBytes (bitsFromBytes s.signers) = s.signers.length
  inRange : bitLen (bitsFromBytes s.signers) ≤ vdrs.length

section Verify

variable {s : BitSetSignature} {msg : UnsignedMessage} {networkID : BitVec 32} {set : WarpSet B}
  {quorumNum quorumDen : ℕ}

theorem quorum_of_verify (h : s.verify msg networkID set quorumNum quorumDen = .ok ()) :
    set.totalWeight * quorumNum ≤ sumWeight (signers set.validators (bitsFromBytes s.signers)) * quorumDen := by
  unfold BitSetSignature.verify at h
  dsimp only at h
  rcases guard_ok h with ⟨-, h⟩
  split at h
  · cases h
  · rcases bind_ok h with ⟨l, hl, h⟩
    rcases bind_ok h with ⟨_, hweight, -⟩
    cases (guard_ok hl).2
    exact not_lt.mp (guard_ok hweight).1

theorem verify_of_quorum (hcanonical : Canonical s set.validators)
    (hquorum : set.totalWeight * quorumNum ≤
      sumWeight (signers set.validators (bitsFromBytes s.signers)) * quorumDen)
    (hvalid : ValidAggregate s msg set.validators) :
    s.verify msg networkID set quorumNum quorumDen =
      if msg.networkID = networkID then .ok () else .error .wrongNetworkID := by
  rcases hvalid with ⟨aggSig, aggPubKey, hparse, haggregate, hverify⟩
  have hfilter : filterValidators (bitsFromBytes s.signers) set.validators =
      .ok (signers set.validators (bitsFromBytes s.signers)) := if_neg (not_lt.mpr hcanonical.inRange)
  have hweight : verifyWeight (sumWeight (signers set.validators (bitsFromBytes s.signers)))
      set.totalWeight quorumNum quorumDen = .ok () := if_neg (not_lt.mpr hquorum)
  unfold BitSetSignature.verify
  by_cases hnetwork : msg.networkID = networkID
  · rw [if_neg (not_not.mpr hnetwork), if_neg (not_not.mpr hcanonical.unpadded), if_pos hnetwork, hfilter]
    show (verifyWeight _ _ _ _ >>= fun _ => _) = _
    rw [hweight]
    rw [hparse]
    rw [haggregate]
    dsimp only
    rw [if_pos hverify]
    rfl
  · rw [if_pos hnetwork, if_neg hnetwork]
    rfl

end Verify

/-- An accepted signature is one of a quorum of the true weights, the canonical list does
not depend on map orders, and without overflows of shared keys every quorum is accepted. -/
theorem warp_quorum (vdrSet : GoMap NodeID (GetValidatorOutput B)) (s : BitSetSignature)
    (msg : UnsignedMessage) (networkID : BitVec 32) (quorumNum quorumDen : ℕ) (order : FlattenOrder B) :
    (s.verify msg networkID (flattenValidatorSet order vdrSet) quorumNum quorumDen = .ok () →
      quorumNum * trueWeight (outputs vdrSet) ≤
        quorumDen * signedWeight vdrSet (flattenValidatorSet order vdrSet).validators (bitsFromBytes s.signers)) ∧
    (∀ order' : FlattenOrder B,
      (flattenValidatorSet order vdrSet).validators.map Validator.canonical =
        (flattenValidatorSet order' vdrSet).validators.map Validator.canonical ∧
      (flattenValidatorSet order vdrSet).totalWeight = (flattenValidatorSet order' vdrSet).totalWeight) ∧
    (NoOverflow vdrSet → Canonical s (flattenValidatorSet order vdrSet).validators →
      quorumNum * trueWeight (outputs vdrSet) ≤
        quorumDen * signedWeight vdrSet (flattenValidatorSet order vdrSet).validators (bitsFromBytes s.signers) →
      ValidAggregate s msg (flattenValidatorSet order vdrSet).validators →
      s.verify msg networkID (flattenValidatorSet order vdrSet) quorumNum quorumDen =
        if msg.networkID = networkID then .ok () else .error .wrongNetworkID) := by
  refine ⟨?_, ?_, ?_⟩
  · intro h
    have hquorum := quorum_of_verify h
    rw [totalWeight_flatten] at hquorum
    calc quorumNum * trueWeight (outputs vdrSet)
        = trueWeight (outputs vdrSet) * quorumNum := Nat.mul_comm _ _
      _ ≤ sumWeight (signers _ (bitsFromBytes s.signers)) * quorumDen := hquorum
      _ ≤ signedWeight vdrSet _ (bitsFromBytes s.signers) * quorumDen :=
        Nat.mul_le_mul_right _ (sumWeight_le order vdrSet _)
      _ = quorumDen * signedWeight vdrSet _ (bitsFromBytes s.signers) := Nat.mul_comm _ _
  · intro order'
    exact ⟨canonical_unique order vdrSet order', by rw [totalWeight_flatten, totalWeight_flatten]⟩
  · intro hoverflow hcanonical hquorum hvalid
    refine verify_of_quorum hcanonical ?_ hvalid
    rw [totalWeight_flatten, sumWeight_eq order vdrSet _ hoverflow, Nat.mul_comm, Nat.mul_comm _ quorumDen]
    exact hquorum

/-! ## A set with a shared key -/

/-- Keys and signatures are their own bytes, and every signature is valid. -/
def plainBls : Bls where
  PublicKey := Bytes
  Signature := Bytes
  publicKeyToUncompressedBytes := id
  uncompressed_injective := Function.injective_id
  signatureFromBytes := some
  aggregatePublicKeys keys := keys.head?
  verify _ _ _ := true

/-- Two nodes with one key, and one without a key. -/
def sharedKeySet : GoMap NodeID (GetValidatorOutput plainBls) :=
  ((∅ : GoMap NodeID (GetValidatorOutput plainBls)).insert 1 ⟨1, some [7], 40⟩).insert 2 ⟨2, some [7], 30⟩
    |>.insert 3 ⟨3, none, 30⟩

theorem warp_quorum_sharedKeySet :
    (⟨[1], []⟩ : BitSetSignature).verify ⟨5, []⟩ 5
      (flattenValidatorSet ⟨Walk.stored _, Walk.stored _⟩ sharedKeySet) 67 100 = .ok () := by
  refine (warp_quorum sharedKeySet ⟨[1], []⟩ ⟨5, []⟩ 5 67 100 ⟨Walk.stored _, Walk.stored _⟩).2.2 ?_ ?_ ?_ ?_
  · intro key
    have hle : keyWeight (outputs sharedKeySet) key ≤ trueWeight (outputs sharedKeySet) :=
      (List.filter_sublist.map _).sum_le_sum fun _ _ => Nat.zero_le _
    exact hle.trans (by decide)
  · exact ⟨by decide, by decide⟩
  · decide
  · exact ⟨([] : Bytes), ([7] : Bytes), rfl, rfl, rfl⟩

end Titan.Warp
