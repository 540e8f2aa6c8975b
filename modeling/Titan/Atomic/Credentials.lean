import Titan.Atomic.Verifier

/-!
# Titan.Atomic.Credentials — how many keys sign a spend

`VerifyCredentials` of `secp256k1fx` accepts a signature at an owner address if the key that
is recovered from it has that address, of either form: the Avalanche one or the Ethereum
one. A key is given by its two addresses, so that different keys have different addresses.

The addresses of an owner are different, but both addresses of one key may be among them.
Then that key signs twice, and a spend has fewer keys than the threshold says.
-/

namespace Titan.Atomic

open Lib
open PChain (ID Bytes)
open CChain (Address)

variable (crypto : Crypto) (unsignedBytes : Bytes) (out : OutputOwners)

/-- `Verify` of an input. -/
def verifyInput (sigIndices : List ℕ) : Except TxError Unit :=
  ensure (sigIndices.IsChain (· < ·)) (.other "address indices not sorted and unique")

/-! ## The keys of a credential -/

/-- The keys that are recovered from a signature, over the hash of the transaction and over its
text with the Ethereum prefix. -/
def recoveredKeys (sig : Bytes) : List PublicKey :=
  let txHash := crypto.hash256 unsignedBytes
  [crypto.recoverPublicKey txHash sig, crypto.recoverPublicKey (crypto.textHash txHash) sig].filterMap Except.toOption

/-- The key with which a signature is accepted at an address. -/
def acceptedKey (owner : Address) (sig : Bytes) : Option PublicKey :=
  (recoveredKeys crypto unsignedBytes sig).find? fun pk => ownerMatchesPubKey owner pk

/-- The addresses at which the signatures are, with the keys they are accepted with. -/
def signedAddresses (sigIndices : List ℕ) (cred : List Bytes) : List (Address × PublicKey) :=
  (sigIndices.zip cred).filterMap fun s =>
    (out.addrs[s.1]?).bind fun owner =>
      (acceptedKey crypto unsignedBytes owner s.2).map fun pk => (owner, pk)

/-- The keys that sign. -/
def signers (sigIndices : List ℕ) (cred : List Bytes) : List PublicKey :=
  (signedAddresses crypto unsignedBytes out sigIndices cred).map Prod.snd

/-- The keys that are recovered from the signatures and have an owner address. -/
def ownerKeys (cred : List Bytes) : Finset PublicKey :=
  ((cred.flatMap (recoveredKeys crypto unsignedBytes)).filter fun pk =>
    out.addrs.any fun owner => ownerMatchesPubKey owner pk).toFinset

theorem mem_ownerKeys {cred : List Bytes} {pk : PublicKey} :
    pk ∈ ownerKeys crypto unsignedBytes out cred ↔
      (∃ sig ∈ cred, pk ∈ recoveredKeys crypto unsignedBytes sig) ∧
        ∃ owner ∈ out.addrs, ownerMatchesPubKey owner pk := by
  simp [ownerKeys]

/-- The keys that sign at both of their addresses. -/
def signTwice (sigIndices : List ℕ) (cred : List Bytes) : Finset PublicKey :=
  let keys := signers crypto unsignedBytes out sigIndices cred
  keys.toFinset.filter fun pk => keys.count pk = 2

/-- The keys of owners that are recovered as well, but do not sign at an address. -/
def spareKeys (sigIndices : List ℕ) (cred : List Bytes) : Finset PublicKey :=
  ownerKeys crypto unsignedBytes out cred \ (signers crypto unsignedBytes out sigIndices cred).toFinset

variable {crypto unsignedBytes out}

/-! ## One signature -/

theorem verifySignature_ok {index : ℕ} {sig : Bytes}
    (h : verifySignature crypto unsignedBytes out index sig = .ok ()) :
    index < 2 ^ 32 - 1 ∧ ∃ owner pk, out.addrs[index]? = some owner ∧
      acceptedKey crypto unsignedBytes owner sig = some pk := by
  rcases guard_ok h with ⟨hindex, h⟩
  have hlt : index < 2 ^ 32 - 1 := by omega
  rcases howner : out.addrs[index]? with _ | owner
  · rw [howner] at h
    cases h
  · rw [howner] at h
    rcases bind_ok h with ⟨pk, hpk, h⟩
    refine ⟨hlt, owner, ?_⟩
    unfold acceptedKey recoveredKeys
    split at h
    next hmatch =>
      refine ⟨pk, rfl, ?_⟩
      simp [hpk, Except.toOption, hmatch]
    next hmatch =>
      rcases bind_ok h with ⟨pk', hpk', h⟩
      refine ⟨pk', rfl, ?_⟩
      simp [hpk, hpk', Except.toOption, hmatch, ensure_ok h]

/-! ## All signatures -/

section Accepted

variable {fx : Fx} {sigIndices : List ℕ} {cred : List Bytes}

/-- What an accepted credential says. -/
theorem verifyCredentials_ok (hbootstrapped : fx.bootstrapped = true)
    (h : fx.verifyCredentials crypto unsignedBytes sigIndices cred out = .ok ()) :
    out.locktime ≤ fx.clock ∧ out.threshold = sigIndices.length % 2 ^ 32 ∧ sigIndices.length = cred.length ∧
      ∀ s ∈ sigIndices.zip cred, verifySignature crypto unsignedBytes out s.1 s.2 = .ok () := by
  rcases bind_ok h with ⟨_, hlocktime, h⟩
  rcases bind_ok h with ⟨_, hmany, h⟩
  rcases bind_ok h with ⟨_, hfew, h⟩
  rcases bind_ok h with ⟨_, hlength, h⟩
  rw [if_pos hbootstrapped] at h
  have hmany := ensure_ok hmany
  have hfew := ensure_ok hfew
  exact ⟨ensure_ok hlocktime, by omega, ensure_ok hlength, forM_ok h⟩

/-- Every signature of an accepted credential is at an address, with a key. -/
theorem length_signers (hlength : sigIndices.length = cred.length)
    (h : ∀ s ∈ sigIndices.zip cred, verifySignature crypto unsignedBytes out s.1 s.2 = .ok ()) :
    (signers crypto unsignedBytes out sigIndices cred).length = sigIndices.length := by
  have hall : ∀ s ∈ sigIndices.zip cred, ((out.addrs[s.1]?).bind fun owner =>
      (acceptedKey crypto unsignedBytes owner s.2).map fun pk => (owner, pk)).isSome := by
    intro s hs
    rcases verifySignature_ok (h s hs) with ⟨-, owner, pk, howner, hpk⟩
    rw [howner, Option.bind_some, hpk]
    rfl
  unfold signers signedAddresses
  rw [List.length_map, List.length_filterMap_eq_countP, List.countP_eq_length.mpr hall, List.length_zip]
  omega

theorem mem_signedAddresses {owner : Address} {pk : PublicKey}
    (h : (owner, pk) ∈ signedAddresses crypto unsignedBytes out sigIndices cred) :
    owner ∈ out.addrs ∧ ownerMatchesPubKey owner pk ∧
      pk ∈ cred.flatMap (recoveredKeys crypto unsignedBytes) := by
  rcases List.mem_filterMap.mp h with ⟨s, hs, h⟩
  rcases Option.bind_eq_some_iff.mp h with ⟨owner', howner, h⟩
  rcases Option.map_eq_some_iff.mp h with ⟨pk', hpk, heq⟩
  cases heq
  have hmatch := List.find?_some hpk
  exact ⟨List.mem_of_getElem? howner, by simpa using hmatch,
    List.mem_flatMap.mpr ⟨s.2, (List.of_mem_zip hs).2, List.mem_of_find?_eq_some hpk⟩⟩

theorem signers_subset :
    (signers crypto unsignedBytes out sigIndices cred).toFinset ⊆ ownerKeys crypto unsignedBytes out cred := by
  intro pk hpk
  rcases List.mem_map.mp (List.mem_toFinset.mp hpk) with ⟨⟨owner, pk'⟩, h, rfl⟩
  rcases mem_signedAddresses h with ⟨howner, hmatch, hmem⟩
  exact (mem_ownerKeys _ _ _).mpr ⟨List.mem_flatMap.mp hmem, owner, howner, hmatch⟩

section Signatures

variable (hin : verifyInput sigIndices = .ok ()) (hlength : sigIndices.length = cred.length)

include hin hlength

/-- The threshold is the number of signatures. -/
theorem threshold_eq (hthreshold : out.threshold = sigIndices.length % 2 ^ 32)
    (h : ∀ s ∈ sigIndices.zip cred, verifySignature crypto unsignedBytes out s.1 s.2 = .ok ()) :
    out.threshold = sigIndices.length := by
  have hnodup : sigIndices.Nodup := (List.isChain_iff_pairwise.mp (ensure_ok hin)).imp fun h => ne_of_lt h
  have hsubset : sigIndices ⊆ List.range (2 ^ 32 - 1) := by
    intro index hindex
    rw [← List.map_fst_zip (by omega : sigIndices.length ≤ cred.length)] at hindex
    rcases List.mem_map.mp hindex with ⟨s, hs, rfl⟩
    exact List.mem_range.mpr (verifySignature_ok (h s hs)).1
  have hle := (List.Nodup.subperm hnodup hsubset).length_le
  rw [List.length_range] at hle
  omega

variable (hout : out.verify = .ok ())

include hout

/-- The addresses are in strictly increasing order, as the indices are. -/
theorem pairwise_signedAddresses :
    (signedAddresses crypto unsignedBytes out sigIndices cred).Pairwise fun a b => a.1 < b.1 := by
  have hindices : (sigIndices.zip cred).Pairwise fun s t => s.1 < t.1 := by
    rw [← List.pairwise_map (f := Prod.fst) (R := (· < ·)), List.map_fst_zip (by omega)]
    exact List.isChain_iff_pairwise.mp (ensure_ok hin)
  have haddrs : out.addrs.Pairwise (· < ·) := by
    rcases bind_ok hout with ⟨_, -, hout⟩
    rcases bind_ok hout with ⟨_, -, hout⟩
    exact List.isChain_iff_pairwise.mp (ensure_ok hout)
  refine hindices.filterMap _ ?_
  intro s t hst a ha b hb
  rcases Option.bind_eq_some_iff.mp ha with ⟨owner, howner, ha⟩
  rcases Option.map_eq_some_iff.mp ha with ⟨pk, -, rfl⟩
  rcases Option.bind_eq_some_iff.mp hb with ⟨owner', howner', hb⟩
  rcases Option.map_eq_some_iff.mp hb with ⟨pk', -, rfl⟩
  rcases List.getElem?_eq_some_iff.mp howner with ⟨hs, rfl⟩
  rcases List.getElem?_eq_some_iff.mp howner' with ⟨ht, rfl⟩
  exact List.pairwise_iff_getElem.mp haddrs s.1 t.1 hs ht hst

/-- A key signs at most twice, since it has two addresses. -/
theorem count_signers_le (pk : PublicKey) :
    (signers crypto unsignedBytes out sigIndices cred).count pk ≤ 2 := by
  let own := (signedAddresses crypto unsignedBytes out sigIndices cred).filter fun a => a.2 = pk
  have hcount : (signers crypto unsignedBytes out sigIndices cred).count pk = (own.map Prod.fst).length := by
    rw [signers, List.count_eq_countP, List.countP_map, List.countP_eq_length_filter, List.length_map]
    rfl
  have hnodup : (own.map Prod.fst).Nodup := by
    have hpairwise : own.Pairwise fun a b => a.1 < b.1 :=
      (pairwise_signedAddresses hin hlength hout).sublist List.filter_sublist
    exact (List.pairwise_map.mpr hpairwise).imp fun h => ne_of_lt h
  have hsubset : own.map Prod.fst ⊆ [pk.address, pk.ethAddress] := by
    intro owner howner
    rcases List.mem_map.mp howner with ⟨a, ha, rfl⟩
    rcases List.mem_filter.mp ha with ⟨ha, hpk⟩
    have hmatch := (mem_signedAddresses ha).2.1
    rw [of_decide_eq_true hpk] at hmatch
    rcases hmatch with heq | heq
    · rw [heq]
      exact List.mem_cons_self
    · rw [heq]
      exact List.mem_cons_of_mem _ List.mem_cons_self
  rw [hcount]
  exact (List.Nodup.subperm hnodup hsubset).length_le

/-- A signature for each address: the keys that sign twice count for two. -/
theorem card_signers
    (h : ∀ s ∈ sigIndices.zip cred, verifySignature crypto unsignedBytes out s.1 s.2 = .ok ()) :
    (signers crypto unsignedBytes out sigIndices cred).toFinset.card +
      (signTwice crypto unsignedBytes out sigIndices cred).card = sigIndices.length := by
  rw [← length_signers hlength h, ← List.sum_toFinset_count_eq_length, signTwice, Finset.card_filter,
    Finset.card_eq_sum_ones, ← Finset.sum_add_distrib]
  refine Finset.sum_congr rfl fun pk hpk => ?_
  have hpos := List.count_pos_iff.mpr (List.mem_toFinset.mp hpk)
  have hle : (signers crypto unsignedBytes out sigIndices cred).count pk ≤ 2 :=
    count_signers_le hin hlength hout pk
  split <;> omega

end Signatures

/-- The credential has a number of different keys, each recovered from one of its signatures and
with an owner address. -/
def HasKeys (crypto : Crypto) (unsignedBytes : Bytes) (cred : List Bytes) (out : OutputOwners) (n : ℕ) : Prop :=
  ∃ keys : Finset PublicKey, n ≤ keys.card ∧ ∀ pk ∈ keys,
    (∃ sig ∈ cred, pk ∈ recoveredKeys crypto unsignedBytes sig) ∧ ∃ owner ∈ out.addrs, ownerMatchesPubKey owner pk

theorem hasKeys_iff {n : ℕ} :
    HasKeys crypto unsignedBytes cred out n ↔ n ≤ (ownerKeys crypto unsignedBytes out cred).card := by
  constructor
  · rintro ⟨keys, hle, hmem⟩
    exact hle.trans (Finset.card_le_card fun pk hpk => (mem_ownerKeys _ _ _).mpr (hmem pk hpk))
  · intro hle
    exact ⟨_, hle, fun pk hpk => (mem_ownerKeys _ _ _).mp hpk⟩

/-- An accepted credential has as many different keys of owners as the threshold says, just if the
keys that sign at both of their addresses are made up for by further keys of owners. -/
theorem verifyCredentials_keys_iff (fx : Fx) (crypto : Crypto) (unsignedBytes : Bytes) (sigIndices : List ℕ)
    (cred : List Bytes) (out : OutputOwners) (hout : out.verify = .ok ()) (hin : verifyInput sigIndices = .ok ())
    (hbootstrapped : fx.bootstrapped = true)
    (h : fx.verifyCredentials crypto unsignedBytes sigIndices cred out = .ok ()) :
    out.locktime ≤ fx.clock ∧
      (HasKeys crypto unsignedBytes cred out out.threshold ↔
        (signTwice crypto unsignedBytes out sigIndices cred).card ≤
          (spareKeys crypto unsignedBytes out sigIndices cred).card) := by
  rcases verifyCredentials_ok hbootstrapped h with ⟨hlocktime, hthreshold, hlength, hsigs⟩
  have hcard := card_signers hin hlength hout hsigs
  have hspare : (spareKeys crypto unsignedBytes out sigIndices cred).card +
      (signers crypto unsignedBytes out sigIndices cred).toFinset.card =
        (ownerKeys crypto unsignedBytes out cred).card := Finset.card_sdiff_add_card_eq_card signers_subset
  refine ⟨hlocktime, ?_⟩
  rw [hasKeys_iff, threshold_eq hin hlength hthreshold hsigs]
  omega

end Accepted

/-! ## Two owners -/

/-- Two keys. A signature is the number of its key; with the Ethereum prefix it is of another one. -/
def twoKeys : Crypto where
  hash256 bytes := bytes
  textHash hash := 1 :: hash
  recoverPublicKey hash sig :=
    .ok (if hash = [] then if sig = [1] then ⟨1, 2⟩ else ⟨3, 4⟩ else ⟨5, 6⟩)

/-- Two keys sign. -/
theorem verifyCredentials_two_keys :
    HasKeys twoKeys [] [[1], [2]] ⟨0, 2, [1, 3]⟩ 2 := by
  have h := verifyCredentials_keys_iff ⟨10, true⟩ twoKeys [] [0, 1] [[1], [2]] ⟨0, 2, [1, 3]⟩
    (by decide +kernel) (by decide) rfl (by decide +kernel)
  exact h.2.mpr (by decide +kernel)

/-- One key signs at both of its addresses, and the spend is accepted. -/
theorem verifyCredentials_one_key :
    (OutputOwners.verify ⟨0, 2, [1, 2]⟩ = .ok () ∧ verifyInput [0, 1] = .ok () ∧
      Fx.verifyCredentials ⟨10, true⟩ twoKeys [] [0, 1] [[1], [1]] ⟨0, 2, [1, 2]⟩ = .ok ()) ∧
    ¬ HasKeys twoKeys [] [[1], [1]] ⟨0, 2, [1, 2]⟩ 2 := by
  rw [hasKeys_iff]
  decide +kernel

end Titan.Atomic
