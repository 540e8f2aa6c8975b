import Titan.Shared.Elements
import Titan.Shared.Memory

/-!
# Titan.Shared.Directions — the parts of shared memory do not overlap

Every pair of chains has two directions. As long as no two of the names that are hashed have
the same hash, their values and the lists of all traits are below different prefixes, so
that a change of one direction leaves all others as they are (`Directions.step`).
-/

namespace Titan.Shared

open Database PrefixDB

/-- The chains, traits and keys that calls name. -/
structure Names where
  chains : Set ID
  traits : Set Bytes
  keys : Set Bytes

/-- The prefix of a pair of chains. -/
def pairDB (hash : Hash256) (id1 id2 : ID) : Bytes := getSharedDatabase hash (sharedID hash id1 id2)

/-- A direction of the pair with the given prefix; the other one has other bytes. -/
def direction (hash : Hash256) (shared : Bytes) : Bool → State
  | false => ⟨joinPrefixes hash shared [0], joinPrefixes hash shared [1]⟩
  | true => ⟨joinPrefixes hash shared [2], joinPrefixes hash shared [3]⟩

/-- What a chain receives from a peer. -/
def inState (hash : Hash256) (my peer : ID) : State :=
  inbound.getValueAndIndexDB hash my peer (pairDB hash my peer)

/-- What a chain sends to a peer. -/
def outState (hash : Hash256) (my peer : ID) : State :=
  outbound.getValueAndIndexDB hash my peer (pairDB hash my peer)

section Pairs

variable {hash : Hash256} {a b c d : ID}

theorem sharedID_comm (hash : Hash256) (a b : ID) : sharedID hash a b = sharedID hash b a := by
  unfold sharedID
  rcases lt_trichotomy a b with hlt | heq | hlt
  · rw [if_neg (not_lt_of_gt hlt), if_pos hlt]
  · rw [heq]
  · rw [if_pos hlt, if_neg (not_lt_of_gt hlt)]

theorem pairDB_comm (hash : Hash256) (a b : ID) : pairDB hash a b = pairDB hash b a := by
  unfold pairDB
  rw [sharedID_comm]

theorem inState_eq (hash : Hash256) (my peer : ID) :
    inState hash my peer = direction hash (pairDB hash my peer) (decide (¬ my < peer)) := by
  unfold inState Prefixes.getValueAndIndexDB
  split
  next h => simp [h, direction, inbound]
  next h => simp [h, direction, inbound]

theorem outState_eq (hash : Hash256) (my peer : ID) :
    outState hash my peer = direction hash (pairDB hash my peer) (decide (my < peer)) := by
  unfold outState Prefixes.getValueAndIndexDB
  split
  next h => simp [h, direction, outbound]
  next h => simp [h, direction, outbound]

/-- What one chain sends is what the other one receives. -/
theorem outState_eq_inState (h : a ≠ b) : outState hash a b = inState hash b a := by
  rw [outState_eq, inState_eq, pairDB_comm]
  congr 1
  rcases lt_or_gt_of_ne h with hlt | hlt
  · simp [hlt, not_lt_of_gt hlt]
  · simp [hlt, not_lt_of_gt hlt]

/-- The bytes of two IDs tell the IDs. -/
theorem combinedBytes_inj (h : combinedBytes a b = combinedBytes c d) : a = c ∧ b = d := by
  have happend := List.append_cancel_left h
  have hlength : a.val.length = c.val.length := by rw [a.property, c.property]
  rcases List.append_inj happend hlength with ⟨hac, hbd⟩
  exact ⟨Subtype.ext hac, Subtype.ext hbd⟩

end Pairs

namespace Names

variable (names : Names) (hash : Hash256)

/-- What is hashed for the prefixes of the databases. -/
inductive Hashed : Bytes → Prop
  | pair {a b : ID} (ha : a ∈ names.chains) (hb : b ∈ names.chains) : Hashed (combinedBytes a b)
  | shared {a b : ID} (ha : a ∈ names.chains) (hb : b ∈ names.chains) : Hashed (sharedID hash a b).val
  | part {a b : ID} (ha : a ∈ names.chains) (hb : b ∈ names.chains) {i : Byte} (hi : i < 4) :
      Hashed (pairDB hash a b ++ [i])
  | trait {a b : ID} (ha : a ∈ names.chains) (hb : b ∈ names.chains) {i : Byte} (hi : i < 4) {trait : Bytes}
      (ht : trait ∈ names.traits) : Hashed (joinPrefixes hash (pairDB hash a b) [i] ++ trait)

/-- No two of the names that are hashed have the same hash. -/
structure NoCollision : Prop where
  prefixes : ∀ ⦃x y⦄, names.Hashed hash x → names.Hashed hash y → hash.sum x = hash.sum y → x = y
  keys : ∀ ⦃x y⦄, x ∈ names.keys → y ∈ names.keys → hash.sum x = hash.sum y → x = y

/-- A direction between two of the chains. -/
def IsDirection (s : State) : Prop :=
  ∃ a ∈ names.chains, ∃ b ∈ names.chains, ∃ larger, s = direction hash (pairDB hash a b) larger

theorem isDirection_inState {names : Names} {a b : ID} (ha : a ∈ names.chains) (hb : b ∈ names.chains) :
    names.IsDirection hash (inState hash a b) := ⟨a, ha, b, hb, _, inState_eq hash a b⟩

variable {names hash} {a b c d : ID}

theorem length_pairDB (hash : Hash256) (a b : ID) : (pairDB hash a b).length = 32 := hash.length_sum _

section Injective

variable (h : names.NoCollision hash) (ha : a ∈ names.chains) (hb : b ∈ names.chains)
  (hc : c ∈ names.chains) (hd : d ∈ names.chains)

include h ha hb hc hd

/-- A prefix of a pair belongs to one pair only. -/
theorem NoCollision.pairDB_inj (heq : pairDB hash a b = pairDB hash c d) :
    (a = c ∧ b = d) ∨ (a = d ∧ b = c) := by
  have hshared := h.prefixes (.shared ha hb) (.shared hc hd) heq
  unfold sharedID hashArray at hshared
  split at hshared <;> split at hshared
  · rcases combinedBytes_inj (h.prefixes (.pair hb ha) (.pair hd hc) hshared) with ⟨hbd, hac⟩
    exact .inl ⟨hac, hbd⟩
  · rcases combinedBytes_inj (h.prefixes (.pair hb ha) (.pair hc hd) hshared) with ⟨hbc, had⟩
    exact .inr ⟨had, hbc⟩
  · rcases combinedBytes_inj (h.prefixes (.pair ha hb) (.pair hd hc) hshared) with ⟨had, hbc⟩
    exact .inr ⟨had, hbc⟩
  · exact .inl (combinedBytes_inj (h.prefixes (.pair ha hb) (.pair hc hd) hshared))

/-- A part below a pair belongs to one pair and one byte. -/
theorem NoCollision.part_inj {i j : Byte} (hi : i < 4) (hj : j < 4)
    (heq : joinPrefixes hash (pairDB hash a b) [i] = joinPrefixes hash (pairDB hash c d) [j]) :
    pairDB hash a b = pairDB hash c d ∧ i = j := by
  have happend := h.prefixes (.part ha hb hi) (.part hc hd hj) heq
  rcases List.append_inj happend (by rw [length_pairDB, length_pairDB]) with ⟨hpair, hbyte⟩
  exact ⟨hpair, List.singleton_inj.mp hbyte⟩

/-- The list of a trait belongs to one part and one trait. -/
theorem NoCollision.trait_inj {i j : Byte} (hi : i < 4) (hj : j < 4) {t t' : Bytes}
    (ht : t ∈ names.traits) (ht' : t' ∈ names.traits)
    (heq : joinPrefixes hash (joinPrefixes hash (pairDB hash a b) [i]) t =
      joinPrefixes hash (joinPrefixes hash (pairDB hash c d) [j]) t') :
    joinPrefixes hash (pairDB hash a b) [i] = joinPrefixes hash (pairDB hash c d) [j] ∧ t = t' := by
  have happend := h.prefixes (.trait ha hb hi ht) (.trait hc hd hj ht') heq
  exact List.append_inj happend (by rw [joinPrefixes, joinPrefixes, makePrefix, makePrefix, hash.length_sum, hash.length_sum])

/-- The values are not the list of a trait. -/
theorem NoCollision.part_ne_trait {i j : Byte} (hi : i < 4) (hj : j < 4) {t : Bytes}
    (ht : t ∈ names.traits) : joinPrefixes hash (pairDB hash a b) [i] ≠
      joinPrefixes hash (joinPrefixes hash (pairDB hash c d) [j]) t := by
  intro heq
  have happend := h.prefixes (.part ha hb hi) (.trait hc hd hj ht) heq
  have hlength : (pairDB hash a b).length = (joinPrefixes hash (pairDB hash c d) [j]).length := by
    rw [length_pairDB, joinPrefixes, makePrefix, hash.length_sum]
  -- the prefix of a pair is the hash of 32 bytes, that of a part the hash of 33
  have hsame := h.prefixes (.shared ha hb) (.part hc hd hj) (List.append_inj happend hlength).1
  have hlengths := congrArg List.length hsame
  rw [(sharedID hash a b).property, List.length_append, length_pairDB] at hlengths
  cases hlengths

/-- Directions of different pairs, or the two of one pair, have different prefixes. -/
theorem NoCollision.direction_inj {larger larger' : Bool}
    (heq : (direction hash (pairDB hash a b) larger).valueDB = (direction hash (pairDB hash c d) larger').valueDB ∨
      (direction hash (pairDB hash a b) larger).indexDB = (direction hash (pairDB hash c d) larger').indexDB) :
    pairDB hash a b = pairDB hash c d ∧ larger = larger' := by
  -- the byte of a part tells the direction
  rcases heq with heq | heq <;> cases larger <;> cases larger' <;>
    rcases h.part_inj ha hb hc hd (by decide) (by decide) heq with ⟨hpair, hbyte⟩
  all_goals first
    | exact ⟨hpair, rfl⟩
    | exact absurd hbyte (by decide)

end Injective

/-! ## Directions -/

theorem valueDB_direction (hash : Hash256) (shared : Bytes) (larger : Bool) :
    ∃ i : Byte, i < 4 ∧ (direction hash shared larger).valueDB = joinPrefixes hash shared [i] := by
  cases larger
  · exact ⟨0, by decide, rfl⟩
  · exact ⟨2, by decide, rfl⟩

theorem indexDB_direction (hash : Hash256) (shared : Bytes) (larger : Bool) :
    ∃ i : Byte, i < 4 ∧ (direction hash shared larger).indexDB = joinPrefixes hash shared [i] := by
  cases larger
  · exact ⟨1, by decide, rfl⟩
  · exact ⟨3, by decide, rfl⟩

theorem NoCollision.apart (h : names.NoCollision hash) {s : State} (hs : names.IsDirection hash s) :
    s.Apart hash names.traits := by
  rcases hs with ⟨a, ha, b, hb, larger, rfl⟩
  rcases valueDB_direction hash (pairDB hash a b) larger with ⟨i, hi, hvalue⟩
  rcases indexDB_direction hash (pairDB hash a b) larger with ⟨j, hj, hindex⟩
  refine ⟨?_, fun t ht => ?_, fun t ht t' ht' heq => ?_⟩
  · rw [hvalue]
    exact hash.length_sum _
  · unfold State.traitDB
    rw [hvalue, hindex]
    exact h.part_ne_trait ha hb ha hb hi hj ht
  · unfold State.traitDB at heq
    rw [hindex] at heq
    exact (h.trait_inj ha hb ha hb hj hj ht ht' heq).2

/-- What is below the prefixes of a direction is elsewhere for every other one. -/
theorem NoCollision.elsewhere (h : names.NoCollision hash) {s s' : State} (hs : names.IsDirection hash s)
    (hs' : names.IsDirection hash s') (hne : s ≠ s') :
    (∀ key, s.Elsewhere hash names.traits (prefixKey s'.valueDB key)) ∧
      ∀ t ∈ names.traits, ∀ key, s.Elsewhere hash names.traits (prefixKey (s'.traitDB hash t) key) := by
  have hapart := h.apart hs
  have hapart' := h.apart hs'
  rcases hs with ⟨a, ha, b, hb, larger, rfl⟩
  rcases hs' with ⟨c, hc, d, hd, larger', rfl⟩
  have hdifferent : ¬ (pairDB hash a b = pairDB hash c d ∧ larger = larger') := fun heq => by
    rw [heq.1, heq.2] at hne
    exact hne rfl
  rcases valueDB_direction hash (pairDB hash a b) larger with ⟨i, hi, hvalue⟩
  rcases valueDB_direction hash (pairDB hash c d) larger' with ⟨i', hi', hvalue'⟩
  rcases indexDB_direction hash (pairDB hash a b) larger with ⟨j, hj, hindex⟩
  rcases indexDB_direction hash (pairDB hash c d) larger' with ⟨j', hj', hindex'⟩
  refine ⟨fun key => ⟨?_, fun t ht => ?_⟩, fun t ht key => ⟨?_, fun t' ht' => ?_⟩⟩
  · refine not_prefix_of_ne (by rw [hapart.length, hapart'.length]) (fun heq => ?_) key
    exact hdifferent (h.direction_inj ha hb hc hd (.inl heq))
  · refine not_prefix_of_ne (by rw [length_traitDB, hapart'.length]) (fun heq => ?_) key
    unfold State.traitDB at heq
    rw [hvalue', hindex] at heq
    exact h.part_ne_trait hc hd ha hb hi' hj ht heq.symm
  · refine not_prefix_of_ne (by rw [length_traitDB, hapart.length]) (fun heq => ?_) key
    unfold State.traitDB at heq
    rw [hvalue, hindex'] at heq
    exact h.part_ne_trait ha hb hc hd hi hj' ht heq
  · refine not_prefix_of_ne (by rw [length_traitDB, length_traitDB]) (fun heq => ?_) key
    unfold State.traitDB at heq
    rw [hindex, hindex'] at heq
    have hpart := (h.trait_inj ha hb hc hd hj hj' ht' ht heq).1
    rw [← hindex, ← hindex'] at hpart
    exact hdifferent (h.direction_inj ha hb hc hd (.inr hpart))

end Names

end Titan.Shared
