import Titan.CChain.State

/-!
# Titan.CChain.Predicate — predicates in access lists

A predicate is sent as the storage keys of an access tuple: its bytes, a delimiter and
zeros up to a multiple of 32 bytes. `Bytes` accepts just what `New` makes.
-/

namespace Titan.CChain.Predicate

/-- `common.Hash`, of `common.HashLength` bytes. -/
abbrev Hash := { l : Bytes // l.length = 32 }

/-- `Predicate`. -/
abbrev Chunks := List Hash

def delimiter : UInt8 := 0xff

inductive Error where
  | missingDelimiter (length : ℕ)
  | excessPadding (length expected : ℕ)
  | wrongDelimiter

/-- The first bytes of a slice, copied over an array of zeros. -/
def copyHash (b : Bytes) : Hash := ⟨(b ++ List.replicate 32 0).take 32, by simp⟩

/-- `New`. -/
def new (b : Bytes) : Chunks :=
  let numUnpaddedChunks := b.length / 32
  let last := copyHash (b.drop (32 * numUnpaddedChunks))
  (List.range numUnpaddedChunks).map (fun i => copyHash (b.drop (32 * i))) ++
    [⟨last.1.set (b.length % 32) delimiter, by rw [List.length_set, last.2]⟩]

/-- The chunks one after the other. -/
def padded (p : Chunks) : Bytes := p.flatMap (·.1)

/-- `Bytes`. The trimmed bytes are those of `common.TrimRightZeroes`. -/
def bytes (p : Chunks) : Except Error Bytes :=
  let trimmed := (padded p).rdropWhile (· == 0)
  if h : trimmed = [] then .error (.missingDelimiter p.length)
  else
    let expectedLen := (trimmed.length + 31) / 32
    if expectedLen ≠ p.length then .error (.excessPadding p.length expectedLen)
    else if trimmed.getLast h ≠ delimiter then .error .wrongDelimiter
    else .ok trimmed.dropLast

/-! ## The bytes of the chunks -/

theorem length_padded (p : Chunks) : (padded p).length = 32 * p.length := by
  induction p with
  | nil => rfl
  | cons c p ih =>
    rw [padded, List.flatMap_cons, List.length_append, c.2, ← padded, ih, List.length_cons, Nat.mul_succ, Nat.add_comm]

/-- Chunks of one length are told apart by their bytes. -/
theorem padded_injective {p q : Chunks} (h : padded p = padded q) : p = q := by
  have hlength := congrArg List.length h
  rw [length_padded, length_padded] at hlength
  induction p generalizing q with
  | nil =>
    rw [List.length_nil] at hlength
    exact (List.length_eq_zero_iff.mp (by omega)).symm
  | cons c p ih =>
    cases q with
    | nil => simp at hlength
    | cons d q =>
      rcases List.append_inj h (c.2.trans d.2.symm) with ⟨hhead, htail⟩
      rw [Subtype.ext hhead, ih htail (by simpa [Nat.mul_add] using hlength)]

/-- The whole chunks of a message are its beginning. -/
theorem padded_whole (b : Bytes) (n : ℕ) (h : 32 * n ≤ b.length) :
    padded ((List.range n).map fun i => copyHash (b.drop (32 * i))) = b.take (32 * n) := by
  induction n with
  | zero => rfl
  | succ n ih =>
    have hlast : (copyHash (b.drop (32 * n))).1 = (b.drop (32 * n)).take 32 :=
      List.take_append_of_le_length (by rw [List.length_drop]; omega)
    unfold padded at ih ⊢
    rw [List.range_succ, List.map_append, List.flatMap_append, ih (by omega), Nat.mul_succ, List.take_add]
    simp [hlast]

/-- A message, the delimiter and fewer zeros than a chunk has. -/
theorem padded_new (b : Bytes) :
    padded (new b) = b ++ delimiter :: List.replicate (31 - b.length % 32) 0 := by
  have hwhole := padded_whole b (b.length / 32) (Nat.mul_div_le _ _)
  have hrest : (b.drop (32 * (b.length / 32))).length = b.length % 32 := by
    rw [List.length_drop]
    omega
  have hsplit := List.take_append_drop (32 * (b.length / 32)) b
  unfold new padded at *
  dsimp only
  rw [List.flatMap_append, hwhole, List.flatMap_singleton]
  dsimp only
  generalize b.drop (32 * (b.length / 32)) = rest at *
  have hcopy : (copyHash rest).1 = rest ++ 0 :: List.replicate (31 - b.length % 32) 0 := by
    refine List.take_append.trans ?_
    rw [List.take_of_length_le (by omega), hrest, List.take_replicate, ← List.replicate_succ]
    congr 2
    omega
  rw [hcopy, List.set_append_right _ _ (by omega), hrest, Nat.sub_self, List.set_cons_zero, ← List.append_assoc, hsplit]

/-! ## One encoding -/

theorem trim_append {l : Bytes} {x : UInt8} (hx : x ≠ 0) (k : ℕ) :
    (l ++ x :: List.replicate k 0).rdropWhile (· == 0) = l ++ [x] := by
  induction k with
  | zero => exact List.rdropWhile_concat_neg _ _ _ (by simpa using hx)
  | succ k ih =>
    rw [List.replicate_succ', ← List.cons_append, ← List.append_assoc, List.rdropWhile_concat_pos _ _ _ (by simp), ih]

theorem bytes_new (b : Bytes) : bytes (new b) = .ok b := by
  have hlength := congrArg List.length (padded_new b)
  have htrim : (padded (new b)).rdropWhile (· == 0) = b ++ [delimiter] := by
    rw [padded_new]
    exact trim_append (by decide) _
  rw [length_padded, List.length_append, List.length_cons, List.length_replicate] at hlength
  unfold bytes
  simp only [htrim]
  rw [dif_neg (by simp), if_neg, if_neg (by simp), List.dropLast_concat]
  rw [not_not, List.length_append, List.length_singleton]
  omega

/-- What is accepted ends with the delimiter and fewer zeros than a chunk has. -/
theorem new_of_bytes {p : Chunks} {b : Bytes} (h : bytes p = .ok b) : new b = p := by
  have hsplit := List.rdropWhile_append_rtakeWhile (p := fun x : UInt8 => x == 0) (l := padded p)
  have hzeros : (padded p).rtakeWhile (· == 0) = List.replicate ((padded p).rtakeWhile (· == 0)).length 0 :=
    List.eq_replicate_of_mem fun x hx => by simpa using List.mem_rtakeWhile_imp hx
  have hlength := congrArg List.length hsplit
  rw [length_padded, List.length_append] at hlength
  unfold bytes at h
  dsimp only at h
  split at h
  next => cases h
  next hne =>
    rcases Lib.guard_ok h with ⟨hexpected, h⟩
    rcases Lib.guard_ok h with ⟨hlast, h⟩
    rw [not_not] at hexpected hlast
    cases h
    have htrimmed := List.dropLast_append_getLast hne
    rw [hlast] at htrimmed
    have hlen := congrArg List.length htrimmed
    rw [List.length_append, List.length_singleton] at hlen
    apply padded_injective
    rw [padded_new]
    refine Eq.trans ?_ hsplit
    rw [hzeros, List.append_cons, htrimmed]
    congr 2
    omega

/-- Predicates have one encoding: a list of chunks is accepted just if it is the one that is
made from its bytes. A list without a delimiter, with another last byte before the zeros, or
with a last chunk of zeros is rejected. -/
theorem predicate_encoding_unique :
    (∀ b, bytes (new b) = .ok b) ∧ (∀ p b, bytes p = .ok b → new b = p) ∧
    (∀ p q b, bytes p = .ok b → bytes q = .ok b → p = q) ∧
    (∀ p, delimiter ∉ padded p → ∃ e, bytes p = .error e) ∧
    (∀ p l x k, padded p = l ++ x :: List.replicate k 0 → x ≠ 0 → x ≠ delimiter → ∃ e, bytes p = .error e) ∧
    ∀ p, ∃ e, bytes (p ++ [copyHash []]) = .error e := by
  have hreject : ∀ p, (∀ b, new b ≠ p) → ∃ e, bytes p = .error e := by
    intro p hp
    rcases h : bytes p with e | b
    · exact ⟨e, rfl⟩
    · exact absurd (new_of_bytes h) (hp b)
  refine ⟨bytes_new, fun p b => new_of_bytes, ?_, ?_, ?_, ?_⟩
  · intro p q b hp hq
    rw [← new_of_bytes hp, new_of_bytes hq]
  · intro p hp
    refine hreject p fun b hb => hp ?_
    rw [← hb, padded_new]
    simp
  · intro p l x k hpadded hx hdelimiter
    refine hreject p fun b hb => hdelimiter ?_
    have htrim := trim_append (l := l) hx k
    rw [← hpadded, ← hb, padded_new, trim_append (by decide)] at htrim
    simpa using (List.append_inj_right' htrim rfl).symm
  · intro p
    refine hreject _ fun b hb => ?_
    -- Counted from the end, the delimiter would stand among the zeros of the last chunk.
    have hend := congrArg (fun l => (padded l).reverse[31 - b.length % 32]?) hb
    have hlast : padded (p ++ [copyHash []]) = padded p ++ List.replicate 32 0 := by simp [padded, copyHash]
    have hzero : (List.replicate 32 (0 : UInt8) ++ (padded p).reverse)[31 - b.length % 32]? =
        some 0 := by
      rw [List.getElem?_append_left (by rw [List.length_replicate]; omega), List.getElem?_replicate, if_pos (by omega)]
    rw [padded_new, hlast, List.reverse_append, List.reverse_append, List.reverse_cons, List.reverse_replicate,
      List.reverse_replicate, hzero, List.append_assoc, List.getElem?_append_right (by simp)] at hend
    simp [delimiter] at hend

end Titan.CChain.Predicate
