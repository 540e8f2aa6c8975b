import Titan.Lib.Checked
import Titan.Lib.SortedMap

/-!
# Titan.Lib.Pool — a pool that is handed out in parts

A pool has a remaining amount and, under each key, an amount that was taken. Parts are taken
and given back with checked arithmetic. As long as no more is taken than remains and no more
is given back than was taken, nothing fails and the total does not change.
-/

namespace Titan.Lib

variable {K ε : Type} [DecidableEq K]

/-! ## Totals of lists and maps -/

/-- One element of a list changes. -/
theorem sum_map_set {α : Type} {l : List α} {i : ℕ} {a : α} (h : l[i]? = some a) (b : α) (g : α → ℕ) :
    ((l.set i b).map g).sum + g a = (l.map g).sum + g b := by
  induction l generalizing i with
  | nil => simp at h
  | cons x l ih =>
    cases i with
    | zero =>
      simp only [List.getElem?_cons_zero, Option.some.injEq] at h
      subst h
      simp only [List.set_cons_zero, List.map_cons, List.sum_cons]
      omega
    | succ i =>
      have := ih h
      simp only [List.set_cons_succ, List.map_cons, List.sum_cons]
      omega

theorem getElem?_set_of_some {α : Type} {l : List α} {i : ℕ} {a : α} (h : l[i]? = some a) (b : α) (j : ℕ) :
    (l.set i b)[j]? = if i = j then some b else l[j]? := by
  have hlt : i < l.length := (List.getElem?_eq_some_iff.mp h).1
  simp [List.getElem?_set, hlt]

/-- The sum of the values of a map. -/
def sumValues (m : AList fun _ : K => ℕ) : ℕ := (m.entries.map fun e => e.2).sum

section

variable (m : AList fun _ : K => ℕ)

theorem sum_kerase (k : K) :
    ((m.entries.kerase k).map fun e => e.2).sum + (m.lookup k).getD 0 = sumValues m := by
  by_cases hk : k ∈ m
  · rcases List.exists_of_kerase (AList.mem_keys.mp hk) with ⟨v, before, after, hnot, hentries, herase⟩
    have hlookup : m.lookup k = some v := by
      apply AList.mem_lookup_iff.mpr
      rw [hentries]
      exact List.mem_append_right _ List.mem_cons_self
    rw [sumValues, herase, hlookup, hentries]
    simp only [List.map_append, List.map_cons, List.sum_append, List.sum_cons, Option.getD_some]
    omega
  · rw [List.kerase_of_notMem_keys (fun h => hk (AList.mem_keys.mpr h)), AList.lookup_eq_none.mpr hk]
    rfl

theorem sumValues_insert (k : K) (v : ℕ) :
    sumValues (m.insert k v) + (m.lookup k).getD 0 = sumValues m + v := by
  have herase := sum_kerase m k
  rw [sumValues, AList.entries_insert, List.map_cons, List.sum_cons]
  dsimp only
  omega

theorem sumValues_erase (k : K) :
    sumValues (m.erase k) + (m.lookup k).getD 0 = sumValues m := sum_kerase m k

end

/-! ## Pools -/

/-- What remains, and what was taken under each key. -/
structure Pool (K : Type) [DecidableEq K] where
  remaining : ℕ
  used : AList fun _ : K => ℕ

namespace Pool

/-- A pool from which nothing was taken. -/
def new (size : ℕ) : Pool K := ⟨size, ∅⟩

/-- The amount that was taken under a key. -/
def held (p : Pool K) (k : K) : ℕ := (p.used.lookup k).getD 0

def total (p : Pool K) : ℕ := sumValues p.used + p.remaining

def take (overflow underflow : ε) (p : Pool K) (k : K) (n : ℕ) : Except ε (Pool K) := do
  let remaining ← checkedSub underflow p.remaining n
  let used ← checkedAdd overflow (p.held k) n
  return ⟨remaining, p.used.insert k used⟩

/-- An entry of which nothing is left is deleted. -/
def giveBack (overflow underflow : ε) (p : Pool K) (k : K) (n : ℕ) : Except ε (Pool K) := do
  let remaining ← checkedAdd overflow p.remaining n
  let used ← checkedSub underflow (p.held k) n
  return ⟨remaining, if used = 0 then p.used.erase k else p.used.insert k used⟩

variable (overflow underflow : ε) {p : Pool K} {k : K} {n : ℕ}

@[simp] theorem total_new (size : ℕ) : (new size : Pool K).total = size := by
  simp [total, new, sumValues]

@[simp] theorem held_new (size : ℕ) (k : K) : (new size : Pool K).held k = 0 := by
  simp [held, new]

theorem held_add_remaining_le (p : Pool K) (k : K) : p.held k + p.remaining ≤ p.total := by
  have := sumValues_erase p.used k
  unfold held total
  omega

theorem remaining_of_held_zero (h : ∀ k, p.held k = 0) : p.remaining = p.total := by
  have hzero : sumValues p.used = 0 := by
    refine List.sum_eq_zero fun v hv => ?_
    rcases List.mem_map.mp hv with ⟨e, he, rfl⟩
    have hk := h e.1
    rwa [held, AList.mem_lookup_iff.mpr he] at hk
  rw [total, hzero, Nat.zero_add]

theorem held_insert (p : Pool K) (k k' : K) (remaining v : ℕ) :
    held ⟨remaining, p.used.insert k v⟩ k' = if k' = k then v else p.held k' := by
  unfold held
  rw [lookup_insert_ite]
  split <;> rfl

theorem held_erase (p : Pool K) (k k' : K) (remaining : ℕ) :
    held ⟨remaining, p.used.erase k⟩ k' = if k' = k then 0 else p.held k' := by
  unfold held
  rw [lookup_erase_ite]
  split <;> rfl

/-- What can be taken is moved to the key. -/
theorem take_ok (hn : n ≤ p.remaining) (htotal : p.total ≤ maxUint64) :
    ∃ p', p.take overflow underflow k n = .ok p' ∧ p'.total = p.total ∧ p'.remaining = p.remaining - n ∧
      ∀ k', p'.held k' = p.held k' + if k' = k then n else 0 := by
  have hfits := p.held_add_remaining_le k
  have hadd : checkedAdd overflow (p.held k) n = .ok (p.held k + n) := if_neg (by omega)
  have hsub : checkedSub underflow p.remaining n = .ok (p.remaining - n) := if_neg (by omega)
  refine ⟨⟨p.remaining - n, p.used.insert k (p.held k + n)⟩, ?_, ?_, rfl, ?_⟩
  · rw [take, hsub, ok_bind, hadd, ok_bind]
    rfl
  · have hinsert := sumValues_insert p.used k (p.held k + n)
    unfold total
    unfold held at hinsert ⊢
    dsimp only
    omega
  · intro k'
    rw [held_insert]
    split
    next heq => rw [heq]
    next => rfl

/-- What was taken is moved back. -/
theorem giveBack_ok (hn : n ≤ p.held k) (htotal : p.total ≤ maxUint64) :
    ∃ p', p.giveBack overflow underflow k n = .ok p' ∧ p'.total = p.total ∧ p'.remaining = p.remaining + n ∧
      ∀ k', p'.held k' = p.held k' - if k' = k then n else 0 := by
  have hfits := p.held_add_remaining_le k
  have hadd : checkedAdd overflow p.remaining n = .ok (p.remaining + n) := if_neg (by omega)
  have hsub : checkedSub underflow (p.held k) n = .ok (p.held k - n) := if_neg (by omega)
  refine ⟨⟨p.remaining + n, if p.held k - n = 0 then p.used.erase k else p.used.insert k (p.held k - n)⟩,
    ?_, ?_, rfl, ?_⟩
  · rw [giveBack, hadd, ok_bind, hsub, ok_bind]
    rfl
  · have hinsert := sumValues_insert p.used k (p.held k - n)
    have herase := sumValues_erase p.used k
    unfold total
    unfold held at hinsert herase hn ⊢
    dsimp only
    split <;> omega
  · intro k'
    by_cases hzero : p.held k - n = 0
    · rw [if_pos hzero, held_erase]
      split
      next heq =>
        rw [heq]
        omega
      next => rfl
    · rw [if_neg hzero, held_insert]
      split
      next heq => rw [heq]
      next => rfl

end Pool

end Titan.Lib
