import Titan.Genesis.Config

/-!
# Titan.Genesis.Splitting — how the staked allocations are split

The loops of `splitAllocations` move amounts from the allocations to the nodes, piece by
piece. `Split.Inv` says what holds between two unlock entries: completed nodes have exactly
the weight of a node, and the current one has no more while nodes are left to be completed.
What is carried is compared by a weighted sum over the keys (address and unlock time), which
gives both the total and the amount under each key.
-/

namespace Titan.Genesis

/-- An address and an unlock time. -/
abbrev Key := Address × ℕ

/-- The sum of the amounts, each with the factor of its key. -/
def weigh (f : Key → ℕ) (l : List (Key × ℕ)) : ℕ := (l.map fun e => f e.1 * e.2).sum

@[simp] theorem weigh_nil (f : Key → ℕ) : weigh f [] = 0 := rfl

@[simp] theorem weigh_cons (f : Key → ℕ) (e : Key × ℕ) (l : List (Key × ℕ)) :
    weigh f (e :: l) = f e.1 * e.2 + weigh f l := rfl

@[simp] theorem weigh_append (f : Key → ℕ) (l l' : List (Key × ℕ)) :
    weigh f (l ++ l') = weigh f l + weigh f l' := by
  unfold weigh
  rw [List.map_append, List.sum_append]

/-- The locked amounts of an address. -/
def scheduled (address : Address) (schedule : List LockedAmount) : List (Key × ℕ) :=
  schedule.map fun unlock => ((address, unlock.locktime), unlock.amount)

def locked (allocations : List Allocation) : List (Key × ℕ) :=
  allocations.flatMap fun a => scheduled a.avaxAddr a.unlockSchedule

@[simp] theorem locked_append (l l' : List Allocation) : locked (l ++ l') = locked l ++ locked l' :=
  List.flatMap_append

@[simp] theorem locked_singleton (a : Allocation) : locked [a] = scheduled a.avaxAddr a.unlockSchedule :=
  List.flatMap_singleton ..

@[simp] theorem scheduled_append (address : Address) (l l' : List LockedAmount) :
    scheduled address (l ++ l') = scheduled address l ++ scheduled address l' := List.map_append

/-- The total of all amounts. -/
def total (l : List (Key × ℕ)) : ℕ := weigh 1 l

/-! ## The unchecked sum -/

variable {allocations : List Allocation}

theorem sumLocked_eq (h : total (locked allocations) < 2 ^ 64) :
    Config.sumLocked allocations = total (locked allocations) := by
  -- both loops run over the entries, and no sum of them wraps around
  have hentries : Config.sumLocked allocations = (locked allocations).foldl (fun n e => (n + e.2) % 2 ^ 64) 0 := by
    simp only [Config.sumLocked, locked, scheduled, List.foldl_flatMap, List.foldl_map]
  rw [hentries]
  generalize locked allocations = l at h
  induction l using List.reverseRecOn with
  | nil => rfl
  | append_singleton l e ih =>
    have hlast : total (l ++ [e]) = total l + e.2 := by simp [total]
    rw [List.foldl_concat, ih (by omega), hlast, Nat.mod_eq_of_lt (by omega)]

/-! ## One node after the other -/

namespace Split

variable {n w : ℕ} {a : Allocation} {s : Split}

/-- What the nodes carry, with the current allocation. -/
def carried (a : Allocation) (s : Split) : List (Key × ℕ) :=
  locked s.allNodeAllocations.flatten ++ locked s.currentNodeAllocation ++ scheduled a.avaxAddr s.current

/-- `n` nodes are to be completed before the last one, each with the weight `w`. -/
structure Inv (n w : ℕ) (a : Allocation) (s : Split) : Prop where
  count : s.allNodeAllocations.length ≤ n
  full : ∀ node ∈ s.allNodeAllocations, total (locked node) = w
  amount : s.currentNodeAmount = total (locked s.currentNodeAllocation) + total (scheduled a.avaxAddr s.current)
  room : s.allNodeAllocations.length < n → s.currentNodeAmount ≤ w

theorem total_nodes {nodes : List (List Allocation)} (h : ∀ node ∈ nodes, total (locked node) = w) :
    total (locked nodes.flatten) = nodes.length * w := by
  induction nodes with
  | nil => exact (Nat.zero_mul w).symm
  | cons node nodes ih =>
    have hnode := h node List.mem_cons_self
    have hrest := ih fun node' hnode' => h node' (List.mem_cons_of_mem _ hnode')
    rw [List.flatten_cons, locked_append, List.length_cons, Nat.add_mul, Nat.one_mul]
    unfold total at hnode hrest ⊢
    rw [weigh_append, hnode, hrest, Nat.add_comm]

theorem Inv.total_carried (h : Inv n w a s) :
    total (s.carried a) = s.allNodeAllocations.length * w + s.currentNodeAmount := by
  rw [h.amount, ← total_nodes h.full]
  unfold total carried
  rw [weigh_append, weigh_append, Nat.add_assoc]

/-- The innermost loop moves a part of the amount to the nodes. If nodes are left, the rest
fits into the current one. -/
theorem Inv.cut (locktime fuel amount : ℕ) (h : Inv n w a s) (hfuel : s.allNodeAllocations.length + fuel = n)
    (hbound : s.currentNodeAmount + amount < 2 ^ 64) :
    let r := Split.cut w a locktime fuel s amount
    Inv n w a r.1 ∧ (r.1.allNodeAllocations.length < n → r.1.currentNodeAmount + r.2 ≤ w) ∧
      r.1.currentNodeAmount + r.2 < 2 ^ 64 ∧
      ∀ f, weigh f (r.1.carried a) + f (a.avaxAddr, locktime) * r.2 =
        weigh f (s.carried a) + f (a.avaxAddr, locktime) * amount := by
  induction fuel generalizing s amount with
  | zero =>
    have hlast : ¬ s.allNodeAllocations.length < n := by omega
    exact ⟨h, fun hlt => absurd hlt hlast, hbound, fun _ => rfl⟩
  | succ fuel ih =>
    rw [Split.cut, Nat.mod_eq_of_lt hbound]
    split
    next hgt =>
      have hroom := h.room (by omega)
      -- neither subtraction wraps around
      have hadd : (w + 2 ^ 64 - s.currentNodeAmount) % 2 ^ 64 = w - s.currentNodeAmount := by omega
      have hleft : (amount + 2 ^ 64 - (w - s.currentNodeAmount)) % 2 ^ 64 = amount - (w - s.currentNodeAmount) := by
        omega
      dsimp only
      rw [hadd, hleft]
      set piece : LockedAmount := ⟨w - s.currentNodeAmount, locktime⟩
      set node := s.currentNodeAllocation ++ [{ s with current := s.current ++ [piece] }.currentAllocation a]
      have hnode : locked node =
          locked s.currentNodeAllocation ++ scheduled a.avaxAddr s.current ++
            [((a.avaxAddr, locktime), w - s.currentNodeAmount)] := by
        rw [locked_append, locked_singleton]
        change _ ++ scheduled a.avaxAddr (s.current ++ [piece]) = _
        rw [scheduled_append, List.append_assoc]
        rfl
      have hfull : total (locked node) = w := by
        have hamount := h.amount
        unfold total at hamount ⊢
        rw [hnode, weigh_append, weigh_append, weigh_cons, weigh_nil, Pi.one_apply]
        omega
      have hinv : Inv n w a ⟨s.allNodeAllocations ++ [node], [], 0, []⟩ := by
        refine ⟨?_, ?_, rfl, fun _ => Nat.zero_le w⟩
        · rw [List.length_append, List.length_singleton]
          omega
        · intro node' hmem
          rcases List.mem_append.mp hmem with hold | hnew
          · exact h.full node' hold
          · rw [List.mem_singleton.mp hnew]
            exact hfull
      have hfuel' : (s.allNodeAllocations ++ [node]).length + fuel = n := by
        rw [List.length_append, List.length_singleton]
        omega
      rcases ih (amount - (w - s.currentNodeAmount)) hinv hfuel' (by dsimp only; omega)
        with ⟨hinv', hfits, hbound', hcarries⟩
      refine ⟨hinv', hfits, hbound', fun f => (hcarries f).trans ?_⟩
      -- the piece went to the node
      have hcarried : carried a ⟨s.allNodeAllocations ++ [node], [], 0, []⟩ =
          s.carried a ++ [((a.avaxAddr, locktime), w - s.currentNodeAmount)] := by
        unfold carried
        rw [List.flatten_append, locked_append, List.flatten_singleton, hnode]
        simp [locked, scheduled]
      rw [hcarried, weigh_append, weigh_cons, weigh_nil, Nat.add_zero, Nat.add_assoc, ← Nat.mul_add]
      congr 2
      omega
    next hle => exact ⟨h, fun _ => by dsimp only; omega, hbound, fun _ => rfl⟩

theorem Inv.addUnlock (h : Inv n w a s) (unlock : LockedAmount)
    (hbound : s.currentNodeAmount + unlock.amount < 2 ^ 64) :
    Inv n w a (Split.addUnlock w a (n + 1) s unlock) ∧
      ∀ f, weigh f ((Split.addUnlock w a (n + 1) s unlock).carried a) =
        weigh f (s.carried a) + f (a.avaxAddr, unlock.locktime) * unlock.amount := by
  have hcount := h.count
  have hfuel : s.allNodeAllocations.length + (n + 1 - 1 - s.allNodeAllocations.length) = n := by omega
  rcases h.cut unlock.locktime _ unlock.amount hfuel hbound with ⟨hinv, hfits, hbound', hcarries⟩
  unfold Split.addUnlock
  dsimp only
  set r := Split.cut w a unlock.locktime (n + 1 - 1 - s.allNodeAllocations.length) s unlock.amount
  split
  next hzero =>
    refine ⟨hinv, fun f => ?_⟩
    rw [← hcarries f, hzero, Nat.mul_zero, Nat.add_zero]
  next =>
    rw [Nat.mod_eq_of_lt hbound']
    constructor
    · refine ⟨hinv.count, hinv.full, ?_, hfits⟩
      have hamount := hinv.amount
      unfold total at hamount ⊢
      rw [scheduled_append, weigh_append, hamount]
      simp [scheduled, weigh, Nat.add_assoc]
    · intro f
      rw [← hcarries f]
      unfold carried
      rw [scheduled_append, ← List.append_assoc, weigh_append]
      rfl

/-- The loop over a schedule. -/
theorem Inv.addUnlocks (h : Inv n w a s) (schedule : List LockedAmount)
    (hbound : total (s.carried a) + total (scheduled a.avaxAddr schedule) < 2 ^ 64) :
    Inv n w a (schedule.foldl (Split.addUnlock w a (n + 1)) s) ∧
      ∀ f, weigh f ((schedule.foldl (Split.addUnlock w a (n + 1)) s).carried a) =
        weigh f (s.carried a) + weigh f (scheduled a.avaxAddr schedule) := by
  induction schedule using List.reverseRecOn with
  | nil => exact ⟨h, fun _ => rfl⟩
  | append_singleton schedule unlock ih =>
    have hconcat : ∀ f, weigh f (scheduled a.avaxAddr (schedule ++ [unlock])) =
        weigh f (scheduled a.avaxAddr schedule) + f (a.avaxAddr, unlock.locktime) * unlock.amount := by
      intro f
      rw [scheduled_append, weigh_append]
      rfl
    have hlast := hconcat 1
    rw [Pi.one_apply, Nat.one_mul] at hlast
    unfold total at hbound ih
    rcases ih (by omega) with ⟨hinv, hweigh⟩
    have hcarried := hinv.total_carried.symm.trans (hweigh 1)
    rcases hinv.addUnlock unlock (by omega) with ⟨hinv', hweigh'⟩
    rw [List.foldl_concat]
    refine ⟨hinv', fun f => ?_⟩
    rw [hweigh' f, hweigh f, hconcat f, Nat.add_assoc]

/-- One allocation after the other, with what is carried before and after it. -/
theorem Inv.addAllocation (h : Inv n w a { s with current := [] })
    (hbound : total (carried a { s with current := [] }) + total (scheduled a.avaxAddr a.unlockSchedule) < 2 ^ 64)
    (b : Allocation) :
    Inv n w b { Split.addAllocation w (n + 1) s a with current := [] } ∧
      ∀ f, weigh f (carried b { Split.addAllocation w (n + 1) s a with current := [] }) =
        weigh f (carried a { s with current := [] }) + weigh f (scheduled a.avaxAddr a.unlockSchedule) := by
  rcases h.addUnlocks a.unlockSchedule hbound with ⟨hinv, hweigh⟩
  unfold Split.addAllocation
  dsimp only
  set s' := a.unlockSchedule.foldl (Split.addUnlock w a (n + 1)) { s with current := [] }
  split
  next =>
    -- the current allocation goes to the node
    have hnode : locked (s'.currentNodeAllocation ++ [s'.currentAllocation a]) =
        locked s'.currentNodeAllocation ++ scheduled a.avaxAddr s'.current := by
      rw [locked_append, locked_singleton]
      rfl
    constructor
    · refine ⟨hinv.count, hinv.full, ?_, hinv.room⟩
      rw [hinv.amount, hnode]
      exact (weigh_append 1 _ _).symm
    · intro f
      rw [← hweigh f]
      unfold carried
      rw [hnode]
      simp [scheduled]
  next hnone =>
    have hempty : s'.current = [] := List.eq_nil_of_length_eq_zero (by omega)
    have hamount := hinv.amount
    rw [hempty] at hamount
    refine ⟨⟨hinv.count, hinv.full, hamount, hinv.room⟩, fun f => ?_⟩
    rw [← hweigh f]
    unfold carried
    rw [hempty]
    rfl

end Split

/-- The nodes after all allocations: what is carried is what was configured. -/
theorem split_spec {n w : ℕ} (hbound : total (locked allocations) < 2 ^ 64) (a : Allocation) :
    let s : Split := { allocations.foldl (Split.addAllocation w (n + 1)) ⟨[], [], 0, []⟩ with current := [] }
    s.Inv n w a ∧ ∀ f, weigh f (s.carried a) = weigh f (locked allocations) := by
  induction allocations using List.reverseRecOn generalizing a with
  | nil => exact ⟨⟨Nat.zero_le n, by simp, rfl, fun _ => Nat.zero_le w⟩, fun _ => rfl⟩
  | append_singleton allocations x ih =>
    have hconcat : ∀ f, weigh f (locked (allocations ++ [x])) =
        weigh f (locked allocations) + weigh f (scheduled x.avaxAddr x.unlockSchedule) := by
      intro f
      rw [locked_append, locked_singleton, weigh_append]
    have hlast := hconcat 1
    unfold total at hbound ih
    rcases ih (by omega) x with ⟨hinv, hweigh⟩
    rcases hinv.addAllocation (by unfold total; rw [hweigh 1, ← hlast]; exact hbound) a with ⟨hinv', hweigh'⟩
    rw [List.foldl_concat]
    refine ⟨hinv', fun f => ?_⟩
    rw [hweigh' f, hweigh f, hconcat f]

/-- If there is at least one unit for each node, every node but the last gets the floor of the
mean and the last one gets the rest. -/
theorem splitAllocations_spec {n : ℕ} (hn : n ≠ 0) (hbound : total (locked allocations) < 2 ^ 64)
    (hle : n ≤ total (locked allocations)) :
    ∃ nodes last, splitAllocations allocations n = nodes ++ [last] ∧ nodes.length + 1 = n ∧
      (∀ node ∈ nodes, total (locked node) = total (locked allocations) / n) ∧
      total (locked allocations) / n ≤ total (locked last) ∧
      ∀ f, weigh f (locked (nodes ++ [last]).flatten) = weigh f (locked allocations) := by
  rcases Nat.exists_eq_succ_of_ne_zero hn with ⟨m, rfl⟩
  set w := total (locked allocations) / (m + 1)
  rcases split_spec (n := m) (w := w) hbound ⟨0, 0, 0, []⟩ with ⟨hinv, hweigh⟩
  set s := allocations.foldl (Split.addAllocation w (m + 1)) ⟨[], [], 0, []⟩
  have htotal : total (locked allocations) = s.allNodeAllocations.length * w + s.currentNodeAmount := by
    rw [← hinv.total_carried]
    exact (hweigh 1).symm
  have hcount := hinv.count
  have hw : 1 ≤ w := (Nat.one_le_div_iff (Nat.succ_pos m)).mpr hle
  have hfloor : (m + 1) * w ≤ total (locked allocations) := Nat.mul_div_le _ _
  -- the last node would get less than its part if a node before it were missing
  have hall : s.allNodeAllocations.length = m := by
    rcases Nat.lt_or_ge s.allNodeAllocations.length m with hlt | hge
    · have hroom : s.currentNodeAmount ≤ w := hinv.room hlt
      have hmul : (s.allNodeAllocations.length + 1) * w ≤ m * w := Nat.mul_le_mul_right w hlt
      rw [Nat.add_mul] at hmul hfloor
      omega
    · exact le_antisymm hcount hge
  have hlast : s.currentNodeAmount = total (locked s.currentNodeAllocation) := hinv.amount
  refine ⟨s.allNodeAllocations, s.currentNodeAllocation, ?_, by rw [hall], hinv.full, ?_, ?_⟩
  · rw [splitAllocations, if_neg hn, sumLocked_eq hbound]
  · rw [hall] at htotal
    rw [Nat.add_mul] at hfloor
    omega
  · intro f
    rw [← hweigh f, List.flatten_append, List.flatten_singleton, locked_append]
    exact (congrArg (weigh f) (List.append_nil _)).symm

end Titan.Genesis
