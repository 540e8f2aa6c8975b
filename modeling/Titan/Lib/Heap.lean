import Mathlib

/-!
# Titan.Lib.Heap — binary heaps in a list whose elements note their position

The heap of Go's `container/heap`: a list seen as a complete binary tree, with
`up` and `down` moving one element along a path by swaps. A swap also tells the
two elements where they are (`place`), so that an element can be found and
removed later.

Everything the operations do is a sequence of swaps, so what swaps keep (the
elements up to their noted position, the notes themselves, the places outside
the range worked on) is proved once, for `Swaps`. The order is tracked through
one place at which it may fail.
-/

namespace Titan.Lib

/-- The order of a heap, and how an element notes its position. -/
structure HeapOps (α : Type) where
  less : α → α → Bool
  place : ℕ → α → α

namespace HeapOps

variable {α : Type} (H : HeapOps α)

/-- `less` is a strict weak order that does not see the noted positions. -/
structure Lawful : Prop where
  asymm : ∀ {a b}, H.less a b = true → H.less b a = false
  trans : ∀ {a b c}, H.less b a = false → H.less c b = false → H.less c a = false
  place_left : ∀ i a b, H.less (H.place i a) b = H.less a b
  place_right : ∀ i a b, H.less a (H.place i b) = H.less a b

/-! ## Operations -/

def swap (l : List α) (i j : ℕ) : List α :=
  match l[i]?, l[j]? with
  | some a, some b => (l.set i (H.place i b)).set j (H.place j a)
  | _, _ => l

def lessAt (l : List α) (i j : ℕ) : Bool :=
  match l[i]?, l[j]? with
  | some a, some b => H.less a b
  | _, _ => false

def parent (i : ℕ) : ℕ := (i - 1) / 2

/-- Move the element at `j` towards the root. -/
def up : ℕ → List α → ℕ → List α
  | 0, l, _ => l
  | fuel + 1, l, j =>
    if parent j = j ∨ H.lessAt l j (parent j) = false then l
    else up fuel (H.swap l (parent j) j) (parent j)

/-- The smaller child of `i` among the first `n` places. -/
def smallerChild (l : List α) (i n : ℕ) : ℕ :=
  if 2 * i + 2 < n ∧ H.lessAt l (2 * i + 2) (2 * i + 1) = true then 2 * i + 2 else 2 * i + 1

/-- Move the element at `i` away from the root, within the first `n` places; returns
where it ends up. -/
def down : ℕ → List α → ℕ → ℕ → List α × ℕ
  | 0, l, i, _ => (l, i)
  | fuel + 1, l, i, n =>
    if n ≤ 2 * i + 1 ∨ H.lessAt l (H.smallerChild l i n) i = false then (l, i)
    else down fuel (H.swap l i (H.smallerChild l i n)) (H.smallerChild l i n) n

def push (l : List α) (a : α) : List α := H.up (l.length + 1) (l ++ [a]) l.length

/-- Bring the element at `i` to the end, with the others a heap again. -/
def toEnd (l : List α) (i : ℕ) : List α :=
  let n := l.length - 1
  if n = i then l
  else
    let r := H.down l.length (H.swap l i n) i n
    if i < r.2 then r.1 else H.up l.length r.1 i

/-- Remove the element at `i`: what is left, and the element. -/
def remove (l : List α) (i : ℕ) : List α × Option α :=
  ((H.toEnd l i).dropLast, (H.toEnd l i).getLast?)

/-! ## Swaps -/

@[simp] theorem length_swap (l : List α) (i j : ℕ) : (H.swap l i j).length = l.length := by
  unfold swap
  split <;> simp

variable {i j : ℕ} {l : List α}

theorem getElem?_swap (hi : i < l.length) (hj : j < l.length) (hij : i ≠ j) (k : ℕ) :
    (H.swap l i j)[k]? =
      if k = i then l[j]?.map (H.place i) else if k = j then l[i]?.map (H.place j) else l[k]? := by
  unfold swap
  rw [List.getElem?_eq_getElem hi, List.getElem?_eq_getElem hj]
  by_cases hki : k = i
  · subst hki
    rw [if_pos rfl, List.getElem?_set_ne (Ne.symm hij), List.getElem?_set_self hi]
    rfl
  · rw [if_neg hki]
    by_cases hkj : k = j
    · subst hkj
      rw [if_pos rfl, List.getElem?_set_self (by simpa using hj)]
      rfl
    · rw [if_neg hkj, List.getElem?_set_ne (Ne.symm hkj), List.getElem?_set_ne (Ne.symm hki)]

/-- The second list comes from the first by swaps of different places below `n`. -/
inductive Swaps (n : ℕ) : List α → List α → Prop
  | refl (l : List α) : Swaps n l l
  | step {l l' : List α} {i j : ℕ} (hi : i < n) (hj : j < n) (hij : i ≠ j) (hn : n ≤ l.length)
      (h : Swaps n (H.swap l i j) l') : Swaps n l l'

namespace Swaps

variable {H} {n : ℕ} {l l' l'' : List α}

variable (h : H.Swaps n l l')
include h

theorem length_eq : l'.length = l.length := by
  induction h with
  | refl => rfl
  | step _ _ _ _ _ ih => rw [ih, length_swap]

theorem trans (h' : H.Swaps n l' l'') : H.Swaps n l l'' := by
  induction h with
  | refl => exact h'
  | step hi hj hij hn _ ih => exact .step hi hj hij hn (ih h')

theorem mono {m : ℕ} (hnm : n ≤ m) (hm : m ≤ l.length) : H.Swaps m l l' := by
  induction h with
  | refl => exact .refl _
  | step hi hj hij _ _ ih =>
    exact .step (by omega) (by omega) hij hm (ih (by rwa [length_swap]))

/-- Places from `n` on are not touched. -/
theorem getElem?_eq {k : ℕ} (hk : n ≤ k) : l'[k]? = l[k]? := by
  induction h with
  | refl => rfl
  | step hi hj hij hn _ ih =>
    rw [ih, getElem?_swap H (by omega) (by omega) hij, if_neg (by omega), if_neg (by omega)]

/-- The notes stay right. -/
theorem placed {Note : ℕ → α → Prop} (hnote : ∀ i a, Note i (H.place i a))
    (hl : ∀ i a, l[i]? = some a → Note i a) : ∀ i a, l'[i]? = some a → Note i a := by
  induction h with
  | refl => exact hl
  | step hi hj hij hn _ ih =>
    apply ih
    intro k a hk
    rw [getElem?_swap H (by omega) (by omega) hij] at hk
    split at hk
    next heq =>
      rcases Option.map_eq_some_iff.mp hk with ⟨b, -, rfl⟩
      exact heq ▸ hnote k b
    next =>
      split at hk
      next heq =>
        rcases Option.map_eq_some_iff.mp hk with ⟨b, -, rfl⟩
        exact heq ▸ hnote k b
      next => exact hl k a hk

/-- The elements stay the same, up to the position they note. -/
theorem perm {β : Type} {content : α → β} (hcontent : ∀ i a, content (H.place i a) = content a) :
    (l'.map content).Perm (l.map content) := by
  induction h with
  | refl => exact .refl _
  | @step l l' i j hi hj hij hn _ ih =>
    apply ih.trans
    have hi' : i < (l.map content).length := by rw [List.length_map]; omega
    have hj' : j < (l.map content).length := by rw [List.length_map]; omega
    have hmap : (H.swap l i j).map content =
        ((l.map content).set i (l.map content)[j]).set j (l.map content)[i] := by
      rw [List.length_map] at hi' hj'
      unfold swap
      rw [List.getElem?_eq_getElem hi', List.getElem?_eq_getElem hj']
      simp only [List.map_set, hcontent, List.getElem_map]
    rw [hmap]
    exact List.set_set_perm hi' hj'

end Swaps

theorem parent_lt (h : parent j ≠ j) : parent j < j := by
  unfold parent at *
  omega

theorem swaps_up (fuel : ℕ) {j : ℕ} (hj : j < l.length) :
    H.Swaps (j + 1) l (H.up fuel l j) := by
  induction fuel generalizing l j with
  | zero => exact .refl _
  | succ fuel ih =>
    unfold up
    split
    next => exact .refl _
    next hgo =>
      have hlt := parent_lt (fun h => hgo (.inl h))
      have hrest := @ih (H.swap l (parent j) j) (parent j) (by rw [length_swap]; omega)
      exact .step (by omega) (Nat.lt_succ_self j) (by omega) hj
        (hrest.mono (by omega) (by rw [length_swap]; omega))

theorem smallerChild_bounds {n : ℕ} (h : 2 * i + 1 < n) :
    i < H.smallerChild l i n ∧ H.smallerChild l i n < n ∧ parent (H.smallerChild l i n) = i := by
  unfold smallerChild parent
  split <;> omega

theorem swaps_down (fuel : ℕ) {n : ℕ} (hn : n ≤ l.length) :
    H.Swaps n l (H.down fuel l i n).1 := by
  induction fuel generalizing l i with
  | zero => exact .refl _
  | succ fuel ih =>
    unfold down
    split
    next => exact .refl _
    next hgo =>
      have hb := H.smallerChild_bounds (l := l) (i := i) (n := n)
        (Nat.not_le.mp (fun h => hgo (.inl h)))
      exact .step (by omega) hb.2.1 (by omega) hn (ih (by rwa [length_swap]))

/-! ## Order -/

variable {H}

/-- The element at `i` does not come after the one at `j`. -/
def Le (H : HeapOps α) (l : List α) (i j : ℕ) : Prop :=
  ∀ a b, l[i]? = some a → l[j]? = some b → H.less b a = false

/-- Every element among the first `n` comes after its parent. -/
def Ordered (H : HeapOps α) (l : List α) (n : ℕ) : Prop :=
  ∀ k, 0 < k → k < n → H.Le l (parent k) k

section Order

variable (hH : H.Lawful) {l : List α} {n : ℕ}
include hH

omit l n in
theorem Le.refl (l : List α) (i : ℕ) : H.Le l i i := by
  intro a b ha hb
  rw [Option.some.inj (ha.symm.trans hb)]
  cases hless : H.less b b with
  | false => rfl
  | true => exact absurd (hH.asymm hless) (by simp [hless])

theorem Le.trans {k : ℕ} (h : H.Le l i j) (h' : H.Le l j k) (hj : j < l.length) : H.Le l i k := by
  intro a c ha hc
  have hb := List.getElem?_eq_getElem hj
  exact hH.trans (h a _ ha hb) (h' _ c hb hc)

theorem le_of_less (h : H.lessAt l i j = true) : H.Le l i j := by
  intro a b ha hb
  unfold lessAt at h
  rw [ha, hb] at h
  exact hH.asymm h

omit hH in
theorem le_of_not_less (h : H.lessAt l j i = false) : H.Le l i j := by
  intro a b ha hb
  unfold lessAt at h
  rw [ha, hb] at h
  exact h

/-- The order after a swap is the order between the places the elements came from. -/
theorem le_swap {a b : ℕ} (hi : i < l.length) (hj : j < l.length) (hij : i ≠ j)
    (h : H.Le l (Equiv.swap i j a) (Equiv.swap i j b)) : H.Le (H.swap l i j) a b := by
  have hget : ∀ k x, (H.swap l i j)[k]? = some x → ∃ y, l[Equiv.swap i j k]? = some y ∧
      (∀ z, H.less z x = H.less z y) ∧ ∀ z, H.less x z = H.less y z := by
    intro k x hx
    rw [getElem?_swap H hi hj hij] at hx
    rw [Equiv.swap_apply_def]
    split at hx
    next hki =>
      rcases Option.map_eq_some_iff.mp hx with ⟨y, hy, rfl⟩
      rw [if_pos hki]
      exact ⟨y, hy, fun z => hH.place_right _ z y, fun z => hH.place_left _ y z⟩
    next hki =>
      rw [if_neg hki]
      split at hx
      next hkj =>
        rcases Option.map_eq_some_iff.mp hx with ⟨y, hy, rfl⟩
        rw [if_pos hkj]
        exact ⟨y, hy, fun z => hH.place_right _ z y, fun z => hH.place_left _ y z⟩
      next hkj =>
        rw [if_neg hkj]
        exact ⟨x, hx, fun _ => rfl, fun _ => rfl⟩
  intro x y hx hy
  rcases hget a x hx with ⟨x', hx', hless, -⟩
  rcases hget b y hy with ⟨y', hy', -, hless'⟩
  rw [hless, hless']
  exact h x' y' hx' hy'

/-- The first element comes before all others. -/
theorem Ordered.root_le (h : H.Ordered l n) (hn : n ≤ l.length) {k : ℕ} (hk : k < n) :
    H.Le l 0 k := by
  induction k using Nat.strongRecOn with
  | ind k ih =>
    by_cases hz : k = 0
    · subst hz
      exact Le.refl hH l 0
    · have hlt : parent k < k := by
        unfold parent
        omega
      exact (ih (parent k) hlt (by omega)).trans hH (h k (by omega) hk) (by omega)

/-- The order holds except that the element at `j` may come before its parent. -/
structure UpOrder (H : HeapOps α) (l : List α) (n j : ℕ) : Prop where
  except : ∀ k, 0 < k → k < n → k ≠ j → H.Le l (parent k) k
  grand : 0 < j → ∀ c, 0 < c → c < n → parent c = j → H.Le l (parent j) c

omit hH in
theorem UpOrder.ordered (h : H.UpOrder l n j) (habove : 0 < j → j < n → H.Le l (parent j) j) :
    H.Ordered l n := by
  intro k hk hkn
  by_cases hkj : k = j
  · subst hkj
    exact habove hk hkn
  · exact h.except k hk hkn hkj

theorem UpOrder.swap (h : H.UpOrder l n j) (hn : n ≤ l.length) (hj : j < n) (hroot : parent j ≠ j)
    (hless : H.lessAt l j (parent j) = true) : H.UpOrder (H.swap l (parent j) j) n (parent j) := by
  have hlt := parent_lt hroot
  have hmove {a b : ℕ} := le_swap (a := a) (b := b) hH (i := parent j) (j := j) (l := l) (by omega) (by omega) (by omega)
  have hswapped : H.Le l j (parent j) := le_of_less hH hless
  constructor
  · intro k hk hkn hkp
    apply hmove
    by_cases hkj : k = j
    · subst hkj
      rw [Equiv.swap_apply_left, Equiv.swap_apply_right]
      exact hswapped
    · rw [Equiv.swap_apply_of_ne_of_ne hkp hkj]
      by_cases hpp : parent k = parent j
      · -- the sibling comes after the old parent, which comes after the new one
        have hsib := h.except k hk hkn hkj
        rw [hpp] at hsib ⊢
        rw [Equiv.swap_apply_left]
        exact hswapped.trans hH hsib (by omega)
      · by_cases hpj : parent k = j
        · rw [hpj, Equiv.swap_apply_right]
          exact h.grand (by omega) k hk hkn hpj
        · rw [Equiv.swap_apply_of_ne_of_ne hpp hpj]
          exact h.except k hk hkn hkj
  · intro hp c hc hcn hcp
    have hpp : parent (parent j) < parent j := parent_lt (by unfold parent at *; omega)
    have habove := h.except (parent j) hp (by omega) (by omega)
    apply hmove
    rw [Equiv.swap_apply_of_ne_of_ne (by omega) (by omega)]
    by_cases hcj : c = j
    · subst hcj
      rw [Equiv.swap_apply_right]
      exact habove
    · have hcp' : c ≠ parent j := by
        intro heq
        rw [heq] at hcp
        omega
      rw [Equiv.swap_apply_of_ne_of_ne hcp' hcj]
      have hbelow := h.except c hc hcn hcj
      rw [hcp] at hbelow
      exact habove.trans hH hbelow (by omega)

theorem UpOrder.up {fuel : ℕ} (h : H.UpOrder l n j) (hn : n ≤ l.length) (hj : j < n)
    (hfuel : j < fuel) : H.Ordered (H.up fuel l j) n := by
  induction fuel generalizing l j with
  | zero => omega
  | succ fuel ih =>
    unfold HeapOps.up
    split
    next hstop =>
      refine h.ordered fun hj₀ _ => ?_
      rcases hstop with hroot | hless
      · unfold parent at hroot
        omega
      · exact le_of_not_less hless
    next hgo =>
      have hroot : parent j ≠ j := fun heq => hgo (.inl heq)
      have hless : H.lessAt l j (parent j) = true := by
        rw [← Bool.not_eq_false]
        exact fun heq => hgo (.inr heq)
      have hlt := parent_lt hroot
      exact ih (h.swap hH hn hj hroot hless) (by rwa [length_swap]) (by omega) (by omega)

/-- The order holds except around `i`. -/
structure HoleOrder (H : HeapOps α) (l : List α) (n i : ℕ) : Prop where
  except : ∀ k, 0 < k → k < n → k ≠ i → parent k ≠ i → H.Le l (parent k) k
  grand : 0 < i → ∀ c, 0 < c → c < n → parent c = i → H.Le l (parent i) c

theorem smallerChild_le {c : ℕ} (hc : 0 < c) (hcn : c < n) (hci : parent c = i) :
    H.Le l (H.smallerChild l i n) c := by
  have hcases : c = 2 * i + 1 ∨ c = 2 * i + 2 := by
    unfold parent at hci
    omega
  unfold smallerChild
  rcases hcases with rfl | rfl
  · split
    next h => exact le_of_less hH h.2
    next => exact Le.refl hH l _
  · split
    next => exact Le.refl hH l _
    next h =>
      apply le_of_not_less
      rw [← Bool.not_eq_true]
      exact fun heq => h ⟨hcn, heq⟩

/-- One step down: the order now fails at most at the new place, and not towards its
parent. -/
theorem HoleOrder.swap (h : H.HoleOrder l n i) (hn : n ≤ l.length) (hi : 2 * i + 1 < n)
    (hless : H.lessAt l (H.smallerChild l i n) i = true) :
    H.HoleOrder (H.swap l i (H.smallerChild l i n)) n (H.smallerChild l i n) ∧
      ∀ k, 0 < k → k < n → parent k ≠ H.smallerChild l i n →
        H.Le (H.swap l i (H.smallerChild l i n)) (parent k) k := by
  have hb := H.smallerChild_bounds (l := l) hi
  have hsmaller : ∀ c, 0 < c → c < n → parent c = i → H.Le l (H.smallerChild l i n) c :=
    fun c hc hcn hci => smallerChild_le hH hc hcn hci
  generalize H.smallerChild l i n = j at *
  have hmove {a b : ℕ} := le_swap (a := a) (b := b) hH (i := i) (j := j) (l := l) (by omega) (by omega) (by omega)
  have hedges : ∀ k, 0 < k → k < n → parent k ≠ j → H.Le (H.swap l i j) (parent k) k := by
    intro k hk hkn hkj
    apply hmove
    by_cases hki : k = i
    · subst hki
      have hpk : parent k < k := by unfold parent; omega
      rw [Equiv.swap_apply_of_ne_of_ne (by omega) hkj, Equiv.swap_apply_left]
      exact h.grand hk j (by omega) hb.2.1 hb.2.2
    · by_cases hpi : parent k = i
      · rw [hpi, Equiv.swap_apply_left]
        by_cases hkj' : k = j
        · rw [hkj', Equiv.swap_apply_right]
          exact le_of_less hH hless
        · rw [Equiv.swap_apply_of_ne_of_ne hki hkj']
          exact hsmaller k hk hkn hpi
      · have hkj' : k ≠ j := by
          intro heq
          rw [heq] at hpi
          exact hpi hb.2.2
        rw [Equiv.swap_apply_of_ne_of_ne hpi hkj, Equiv.swap_apply_of_ne_of_ne hki hkj']
        exact h.except k hk hkn hki hpi
  refine ⟨⟨fun k hk hkn _ hkj => hedges k hk hkn hkj, ?_⟩, hedges⟩
  intro _ c hc hcn hcj
  have hjc : j < c := by
    unfold parent at hcj
    omega
  apply hmove
  rw [hb.2.2, Equiv.swap_apply_left, Equiv.swap_apply_of_ne_of_ne (by omega) (by omega), ← hcj]
  exact h.except c hc hcn (by omega) (by omega)

/-- Either the element stays where it is and may yet have to go up, or it went down and the
order holds. -/
theorem HoleOrder.down {fuel : ℕ} (h : H.HoleOrder l n i) (hn : n ≤ l.length) (hfuel : n ≤ i + fuel) :
    H.down fuel l i n = (l, i) ∧ H.UpOrder l n i ∨
      i < (H.down fuel l i n).2 ∧ H.Ordered (H.down fuel l i n).1 n := by
  induction fuel generalizing l i with
  | zero =>
    refine .inl ⟨rfl, fun k hk hkn hki => h.except k hk hkn hki ?_, h.grand⟩
    unfold parent
    omega
  | succ fuel ih =>
    unfold HeapOps.down
    split
    next hstop =>
      refine .inl ⟨rfl, fun k hk hkn hki => ?_, h.grand⟩
      by_cases hpi : parent k = i
      · rcases hstop with hleaf | hless
        · unfold parent at hpi
          omega
        · have hb := H.smallerChild_bounds (l := l) (i := i) (n := n)
            (by unfold parent at hpi; omega)
          rw [hpi]
          exact (le_of_not_less hless).trans hH (smallerChild_le hH hk hkn hpi) (by omega)
      · exact h.except k hk hkn hki hpi
    next hgo =>
      have hi : 2 * i + 1 < n := Nat.not_le.mp (fun heq => hgo (.inl heq))
      have hless : H.lessAt l (H.smallerChild l i n) i = true := by
        rw [← Bool.not_eq_false]
        exact fun heq => hgo (.inr heq)
      have hb := H.smallerChild_bounds (l := l) hi
      rcases h.swap hH hn hi hless with ⟨hnext, hedges⟩
      rcases ih hnext (by rwa [length_swap]) (by omega) with ⟨hstay, hup⟩ | ⟨hlt, hordered⟩
      · rw [hstay]
        exact .inr ⟨hb.1, hup.ordered fun hj hjn => hedges _ hj hjn (by omega)⟩
      · exact .inr ⟨Nat.lt_trans hb.1 hlt, hordered⟩

/-! ## Adding and removing -/

omit hH in
theorem swaps_toEnd (hi : i < l.length) : H.Swaps l.length l (H.toEnd l i) := by
  unfold toEnd
  dsimp only
  split
  next => exact .refl _
  next hne =>
    apply Swaps.step hi (j := l.length - 1) (by omega) (by omega) (Nat.le_refl _)
    have hdown := H.swaps_down l.length (l := H.swap l i (l.length - 1)) (i := i)
      (n := l.length - 1) (by rw [length_swap]; omega)
    have hmono := hdown.mono (m := l.length) (by omega) (Nat.le_of_eq (length_swap H _ _ _).symm)
    split
    next => exact hmono
    next =>
      have hlen := hdown.length_eq
      rw [length_swap] at hlen
      apply hmono.trans
      exact (H.swaps_up l.length (by omega)).mono (by omega) (by omega)

omit hH in
/-- The element brought to the end is the one asked for. -/
theorem getElem?_toEnd {β : Type} {content : α → β}
    (hcontent : ∀ i a, content (H.place i a) = content a) (hi : i < l.length) :
    (H.toEnd l i)[l.length - 1]?.map content = l[i]?.map content := by
  unfold toEnd
  dsimp only
  split
  next heq => rw [heq]
  next hne =>
    have hlast : (H.swap l i (l.length - 1))[l.length - 1]?.map content = l[i]?.map content := by
      rw [getElem?_swap H hi (by omega) (by omega), if_neg (by omega), if_pos rfl, Option.map_map]
      congr 1
      funext a
      exact hcontent _ a
    have hdown := H.swaps_down l.length (l := H.swap l i (l.length - 1)) (i := i)
      (n := l.length - 1) (by rw [length_swap]; omega)
    have hlen := hdown.length_eq
    rw [length_swap] at hlen
    split
    next => rw [hdown.getElem?_eq (Nat.le_refl _), hlast]
    next =>
      rw [(H.swaps_up l.length (by omega)).getElem?_eq (by omega), hdown.getElem?_eq (Nat.le_refl _),
        hlast]

theorem ordered_toEnd (hl : H.Ordered l l.length) (hi : i < l.length) :
    H.Ordered (H.toEnd l i) (l.length - 1) := by
  unfold toEnd
  dsimp only
  split
  next => exact fun k hk hkn => hl k hk (by omega)
  next hne =>
    -- the old last element fills the hole
    have hmove {a b : ℕ} := le_swap (a := a) (b := b) hH hi (j := l.length - 1) (by omega) (by omega)
    have hhole : H.HoleOrder (H.swap l i (l.length - 1)) (l.length - 1) i := by
      constructor
      · intro k hk hkn hki hpi
        have hlt : parent k < k := by unfold parent; omega
        apply hmove
        rw [Equiv.swap_apply_of_ne_of_ne hpi (by omega), Equiv.swap_apply_of_ne_of_ne hki (by omega)]
        exact hl k hk (by omega)
      · intro hi0 c hc hcn hci
        have hlt : parent i < i := by unfold parent; omega
        have hci' : i < c := by unfold parent at hci; omega
        apply hmove
        rw [Equiv.swap_apply_of_ne_of_ne (by omega) (by omega), Equiv.swap_apply_of_ne_of_ne (by omega) (by omega)]
        have hbelow := hl c hc (by omega)
        rw [hci] at hbelow
        exact (hl i hi0 hi).trans hH hbelow hi
    have hlen : l.length - 1 ≤ (H.swap l i (l.length - 1)).length := by
      rw [length_swap]
      omega
    rcases hhole.down hH hlen (show l.length - 1 ≤ i + l.length by omega) with
      ⟨hstay, hup⟩ | ⟨hlt, hordered⟩
    · rw [hstay, if_neg (Nat.lt_irrefl i)]
      exact hup.up hH hlen (by omega) (by omega)
    · rw [if_pos hlt]
      exact hordered

/-- A heap with correct notes. -/
structure Heap (H : HeapOps α) (Note : ℕ → α → Prop) (l : List α) : Prop where
  ordered : H.Ordered l l.length
  placed : ∀ i a, l[i]? = some a → Note i a

variable {Note : ℕ → α → Prop} (hnote : ∀ i a, Note i (H.place i a)) {β : Type} {content : α → β}
  (hcontent : ∀ i a, content (H.place i a) = content a)
include hnote hcontent

theorem Heap.push (h : H.Heap Note l) {a : α} (ha : Note l.length a) :
    H.Heap Note (H.push l a) ∧ ((H.push l a).map content).Perm (content a :: l.map content) := by
  have hlen : (l ++ [a]).length = l.length + 1 := by simp
  have hswaps := H.swaps_up (l.length + 1) (l := l ++ [a]) (j := l.length) (by omega)
  have hget : ∀ k, k < l.length → (l ++ [a])[k]? = l[k]? := fun k hk =>
    List.getElem?_append_left hk
  constructor
  · constructor
    · unfold HeapOps.push
      rw [hswaps.length_eq, hlen]
      apply UpOrder.up hH ?_ (by omega) (by omega) (by omega)
      constructor
      · intro k hk hkn hkl x y hx hy
        have hlt : parent k < k := by unfold parent; omega
        rw [hget _ (by omega)] at hx hy
        exact h.ordered k hk (by omega) x y hx hy
      · intro _ c _ hcn hcl
        unfold parent at hcl
        omega
    · apply hswaps.placed hnote
      intro i b hb
      by_cases hil : i < l.length
      · rw [hget i hil] at hb
        exact h.placed i b hb
      · have hlast : i = l.length := by
          have := (List.getElem?_eq_some_iff.mp hb).1
          omega
        subst hlast
        rw [List.getElem?_concat_length] at hb
        rw [← Option.some.inj hb]
        exact ha
  · have hperm := hswaps.perm hcontent
    rw [List.map_append] at hperm
    exact hperm.trans (List.perm_append_comm)

theorem Heap.remove (h : H.Heap Note l) {a : α} (ha : l[i]? = some a) :
    H.Heap Note (H.remove l i).1 ∧
      (content a :: (H.remove l i).1.map content).Perm (l.map content) ∧
      ∃ b, (H.remove l i).2 = some b ∧ content b = content a := by
  have hi := (List.getElem?_eq_some_iff.mp ha).1
  have hswaps := swaps_toEnd (H := H) hi
  have hlast := getElem?_toEnd hcontent hi
  have hordered := ordered_toEnd hH h.ordered hi
  have hplaced := hswaps.placed hnote h.placed
  have hperm := hswaps.perm hcontent
  have hlen := hswaps.length_eq
  unfold HeapOps.remove
  generalize H.toEnd l i = l' at *
  have hne : l' ≠ [] := by
    rintro rfl
    simp at hlen
    omega
  have hsplit := List.dropLast_append_getLast hne
  have hgetLast : l'[l.length - 1]? = some (l'.getLast hne) := by
    rw [List.getLast_eq_getElem, ← List.getElem?_eq_getElem, hlen]
  rw [hgetLast, ha] at hlast
  have hcontentLast : content (l'.getLast hne) = content a := Option.some.inj hlast
  have hdrop : l'.dropLast.length = l.length - 1 := by simp [hlen]
  have hget : ∀ (k : ℕ) x, l'.dropLast[k]? = some x → l'[k]? = some x := by
    intro k x hx
    have hk := (List.getElem?_eq_some_iff.mp hx).1
    rw [← hsplit, List.getElem?_append_left hk]
    exact hx
  refine ⟨⟨?_, ?_⟩, ?_, l'.getLast hne, List.getLast?_eq_some_getLast hne, hcontentLast⟩
  · intro k hk hkn x y hx hy
    exact hordered k hk (hdrop ▸ hkn) x y (hget _ x hx) (hget _ y hy)
  · intro k x hx
    exact hplaced k x (hget k x hx)
  · rw [← hsplit, List.map_append, List.map_singleton, hcontentLast] at hperm
    exact (List.perm_append_singleton _ _).symm.trans hperm

end Order

end HeapOps

end Titan.Lib
