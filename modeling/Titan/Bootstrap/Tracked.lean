import Titan.Bootstrap.Storage

/-!
# Titan.Bootstrap.Tracked — the heights an interval tree tracks

A tree is kept `Separate`: its intervals do not touch. `Add` and `Remove` keep it so and
add and remove one height. What they write makes the intervals of the database the ones
of the tree.
-/

namespace Titan.Bootstrap

open Lib
open PChain (ID GoMap)

/-- Intervals between which at least one height is missing. -/
structure Separate (m : GoMap ℕ ℕ) : Prop where
  ordered : ∀ {u l}, m.lookup u = some l → l ≤ u
  apart : ∀ {u l u' l'}, m.lookup u = some l → m.lookup u' = some l' → u < u' → u + 1 < l'
  bounded : ∀ {u l}, m.lookup u = some l → u ≤ maxUint64

/-- The height is in one of the intervals. -/
def Covers (m : GoMap ℕ ℕ) (height : ℕ) : Prop := ∃ u l, m.lookup u = some l ∧ l ≤ height ∧ height ≤ u

section Trees

variable {m m' : GoMap ℕ ℕ} {height : ℕ}

theorem Separate.congr (h : Separate m) (heq : ∀ u, m.lookup u = m'.lookup u) : Separate m' where
  ordered hu := h.ordered ((heq _).trans hu)
  apart hu hu' := h.apart ((heq _).trans hu) ((heq _).trans hu')
  bounded hu := h.bounded ((heq _).trans hu)

variable {u l : ℕ}

/-- An interval that starts right above a height does not leave room for one with that height. -/
theorem Separate.not_covers_pred (h : Separate m) (hu : m.lookup u = some l) (hl : 0 < l) :
    ¬ Covers m (l - 1) := by
  rintro ⟨u', l', hu', hl', hle⟩
  have hordered := h.ordered hu
  rcases lt_trichotomy u u' with hlt | rfl | hlt
  · have := h.apart hu hu' hlt
    omega
  · rw [hu] at hu'
    cases hu'
    omega
  · have := h.apart hu' hu hlt
    omega

theorem Separate.le_of_covers (h : Separate m) (hcovers : Covers m height) : height ≤ maxUint64 := by
  rcases hcovers with ⟨u, l, hu, -, hle⟩
  exact hle.trans (h.bounded hu)

/-- The interval of a height is the nearest one above it. -/
theorem ascend_of_covers (h : Separate m) (hcovers : Covers m height) :
    ∃ e, ceil m height = some e ∧ m.lookup e.1 = some e.2 ∧ e.2 ≤ height ∧ height ≤ e.1 := by
  rcases hcovers with ⟨u, l, hu, hl, hle⟩
  rcases hceil : ceil m height with _ | e
  · have := ceil_eq_none.mp hceil u l hu
    omega
  · rcases ceil_eq_some hceil with ⟨he, hheight, hleast⟩
    refine ⟨e, rfl, he, ?_, hheight⟩
    rcases (hleast u l hu hle).lt_or_eq with hlt | heq
    · -- then the interval of the height would start above it
      have := h.apart he hu hlt
      omega
    · rw [heq, hu] at he
      cases he
      exact hl

theorem contains_iff {t : Tree} (h : Separate t.knownHeights) :
    t.contains height = true ↔ Covers t.knownHeights height := by
  unfold Tree.contains Tree.ascend
  constructor
  · intro hcontains
    rcases hceil : ceil t.knownHeights height with _ | e
    · rw [hceil] at hcontains
      cases hcontains
    · rw [hceil] at hcontains
      rcases of_decide_eq_true hcontains with ⟨hl, hu⟩
      exact ⟨e.1, e.2, (ceil_eq_some hceil).1, hl, hu⟩
  · intro hcovers
    rcases ascend_of_covers h hcovers with ⟨e, hceil, -, hl, hu⟩
    rw [hceil]
    exact decide_eq_true ⟨hl, hu⟩

/-! ## Adding a height -/

/-- What adding a height does to the intervals. -/
structure Adds (m m' : GoMap ℕ ℕ) (height : ℕ) : Prop where
  separate : Separate m'
  covers : ∀ x, Covers m' x ↔ Covers m x ∨ x = height
  /-- An interval is an old one, or it starts at the height or where an old one starts. -/
  lower : ∀ {u l}, m'.lookup u = some l → l ≠ height + 1 ∧ (l = height ∨ ∃ u', m.lookup u' = some l)

section Join

variable {U L : ℕ}

/-- The new interval `[L, U]` of an untracked height: it takes in the interval that starts
right above the height, if there is one, and the one that ends right below. -/
structure Joins (m m' : GoMap ℕ ℕ) (height U L : ℕ) : Prop where
  separate : Separate m
  bounded : height ≤ maxUint64
  outside : ¬ Covers m height
  upper : (U = height ∧ ∀ u, m.lookup u ≠ some (height + 1)) ∨ m.lookup U = some (height + 1)
  lower : (L = height ∧ ∀ u l, m.lookup u = some l → u + 1 ≠ height) ∨
    ∃ u, u + 1 = height ∧ m.lookup u = some L
  lookup : ∀ x, m'.lookup x = if x = U then some L else if x + 1 = height then none else m.lookup x

variable (h : Joins m m' height U L)

include h

theorem Joins.outside_of (hu : m.lookup u = some l) : u < height ∨ height < l := by
  by_contra hinside
  rw [not_or, not_lt, not_lt] at hinside
  exact h.outside ⟨u, l, hu, hinside.2, hinside.1⟩

theorem Joins.bounds : L ≤ height ∧ height ≤ U := by
  constructor
  · rcases h.lower with ⟨rfl, -⟩ | ⟨u, hu, hL⟩
    · exact le_refl _
    · have := h.separate.ordered hL
      omega
  · rcases h.upper with ⟨rfl, -⟩ | hU
    · exact le_refl _
    · have := h.separate.ordered hU
      omega

/-- The other intervals end well below the new one or start well above it. -/
theorem Joins.others (hu : m.lookup u = some l) (hU : u ≠ U) (hL : u + 1 ≠ height) :
    (u < height ∧ u + 1 < L) ∨ (height < l ∧ U + 1 < l) := by
  rcases h.outside_of hu with hlt | hlt
  · left
    refine ⟨hlt, ?_⟩
    rcases h.lower with ⟨rfl, -⟩ | ⟨u', hu', hlower⟩
    · omega
    · exact h.separate.apart hu hlower (by omega)
  · right
    refine ⟨hlt, ?_⟩
    have hordered := h.separate.ordered hu
    rcases h.upper with ⟨rfl, hnone⟩ | hupper
    · have : l ≠ U + 1 := fun heq => hnone u (heq ▸ hu)
      omega
    · rcases lt_or_gt_of_ne hU with hlt' | hlt'
      · have := h.separate.apart hu hupper hlt'
        omega
      · exact h.separate.apart hupper hu hlt'

/-- An interval after the change is the new one or another one from before. -/
theorem Joins.cases (hu : m'.lookup u = some l) :
    (u = U ∧ l = L) ∨ (u ≠ U ∧ u + 1 ≠ height ∧ m.lookup u = some l) := by
  rw [h.lookup] at hu
  split at hu
  next heq =>
    cases hu
    exact .inl ⟨heq, rfl⟩
  next hne =>
    split at hu
    next => cases hu
    next hne' => exact .inr ⟨hne, hne', hu⟩

theorem Joins.separate_after : Separate m' := by
  have hbounds := h.bounds
  refine ⟨?_, ?_, ?_⟩
  · intro u l hu
    rcases h.cases hu with ⟨rfl, rfl⟩ | ⟨-, -, hu⟩
    · omega
    · exact h.separate.ordered hu
  · intro u l u' l' hu hu' hlt
    rcases h.cases hu with ⟨rfl, rfl⟩ | ⟨hU, hL, hu⟩
    · rcases h.cases hu' with ⟨rfl, rfl⟩ | ⟨hU, hL, hu'⟩
      · exact absurd hlt (lt_irrefl _)
      · have := h.others hu' hU hL
        omega
    · rcases h.cases hu' with ⟨rfl, rfl⟩ | ⟨-, -, hu'⟩
      · have := h.others hu hU hL
        have := h.separate.ordered hu
        omega
      · exact h.separate.apart hu hu' hlt
  · intro u l hu
    rcases h.cases hu with ⟨rfl, rfl⟩ | ⟨-, -, hu⟩
    · rcases h.upper with ⟨rfl, -⟩ | hU
      · exact h.bounded
      · exact h.separate.bounded hU
    · exact h.separate.bounded hu

theorem Joins.covers_after (x : ℕ) : Covers m' x ↔ Covers m x ∨ x = height := by
  have hbounds := h.bounds
  have hnew : m'.lookup U = some L := by rw [h.lookup, if_pos rfl]
  constructor
  · rintro ⟨u, l, hu, hl, hle⟩
    rcases h.cases hu with ⟨rfl, rfl⟩ | ⟨-, -, hu⟩
    · rcases lt_trichotomy x height with hlt | rfl | hlt
      · left
        rcases h.lower with ⟨rfl, -⟩ | ⟨u', hu', hlower⟩
        · omega
        · exact ⟨u', l, hlower, hl, by omega⟩
      · exact .inr rfl
      · left
        rcases h.upper with ⟨rfl, -⟩ | hupper
        · omega
        · exact ⟨u, height + 1, hupper, hlt, hle⟩
    · exact .inl ⟨u, l, hu, hl, hle⟩
  · rintro (⟨u, l, hu, hl, hle⟩ | rfl)
    · have houtside := h.outside_of hu
      by_cases hU : u = U
      · subst hU
        exact ⟨u, L, hnew, by omega, hle⟩
      · by_cases hL : u + 1 = height
        · -- the interval below is part of the new one
          rcases h.lower with ⟨-, hnone⟩ | ⟨u', hu', hlower⟩
          · exact absurd hL (hnone u l hu)
          · obtain rfl : u' = u := by omega
            have heq : l = L := Option.some.inj (hu.symm.trans hlower)
            exact ⟨U, L, hnew, by omega, by omega⟩
        · exact ⟨u, l, by rw [h.lookup, if_neg hU, if_neg hL, hu], hl, hle⟩
    · exact ⟨U, L, hnew, hbounds.1, hbounds.2⟩

theorem Joins.adds : Adds m m' height := by
  refine ⟨h.separate_after, h.covers_after, fun {u l} hu => ?_⟩
  have hbounds := h.bounds
  rcases h.cases hu with ⟨rfl, rfl⟩ | ⟨hU, hL, hu⟩
  · refine ⟨by omega, ?_⟩
    rcases h.lower with ⟨heq, -⟩ | ⟨u', -, hlower⟩
    · exact .inl heq
    · exact .inr ⟨u', hlower⟩
  · have hothers := h.others hu hU hL
    have hordered := h.separate.ordered hu
    exact ⟨by omega, .inr ⟨u, hu⟩⟩

end Join

section Add

variable {t : Tree} (h : Separate t.knownHeights) (hnot : ¬ Covers t.knownHeights height)

include h hnot

omit hnot in
/-- The interval that starts right above the height. -/
theorem ascend_adjacent :
    ((t.ascend height).filter (·.adjacentToLowerBound height) = none ∧
      ∀ u, t.knownHeights.lookup u ≠ some (height + 1)) ∨
    ∃ i, (t.ascend height).filter (·.adjacentToLowerBound height) = some i ∧
      t.knownHeights.lookup i.upperBound = some (height + 1) := by
  unfold Tree.ascend
  rcases hceil : ceil t.knownHeights height with _ | e
  · left
    refine ⟨rfl, fun u hu => ?_⟩
    have := ceil_eq_none.mp hceil u _ hu
    have := h.ordered hu
    omega
  · rcases ceil_eq_some hceil with ⟨he, hle, hleast⟩
    have hordered := h.ordered he
    have hbounded := h.bounded he
    by_cases hadjacent : height + 1 = e.2
    · right
      refine ⟨Interval.ofEntry e, Option.filter_eq_some_iff.mpr ⟨rfl, ?_⟩, ?_⟩
      · exact decide_eq_true ⟨by omega, hadjacent⟩
      · rw [hadjacent]
        exact he
    · left
      constructor
      · refine Option.filter_eq_none_iff.mpr fun i hi hadj => ?_
        cases hi
        exact hadjacent (of_decide_eq_true hadj).2
      · intro u hu
        have hordered' := h.ordered hu
        rcases (hleast u _ hu (by omega)).lt_or_eq with hlt | heq
        · have := h.apart he hu hlt
          omega
        · rw [heq, hu] at he
          exact hadjacent (Option.some.inj he)

/-- The interval that ends right below the height. -/
theorem descend_adjacent (hbounded : height ≤ maxUint64) :
    ((t.descend height).filter (·.adjacentToUpperBound height) = none ∧
      ∀ u l, t.knownHeights.lookup u = some l → u + 1 ≠ height) ∨
    ∃ i, (t.descend height).filter (·.adjacentToUpperBound height) = some i ∧
      i.upperBound + 1 = height ∧ t.knownHeights.lookup i.upperBound = some i.lowerBound := by
  unfold Tree.descend
  rcases hfloor : floor t.knownHeights height with _ | e
  · left
    refine ⟨rfl, fun u l hu heq => ?_⟩
    have := floor_eq_none.mp hfloor u l hu
    omega
  · rcases floor_eq_some hfloor with ⟨he, hle, hgreatest⟩
    by_cases hadjacent : e.1 + 1 = height
    · right
      refine ⟨Interval.ofEntry e, Option.filter_eq_some_iff.mpr ⟨rfl, ?_⟩, hadjacent, he⟩
      have hlt : e.1 < maxUint64 := by omega
      exact decide_eq_true ⟨hlt, hadjacent⟩
    · left
      constructor
      · refine Option.filter_eq_none_iff.mpr fun i hi hadj => ?_
        cases hi
        exact hadjacent (of_decide_eq_true hadj).2
      · intro u l hu heq
        -- the nearest interval would end at the height and track it
        have hnear := hgreatest u l hu (by omega)
        refine hnot ⟨e.1, e.2, he, ?_, ?_⟩
        · have := h.ordered he
          omega
        · omega

theorem adds_add (hbounded : height ≤ maxUint64) :
    Adds t.knownHeights (t.add height).1.knownHeights height := by
  have hcontains : (t.ascend height).any (·.contains height) = false := by
    rw [Bool.eq_false_iff, ne_eq]
    exact fun hcontains => hnot ((contains_iff h).mp hcontains)
  -- an interval that is not there need not be erased
  have hnone : (∀ u l, t.knownHeights.lookup u = some l → u + 1 ≠ height) →
      ∀ x, t.knownHeights.lookup x = if x + 1 = height then none else t.knownHeights.lookup x := by
    intro hL x
    split
    next heq => exact Option.eq_none_iff_forall_ne_some.mpr fun l hl => hL x l hl heq
    next => rfl
  unfold Tree.add
  dsimp only
  rw [if_neg (by rw [hcontains]; exact Bool.false_ne_true)]
  rcases ascend_adjacent h with ⟨hupper, hU⟩ | ⟨upper, hupper, hU⟩
  · rcases descend_adjacent h hnot hbounded with ⟨hlower, hL⟩ | ⟨lower, hlower, hadjacent, hL⟩
    · rw [hupper, hlower]
      refine Joins.adds (U := height) (L := height) ⟨h, hbounded, hnot, .inl ⟨rfl, hU⟩, .inl ⟨rfl, hL⟩, fun x => ?_⟩
      rw [lookup_insert_ite, ← hnone hL]
    · rw [hupper, hlower]
      refine Joins.adds (U := height) (L := lower.lowerBound)
        ⟨h, hbounded, hnot, .inl ⟨rfl, hU⟩, .inr ⟨_, hadjacent, hL⟩, fun x => ?_⟩
      rw [lookup_insert_ite, lookup_erase_ite, ← hadjacent]
      simp only [Nat.add_right_cancel_iff]
  · rcases descend_adjacent h hnot hbounded with ⟨hlower, hL⟩ | ⟨lower, hlower, hadjacent, hL⟩
    · rw [hupper, hlower]
      refine Joins.adds (U := upper.upperBound) (L := height)
        ⟨h, hbounded, hnot, .inr hU, .inl ⟨rfl, hL⟩, fun x => ?_⟩
      rw [lookup_insert_ite, ← hnone hL]
    · rw [hupper, hlower]
      refine Joins.adds (U := upper.upperBound) (L := lower.lowerBound)
        ⟨h, hbounded, hnot, .inr hU, .inr ⟨_, hadjacent, hL⟩, fun x => ?_⟩
      rw [lookup_insert_ite, lookup_erase_ite, ← hadjacent]
      simp only [Nat.add_right_cancel_iff]

end Add

/-! ## Removing a height -/

/-- What removing a height does to the intervals. -/
structure Removes (m m' : GoMap ℕ ℕ) (height : ℕ) : Prop where
  separate : Separate m'
  covers : ∀ x, Covers m' x ↔ Covers m x ∧ x ≠ height

section Split

variable {U L : ℕ}

/-- The interval `[L, U]` of a height leaves what is below and above the height. -/
structure Splits (m m' : GoMap ℕ ℕ) (height U L : ℕ) : Prop where
  separate : Separate m
  interval : m.lookup U = some L
  lower : L ≤ height
  upper : height ≤ U
  lookup : ∀ x, m'.lookup x =
    if x = U then if U = height then none else some (height + 1)
    else if x + 1 = height ∧ L < height then some L else m.lookup x

variable (h : Splits m m' height U L)

include h

/-- An interval after the change is a part of the old one or another one from before. -/
theorem Splits.cases (hu : m'.lookup u = some l) :
    (u = U ∧ height < U ∧ l = height + 1) ∨ (u + 1 = height ∧ L < height ∧ l = L) ∨
      (u ≠ U ∧ m.lookup u = some l) := by
  have hupper := h.upper
  rw [h.lookup] at hu
  split at hu
  next heq =>
    split at hu
    next => cases hu
    next hne => exact .inl ⟨heq, by omega, (Option.some.inj hu).symm⟩
  next hne =>
    split at hu
    next heq => exact .inr (.inl ⟨heq.1, heq.2, (Option.some.inj hu).symm⟩)
    next => exact .inr (.inr ⟨hne, hu⟩)

/-- The other intervals end well below the old one or start well above it. -/
theorem Splits.others (hu : m.lookup u = some l) (hU : u ≠ U) : u + 1 < L ∨ U + 1 < l := by
  rcases lt_or_gt_of_ne hU with hlt | hlt
  · exact .inl (h.separate.apart hu h.interval hlt)
  · exact .inr (h.separate.apart h.interval hu hlt)

theorem Splits.separate_after : Separate m' := by
  have hlower := h.lower
  have hupper := h.upper
  have hbounded := h.separate.bounded h.interval
  refine ⟨?_, ?_, ?_⟩
  · intro u l hu
    rcases h.cases hu with hnew | hnew | ⟨-, hu⟩
    · omega
    · omega
    · exact h.separate.ordered hu
  · intro u l u' l' hu hu' hlt
    rcases h.cases hu with hnew | hnew | ⟨hU, hu⟩
    · rcases h.cases hu' with hnew' | hnew' | ⟨hU', hu'⟩
      · omega
      · omega
      · have := h.others hu' hU'
        omega
    · rcases h.cases hu' with hnew' | hnew' | ⟨hU', hu'⟩
      · omega
      · omega
      · have := h.others hu' hU'
        omega
    · have := h.others hu hU
      have := h.separate.ordered hu
      rcases h.cases hu' with hnew' | hnew' | ⟨-, hu'⟩
      · omega
      · omega
      · exact h.separate.apart hu hu' hlt
  · intro u l hu
    rcases h.cases hu with hnew | hnew | ⟨-, hu⟩
    · omega
    · omega
    · exact h.separate.bounded hu

theorem Splits.covers_after (x : ℕ) : Covers m' x ↔ Covers m x ∧ x ≠ height := by
  have hlower := h.lower
  have hupper := h.upper
  constructor
  · rintro ⟨u, l, hu, hl, hle⟩
    rcases h.cases hu with ⟨rfl, hlt, rfl⟩ | ⟨hu, hlt, rfl⟩ | ⟨hU, hu⟩
    · exact ⟨⟨u, L, h.interval, by omega, hle⟩, by omega⟩
    · exact ⟨⟨U, l, h.interval, hl, by omega⟩, by omega⟩
    · have := h.others hu hU
      exact ⟨⟨u, l, hu, hl, hle⟩, by omega⟩
  · rintro ⟨⟨u, l, hu, hl, hle⟩, hne⟩
    by_cases hU : u = U
    · subst hU
      have heq : l = L := Option.some.inj (hu.symm.trans h.interval)
      rcases lt_or_gt_of_ne hne with hlt | hlt
      · -- below the height
        refine ⟨height - 1, L, ?_, by omega, by omega⟩
        rw [h.lookup, if_neg (by omega), if_pos (by omega)]
      · refine ⟨u, height + 1, ?_, hlt, hle⟩
        rw [h.lookup, if_pos rfl, if_neg (by omega)]
    · have := h.others hu hU
      exact ⟨u, l, by rw [h.lookup, if_neg hU, if_neg (by omega), hu], hl, hle⟩

theorem Splits.removes : Removes m m' height := ⟨h.separate_after, h.covers_after⟩

end Split

theorem removes_remove {t : Tree} (h : Separate t.knownHeights) (height : ℕ) :
    Removes t.knownHeights (t.remove height).1.knownHeights height := by
  unfold Tree.remove
  by_cases hcovers : Covers t.knownHeights height
  · rcases ascend_of_covers h hcovers with ⟨e, hceil, he, hl, hu⟩
    have hfilter : (t.ascend height).filter (·.contains height) = some (Interval.ofEntry e) := by
      rw [Tree.ascend, hceil]
      exact Option.filter_eq_some_iff.mpr ⟨rfl, decide_eq_true ⟨hl, hu⟩⟩
    rw [hfilter]
    dsimp only [Interval.ofEntry]
    refine Splits.removes (U := e.1) (L := e.2) ⟨h, he, hl, hu, fun x => ?_⟩
    split
    next heq =>
      rw [lookup_erase_ite]
      grind
    next hne =>
      split
      next heq =>
        rw [lookup_insert_ite]
        grind
      next hne' =>
        split
        next heq =>
          rw [lookup_insert_ite, lookup_erase_ite]
          grind
        next hne'' =>
          rw [lookup_insert_ite, lookup_insert_ite]
          grind
  · have hfilter : (t.ascend height).filter (·.contains height) = none := by
      refine Option.filter_eq_none_iff.mpr fun i hi hcontains => hcovers ((contains_iff h).mp ?_)
      rw [Tree.contains, hi]
      exact hcontains
    rw [hfilter]
    refine ⟨h, fun x => ?_⟩
    constructor
    · intro hx
      exact ⟨hx, fun heq => hcovers (heq ▸ hx)⟩
    · exact And.left

end Trees

/-! ## Intervals of the database -/

/-- What `Add` writes is what it does to the tree. -/
theorem Tree.add_writes (t : Tree) (height : ℕ) :
    (t.add height).2.foldl applyInterval t.knownHeights = (t.add height).1.knownHeights ∧
    ∀ m, (t.add height).2.foldl applyBlock m = m := by
  unfold Tree.add
  dsimp only
  split
  · exact ⟨rfl, fun _ => rfl⟩
  · split
    · exact ⟨rfl, fun _ => rfl⟩
    · exact ⟨rfl, fun _ => rfl⟩
    · exact ⟨rfl, fun _ => rfl⟩
    · exact ⟨rfl, fun _ => rfl⟩

theorem Tree.remove_writes (t : Tree) (height : ℕ) :
    (t.remove height).2.foldl applyInterval t.knownHeights = (t.remove height).1.knownHeights ∧
    ∀ m, (t.remove height).2.foldl applyBlock m = m := by
  unfold Tree.remove
  split
  · exact ⟨rfl, fun _ => rfl⟩
  · split
    · exact ⟨rfl, fun _ => rfl⟩
    · split
      · exact ⟨rfl, fun _ => rfl⟩
      · split
        · exact ⟨rfl, fun _ => rfl⟩
        · exact ⟨rfl, fun _ => rfl⟩

theorem lookup_applyInterval {m m' : GoMap ℕ ℕ} (h : ∀ u, m.lookup u = m'.lookup u) (op : DBOp) (u : ℕ) :
    (applyInterval m op).lookup u = (applyInterval m' op).lookup u := by
  cases op with
  | putInterval upperBound lowerBound =>
    unfold applyInterval
    rw [lookup_insert_ite, lookup_insert_ite, h]
  | deleteInterval upperBound =>
    unfold applyInterval
    rw [lookup_erase_ite, lookup_erase_ite, h]
  | putBlock => exact h u
  | deleteBlock => exact h u

theorem lookup_foldl_applyInterval (ops : List DBOp) {m m' : GoMap ℕ ℕ} (h : ∀ u, m.lookup u = m'.lookup u)
    (u : ℕ) : (ops.foldl applyInterval m).lookup u = (ops.foldl applyInterval m').lookup u := by
  induction ops generalizing m m' with
  | nil => exact h u
  | cons op ops ih => exact ih (lookup_applyInterval h op)

theorem write_append (db : DB) (ops ops' : List DBOp) : db.write (ops ++ ops') = (db.write ops).write ops' := by
  unfold DB.write
  rw [List.foldl_append, List.foldl_append]

end Titan.Bootstrap
