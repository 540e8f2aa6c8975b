import Titan.Shared.Elements

/-!
# Titan.Shared.Pages — looking up elements by their traits

`getKeys` visits the lists of the sorted traits and collects the keys that it has not seen,
until it has as many as it may return (`getKeys_spec`). Without a start these are, up to the
limit, the keys of the elements that have one of the traits (`getKeys_first`).

A key is seen by its hash, and an iterator that is to start at no key starts at the empty
key if that is in the list. Therefore no two keys may have the same hash, and no key may be
empty.
-/

namespace Titan.Shared

open Lib Database PrefixDB
open LinkedDB (startingAt)

/-! ## Pages -/

/-- A page that holds keys, none of which is seen by the hash of another one. -/
structure Page.Ok (hash : Hash256) (keys : Set Bytes) (limit : ℤ) (page : Page) : Prop where
  known : ∀ k ∈ page.keys, k ∈ keys
  keySet : ∀ x, x ∈ page.keySet ↔ ∃ k ∈ page.keys, hash.sum k = x
  room : page.limit = limit - page.keys.length
  nodup : page.keys.Nodup
  length : page.keys.length ≤ limit.toNat

/-- The page after a visit of a list: everything was collected and there is room for more, or
the page is full and its last key is new. -/
inductive Page.Visited (page : Page) (rest : List Bytes) (page' : Page) : Prop
  | all (hroom : 0 < page'.limit) (hlast : page'.lastKey = rest.getLastD page.lastKey)
      (hmem : ∀ k, k ∈ page'.keys ↔ k ∈ page.keys ∨ k ∈ rest)
  | full (seen left : List Bytes) (hrest : rest = seen ++ page'.lastKey :: left) (hfull : page'.limit = 0)
      (hnew : page'.lastKey ∉ page.keys)
      (hmem : ∀ k, k ∈ page'.keys ↔ k ∈ page.keys ∨ k ∈ seen ∨ k = page'.lastKey)

theorem Page.Visited.cons {page page₁ page' : Page} {rest : List Bytes}
    (hfirst : ∀ k, k ∈ page₁.keys ↔ k ∈ page.keys ∨ k = page₁.lastKey) (h : page₁.Visited rest page') :
    page.Visited (page₁.lastKey :: rest) page' := by
  cases h with
  | all hroom hlast hmem =>
    refine .all hroom (by rw [hlast, List.getLastD_cons]) fun k => ?_
    rw [hmem, hfirst, List.mem_cons, or_assoc]
  | full seen left hrest hfull hnew hmem =>
    refine .full (page₁.lastKey :: seen) left (by rw [hrest]; rfl) hfull (fun hk => hnew ((hfirst _).mpr (.inl hk))) fun k => ?_
    rw [hmem, hfirst, List.mem_cons, or_assoc, or_assoc]

section Append

variable {hash : Hash256} {keys : Set Bytes} {limit : ℤ} {page : Page}

/-- A new key is added to a page with room. -/
theorem Page.Ok.add (hpage : page.Ok hash keys limit) (hroom : 0 < page.limit) {key : Bytes} (hkey : key ∈ keys)
    (hnew : key ∉ page.keys) : Page.Ok hash keys limit
      { keys := page.keys ++ [key], keySet := hash.sum key :: page.keySet, limit := page.limit - 1, lastKey := key } := by
  have hlimit := hpage.room
  refine ⟨fun k hk => ?_, fun x => ?_, ?_, ?_, ?_⟩
  · rcases List.mem_append.mp hk with hk | hk
    · exact hpage.known k hk
    · rw [List.mem_singleton.mp hk]
      exact hkey
  · rw [List.mem_cons, hpage.keySet]
    constructor
    · rintro (rfl | ⟨k, hk, hsum⟩)
      · exact ⟨key, List.mem_append_right _ (List.mem_singleton_self key), rfl⟩
      · exact ⟨k, List.mem_append_left _ hk, hsum⟩
    · rintro ⟨k, hk, hsum⟩
      rcases List.mem_append.mp hk with hk | hk
      · exact .inr ⟨k, hk, hsum⟩
      · exact .inl (by rw [← hsum, List.mem_singleton.mp hk])
  · rw [List.length_append, List.length_singleton]
    dsimp only
    omega
  · rw [← List.concat_eq_append]
    exact List.Nodup.concat hnew hpage.nodup
  · rw [List.length_append, List.length_singleton]
    omega

variable {m : Bytes → Option Bytes} {values : Bytes → Bytes} {l rest : List Bytes}
  (hholds : LinkedDB.HoldsWith values m l) {fuel : ℕ}
  (hfuel : rest.length < fuel)

include hholds hfuel

/-- Without room nothing is added. -/
theorem appendTraitKeys_full {it : LinkedDB.Iterator} (hit : it.Visits l rest) (hfull : ¬ 0 < page.limit) :
    appendTraitKeys hash (Reader.of m) fuel it page = some (.ok page) := by
  rcases fuel with _ | fuel
  · cases hfuel
  cases rest with
  | nil =>
    rcases hholds.next_nil hit with ⟨it', hnext, herr⟩
    rw [appendTraitKeys, hnext]
    simp only [herr]
  | cons key rest =>
    rcases hholds.next_cons hit with ⟨it', hnext, -, -, hit'⟩
    have herr : it'.err = none := by
      cases hit' with
      | fresh _ _ herr => exact herr
      | between _ _ _ _ _ herr => exact herr
      | done _ herr => exact herr
    rw [appendTraitKeys, hnext]
    simp only [hfull, if_false, herr]

/-- A list of a trait is visited to its end, or until the page is full. -/
theorem appendTraitKeys_spec (hkeys : ∀ ⦃x y⦄, x ∈ keys → y ∈ keys → hash.sum x = hash.sum y → x = y)
    {it : LinkedDB.Iterator} (hit : it.Visits l rest) (hrest : ∀ k ∈ rest, k ∈ keys)
    (hpage : page.Ok hash keys limit) :
    ∃ page', appendTraitKeys hash (Reader.of m) fuel it page = some (.ok page') ∧ page'.Ok hash keys limit ∧
      (0 < page.limit → page.Visited rest page') := by
  by_cases hroom : 0 < page.limit
  · induction rest generalizing it page fuel with
    | nil =>
      rcases fuel with _ | fuel
      · cases hfuel
      rcases hholds.next_nil hit with ⟨it', hnext, herr⟩
      refine ⟨page, ?_, hpage, fun _ => .all hroom rfl (by simp)⟩
      rw [appendTraitKeys, hnext]
      simp only [herr]
    | cons key rest ih =>
      rcases fuel with _ | fuel
      · cases hfuel
      rcases hholds.next_cons hit with ⟨it', hnext, hkey, -, hit'⟩
      have hfuel' : rest.length < fuel := Nat.lt_of_succ_lt_succ hfuel
      have hrest' : ∀ k ∈ rest, k ∈ keys := fun k hk => hrest k (List.mem_cons_of_mem _ hk)
      rw [appendTraitKeys, hnext]
      simp only [hkey, if_pos hroom]
      by_cases hseen : hash.sum key ∈ page.keySet
      · rcases (hpage.keySet _).mp hseen with ⟨k, hk, hsum⟩
        obtain rfl : k = key := hkeys (hpage.known k hk) (hrest key List.mem_cons_self) hsum
        rw [if_pos hseen]
        have hpage' : Page.Ok hash keys limit { page with lastKey := k } := { hpage with }
        rcases ih hfuel' hit' hrest' hpage' hroom with ⟨page', happend, hok, hvisited⟩
        refine ⟨page', happend, hok, fun _ => (hvisited hroom).cons fun x => ?_⟩
        exact (or_iff_left_of_imp fun heq => heq ▸ hk).symm
      · have hnew : key ∉ page.keys := fun hmem => hseen ((hpage.keySet _).mpr ⟨key, hmem, rfl⟩)
        have hadd := hpage.add hroom (hrest key List.mem_cons_self) hnew
        have hmem : ∀ k, k ∈ page.keys ++ [key] ↔ k ∈ page.keys ∨ k = key := fun k => by
          rw [List.mem_append, List.mem_singleton]
        rw [if_neg hseen]
        by_cases hroom' : 0 < page.limit - 1
        · rcases ih hfuel' hit' hrest' hadd hroom' with ⟨page', happend, hok, hvisited⟩
          exact ⟨page', happend, hok, fun _ => (hvisited hroom').cons hmem⟩
        · -- the key takes the last place
          refine ⟨_, appendTraitKeys_full hholds hfuel' hit' hroom', hadd, fun _ => .full [] rest rfl ?_ hnew ?_⟩
          · dsimp only
            omega
          · simp
  · exact ⟨page, appendTraitKeys_full hholds hfuel hit hroom, hpage, fun h => absurd h hroom⟩

end Append

/-! ## Lookups -/

/-- The page after the lists of traits, from a start on: everything was collected, or the page
is full and its last key is a new one of the last trait. -/
inductive Page.Collected (start : Bytes) (visits : Bytes → List Bytes) (traits : List Bytes) (page page' : Page)
    (lastTrait : Bytes) : Prop
  | all (hlast : ∀ t ∈ traits, start ≤ t → t ≤ lastTrait ∧ lastTrait ∈ traits ∧
        (visits lastTrait = [] ∨ page'.lastKey ∈ visits lastTrait))
      (hmem : ∀ k, k ∈ page'.keys ↔ k ∈ page.keys ∨ ∃ t ∈ traits, start ≤ t ∧ k ∈ visits t)
  | full (seen left : List Bytes) (htrait : lastTrait ∈ traits) (hstart : start ≤ lastTrait)
      (hvisits : visits lastTrait = seen ++ page'.lastKey :: left) (hfull : page'.limit = 0)
      (hnew : page'.lastKey ∉ page.keys)
      (hmem : ∀ k, k ∈ page'.keys ↔ k ∈ page.keys ∨
        (∃ t ∈ traits, start ≤ t ∧ t < lastTrait ∧ k ∈ visits t) ∨ k ∈ seen ∨ k = page'.lastKey)

/-- What a lookup visits of the list of a trait. -/
def Box.visits (box : Box) (startTrait startKey trait : Bytes) : List Bytes :=
  startingAt (if startTrait < trait then [] else startKey) (box.keysWith trait)

section Keys

variable {hash : Hash256} {names : Set Bytes} {keys : Set Bytes} {limit : ℤ} {m : Bytes → Option Bytes}
  {s : State} {box : Box} (hkeys : ∀ ⦃x y⦄, x ∈ keys → y ∈ keys → hash.sum x = hash.sum y → x = y)
  (hrep : Represents hash names m s box) (hlive : ∀ e ∈ box.live, e.key ∈ keys)
  {fuel : ℕ} (hfuel : box.live.length < fuel) {traits : List Bytes}

include hkeys hrep hlive hfuel

theorem getKeysLoop_spec (startTrait startKey : Bytes) (hsorted : traits.Pairwise (· ≤ ·))
    (htraits : ∀ t ∈ traits, t ∈ names) {key : Bytes}
    (hkey : ∀ t ∈ traits, (if startTrait < t then [] else key) = if startTrait < t then [] else startKey)
    (lastTrait : Bytes) {page : Page} (hpage : page.Ok hash keys limit) :
    ∃ page' lastTrait',
      s.getKeysLoop hash (Reader.of m) fuel startTrait traits key lastTrait page = some (.ok (page', lastTrait')) ∧
      page'.Ok hash keys limit ∧ (0 < page.limit →
        page.Collected startTrait (box.visits startTrait startKey) traits page' lastTrait') := by
  induction traits generalizing key lastTrait page with
  | nil => exact ⟨page, lastTrait, rfl, hpage, fun _ => .all (by simp) (by simp)⟩
  | cons trait traits ih =>
    rcases List.pairwise_cons.mp hsorted with ⟨hfirst, hsorted'⟩
    have htraits' : ∀ t ∈ traits, t ∈ names := fun t ht => htraits t (List.mem_cons_of_mem _ ht)
    rw [State.getKeysLoop]
    by_cases hskip : trait < startTrait
    · rw [if_pos hskip]
      rcases ih hsorted' htraits' (fun t ht => hkey t (List.mem_cons_of_mem _ ht)) lastTrait hpage with
        ⟨page', lastTrait', hloop, hok, hcollected⟩
      refine ⟨page', lastTrait', hloop, hok, fun hroom => ?_⟩
      have hnot : ¬ startTrait ≤ trait := not_le_of_gt hskip
      cases hcollected hroom with
      | all hlast hmem =>
        refine .all (fun t ht hstart => ?_) (by simpa [hnot] using hmem)
        have ht' : t ∈ traits := List.mem_of_ne_of_mem (fun heq => hnot (by rwa [← heq])) ht
        rcases hlast t ht' hstart with ⟨hmax, hmem', hkey'⟩
        exact ⟨hmax, List.mem_cons_of_mem _ hmem', hkey'⟩
      | full seen left htrait hstart hvisits hfull hnew hmem =>
        exact .full seen left (List.mem_cons_of_mem _ htrait) hstart hvisits hfull hnew (by simpa [hnot] using hmem)
    · have hle : startTrait ≤ trait := le_of_not_gt hskip
      have hholds := LinkedDB.holds_iff.mp (hrep.index trait (htraits trait List.mem_cons_self))
      have hsuffix : box.visits startTrait startKey trait <:+ box.keysWith trait := LinkedDB.startingAt_suffix _ _
      have hlength : (box.visits startTrait startKey trait).length < fuel := by
        refine lt_of_le_of_lt (hsuffix.length_le.trans ?_) hfuel
        rw [Box.keysWith, List.length_map]
        exact List.length_filter_le _ _
      rw [if_neg hskip]
      simp only [hkey trait List.mem_cons_self, partOf_of]
      have hknown : ∀ k ∈ box.visits startTrait startKey trait, k ∈ keys := by
        intro k hk
        rcases Box.mem_keysWith.mp (hsuffix.mem hk) with ⟨e, he, -, rfl⟩
        exact hlive e he
      have hpage' : Page.Ok hash keys limit
          { page with lastKey := if startTrait < trait then [] else startKey } := { hpage with }
      rcases appendTraitKeys_spec hholds hlength hkeys (hholds.visits_start _) hknown hpage' with
        ⟨page₁, happend, hpage₁, hvisited⟩
      simp only [happend]
      by_cases hfull : page₁.limit = 0
      · refine ⟨page₁, trait, by rw [if_pos hfull], hpage₁, fun hroom => ?_⟩
        cases hvisited hroom with
        | all hroom' => omega
        | full seen left hrest _ hnew hmem =>
          refine .full seen left List.mem_cons_self hle hrest hfull hnew fun k => ?_
          have hnone : ¬ ∃ t ∈ trait :: traits, startTrait ≤ t ∧ t < trait ∧ k ∈ box.visits startTrait startKey t := by
            rintro ⟨t, ht, -, hlt, -⟩
            rcases List.mem_cons.mp ht with rfl | ht
            · exact lt_irrefl _ hlt
            · exact absurd (hfirst t ht) (not_le_of_gt hlt)
          rw [hmem, or_iff_right hnone]
      · rw [if_neg hfull]
        have hkey' : ∀ t ∈ traits, (if startTrait < t then [] else if startTrait < trait then [] else startKey) =
            if startTrait < t then [] else startKey := by
          intro t ht
          split
          · rfl
          next hnot => rw [if_neg fun hlt => hnot (lt_of_lt_of_le hlt (hfirst t ht))]
        rcases ih hsorted' htraits' hkey' trait hpage₁ with ⟨page', lastTrait', hloop, hok, hcollected⟩
        refine ⟨page', lastTrait', hloop, hok, fun hroom => ?_⟩
        cases hvisited hroom with
        | full _ _ _ hfull' => exact absurd hfull' hfull
        | all hroom' hlast₁ hmem₁ =>
          cases hcollected hroom' with
          | all hlast hmem =>
            refine .all ?_ fun k => ?_
            · rcases traits with _ | ⟨next, traits⟩
              · cases hloop
                intro t ht _
                refine ⟨(List.mem_singleton.mp ht).le, List.mem_singleton_self _, ?_⟩
                rcases List.eq_nil_or_concat' (box.visits startTrait startKey trait) with hnil | ⟨seen, last, hseen⟩
                · exact .inl hnil
                · exact .inr (by rw [hlast₁, hseen]; simp)
              · rcases hlast next List.mem_cons_self (hle.trans (hfirst next List.mem_cons_self)) with ⟨hmax, hmem', hkey⟩
                refine List.forall_mem_cons.mpr ⟨fun _ => ?_, fun t ht hstart => ?_⟩
                · exact ⟨(hfirst next List.mem_cons_self).trans hmax, List.mem_cons_of_mem _ hmem', hkey⟩
                · exact ⟨(hlast t ht hstart).1, List.mem_cons_of_mem _ hmem', hkey⟩
            rw [hmem, hmem₁, List.exists_mem_cons_iff, or_assoc]
            simp only [hle, true_and]
          | full seen left htrait hstart hvisits hfull' hnew hmem =>
            -- the last key is new, so the last trait is another one
            have hlt : trait < lastTrait' := by
              refine lt_of_le_of_ne (hfirst lastTrait' htrait) fun heq => hnew ((hmem₁ _).mpr (.inr ?_))
              rw [heq]
              exact hvisits ▸ List.mem_append_right _ List.mem_cons_self
            refine .full seen left (List.mem_cons_of_mem _ htrait) hstart hvisits hfull'
              (fun hk => hnew ((hmem₁ _).mpr (.inl hk))) fun k => ?_
            rw [hmem, hmem₁, List.exists_mem_cons_iff, or_assoc, or_assoc]
            simp only [hle, hlt, true_and]

/-- A lookup from any start returns. -/
theorem getKeys_spec (htraits : ∀ t ∈ traits, t ∈ names) (startTrait startKey : Bytes) (limit : ℤ) :
    ∃ page lastTrait,
      s.getKeys hash (Reader.of m) fuel traits startTrait startKey limit = some (.ok (page, lastTrait)) ∧
      page.Ok hash keys limit ∧ (0 < limit → (⟨[], [], limit, startKey⟩ : Page).Collected startTrait
        (box.visits startTrait startKey) (traits.insertionSort (· ≤ ·)) page lastTrait) :=
  getKeysLoop_spec hkeys hrep hlive hfuel startTrait startKey (List.pairwise_insertionSort _ _)
    (fun t ht => htraits t ((List.mem_insertionSort _).mp ht)) (fun _ _ => rfl) startTrait
    ⟨by simp, by simp, by simp, List.nodup_nil, Nat.zero_le _⟩

/-- Without a start the keys are, up to the limit, those of the elements with one of the traits. -/
theorem getKeys_first (hempty : ∀ e ∈ box.live, e.key ≠ []) (htraits : ∀ t ∈ traits, t ∈ names) (limit : ℤ) :
    ∃ found : List Bytes, found.Nodup ∧ (∀ k, k ∈ found ↔ ∃ t ∈ traits, k ∈ box.keysWith t) ∧
      ∃ page lastTrait, s.getKeys hash (Reader.of m) fuel traits [] [] limit = some (.ok (page, lastTrait)) ∧
        page.keys = found.take limit.toNat := by
  rcases getKeys_spec hkeys hrep hlive hfuel htraits [] [] limit with ⟨page, lastTrait, hget, hok, hcollected⟩
  have hvisits : ∀ t, box.visits [] [] t = box.keysWith t := by
    intro t
    rw [Box.visits, ite_self, LinkedDB.startingAt_of_notMem]
    intro hk
    rcases Box.mem_keysWith.mp hk with ⟨e, he, -, heq⟩
    exact hempty e he heq
  have hpart : (∀ k ∈ page.keys, ∃ t ∈ traits, k ∈ box.keysWith t) ∧
      (page.keys.length = limit.toNat ∨ ∀ k, (∃ t ∈ traits, k ∈ box.keysWith t) → k ∈ page.keys) := by
    have hlength := hok.length
    rcases le_or_gt limit 0 with hnone | hroom
    · have hnil : page.keys = [] := List.length_eq_zero_iff.mp (by omega)
      exact ⟨by simp [hnil], .inl (by rw [hnil, Int.toNat_of_nonpos hnone]; rfl)⟩
    · have hlimit := hok.room
      cases hcollected hroom with
      | all _ hmem =>
        have hstart : ∀ t : Bytes, [] ≤ t := fun t => not_lt.mp (List.not_lt_nil t)
        simp only [List.not_mem_nil, false_or, hvisits, List.mem_insertionSort, hstart, true_and] at hmem
        exact ⟨fun k => (hmem k).mp, .inr fun k => (hmem k).mpr⟩
      | full seen left htrait _ hseen hfull _ hmem =>
        refine ⟨fun k hk => ?_, .inl (by omega)⟩
        rw [hvisits] at hseen
        rw [List.mem_insertionSort] at htrait
        rcases (hmem k).mp hk with hk | ⟨t, ht, -, -, hk⟩ | hk | rfl
        · cases hk
        · exact ⟨t, (List.mem_insertionSort _).mp ht, hvisits t ▸ hk⟩
        · exact ⟨_, htrait, by simp [hseen, hk]⟩
        · exact ⟨_, htrait, by simp [hseen]⟩
  rcases hpart with ⟨hsub, hfull | hall⟩
  · refine ⟨page.keys ++ (traits.flatMap box.keysWith).dedup.filter (· ∉ page.keys), ?_, fun k => ?_,
      page, lastTrait, hget, (List.take_left' hfull).symm⟩
    · exact hok.nodup.append ((List.nodup_dedup _).filter _) fun k hk hk' => by simp [hk] at hk'
    · by_cases hk : k ∈ page.keys
      · simpa [hk] using hsub k hk
      · simp [hk]
  · exact ⟨page.keys, hok.nodup, fun k => ⟨hsub k, hall k⟩, page, lastTrait, hget,
      (List.take_of_length_le hok.length).symm⟩

end Keys

end Titan.Shared
