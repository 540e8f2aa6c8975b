import Titan.Database.Overlay
import Titan.Lib.Mailbox
import Titan.Shared.State

/-!
# Titan.Shared.Elements — a direction of shared memory is a mailbox

`Represents m s box` says what a map holds for a direction of shared memory: under the
prefix of the values what the mailbox has for each key, and for each trait the list of the
keys of its messages. `setValue` puts into the mailbox, `removeValue` removes from it, and
neither changes anything outside these prefixes.
-/

namespace Titan.Shared

open Lib Database PrefixDB

/-- The elements of one direction. -/
abbrev Box := Mailbox Element.key

namespace Box

/-- What is stored for a key. -/
def entry (box : Box) (key : Bytes) : Option DBElement :=
  match box.live.find? fun e => e.key = key with
  | some e => some ⟨true, e.value, e.traits⟩
  | none => if key ∈ box.early then some ⟨false, [], []⟩ else none

/-- The keys in the list of a trait. -/
def keysWith (box : Box) (trait : Bytes) : List Bytes :=
  (box.live.filter fun e => trait ∈ e.traits).map Element.key

variable {box : Box} {key : Bytes}

theorem entry_eq_some {d : DBElement} : entry box key = some d ↔
    (∃ e ∈ box.live, e.key = key ∧ d = ⟨true, e.value, e.traits⟩) ∨ key ∈ box.early ∧ d = ⟨false, [], []⟩ := by
  unfold entry
  split
  next e hfind =>
    have he := List.mem_of_find?_eq_some hfind
    have hkey : e.key = key := by simpa using List.find?_some hfind
    subst hkey
    constructor
    · intro h
      exact .inl ⟨e, he, rfl, (Option.some.inj h).symm⟩
    · rintro (⟨e', he', hkey, rfl⟩ | ⟨hearly, -⟩)
      · rw [List.inj_on_of_nodup_map box.nodup he' he hkey]
      · exact absurd hearly (box.apart e he)
  next hfind =>
    have hnone : ¬ ∃ e ∈ box.live, e.key = key ∧ d = ⟨true, e.value, e.traits⟩ := by
      rintro ⟨e, he, hkey, -⟩
      exact List.find?_eq_none.mp hfind e he (by simpa using hkey)
    rw [or_iff_right hnone]
    split
    next hearly => simp [hearly, eq_comm]
    next hearly => simp [hearly]

theorem notMem_of_entry (h : entry box key = none) : key ∉ box.live.map Element.key ∧ key ∉ box.early := by
  constructor
  · intro hmem
    rcases List.mem_map.mp hmem with ⟨e, he, rfl⟩
    rw [entry_eq_some.mpr (.inl ⟨e, he, rfl, rfl⟩)] at h
    cases h
  · intro hearly
    rw [entry_eq_some.mpr (.inr ⟨hearly, rfl⟩)] at h
    cases h

/-! ## Entries and lists after an operation -/

theorem entry_take (hearly : key ∉ box.early) (k : Bytes) :
    entry (box.take key) k = if k = key then none else entry box k := by
  refine Option.ext fun d => ?_
  rw [entry_eq_some]
  split
  next hk => grind [Mailbox.take]
  next hk =>
    rw [entry_eq_some]
    grind [Mailbox.take]

theorem entry_remember (h : key ∉ box.live.map Element.key) (k : Bytes) :
    entry (box.remember key h) k = if k = key then some ⟨false, [], []⟩ else entry box k := by
  refine Option.ext fun d => ?_
  split
  next hk =>
    rw [entry_eq_some]
    grind [Mailbox.remember]
  next hk => simp [entry_eq_some, Mailbox.remember, hk]

theorem entry_forget (hearly : key ∈ box.early) (k : Bytes) :
    entry (box.forget key) k = if k = key then none else entry box k := by
  refine Option.ext fun d => ?_
  split
  next hk =>
    rw [entry_eq_some]
    grind [Mailbox.forget, box.apart]
  next hk => simp [entry_eq_some, Mailbox.forget, hk]

theorem entry_add {e : Element} (hearly : e.key ∉ box.early) (hlive : e.key ∉ box.live.map Element.key) (k : Bytes) :
    entry (box.add e hearly hlive) k = if k = e.key then some ⟨true, e.value, e.traits⟩ else entry box k := by
  refine Option.ext fun d => ?_
  split
  next hk =>
    rw [entry_eq_some]
    grind [Mailbox.add]
  next hk => simp [entry_eq_some, Mailbox.add, Ne.symm hk]

theorem mem_keysWith {trait : Bytes} : key ∈ keysWith box trait ↔ ∃ e ∈ box.live, trait ∈ e.traits ∧ e.key = key := by
  simp [keysWith, and_assoc]

theorem key_mem_keysWith {trait : Bytes} {e : Element} (he : e ∈ box.live) :
    e.key ∈ keysWith box trait ↔ trait ∈ e.traits := by
  rw [mem_keysWith]
  constructor
  · rintro ⟨x, hx, hxt, heq⟩
    rwa [← List.inj_on_of_nodup_map box.nodup hx he heq]
  · intro ht
    exact ⟨e, he, ht, rfl⟩

theorem keysWith_nodup (box : Box) (trait : Bytes) : (keysWith box trait).Nodup :=
  (List.filter_sublist.map Element.key).nodup box.nodup

theorem keysWith_take (trait : Bytes) : keysWith (box.take key) trait = (keysWith box trait).erase key := by
  have hnodup := keysWith_nodup box trait
  rw [hnodup.erase_eq_filter]
  unfold keysWith Mailbox.take
  rw [List.filter_map, List.filter_filter, List.filter_filter]
  refine congrArg _ (List.filter_congr fun e _ => ?_)
  rw [Bool.eq_iff_iff]
  simp [and_comm]

end Box

/-! ## What is stored -/

section Stored

variable (hash : Hash256) (traits : Set Bytes)

/-- The part of a map below a prefix. -/
def below (m : Bytes → Option Bytes) (pre : Bytes) : Bytes → Option Bytes := fun key => m (prefixKey pre key)

/-- The map holds the mailbox. -/
structure Represents (m : Bytes → Option Bytes) (s : State) (box : Box) : Prop where
  value : ∀ key, (below m s.valueDB key).map .ok = (box.entry key).map DBElement.marshal
  index : ∀ trait ∈ traits, LinkedDB.Holds (below m (s.traitDB hash trait)) (box.keysWith trait)
  known : ∀ e ∈ box.live, ∀ trait ∈ e.traits, trait ∈ traits

/-- The prefixes of a direction are different. -/
structure State.Apart (s : State) : Prop where
  length : s.valueDB.length = 32
  value : ∀ trait ∈ traits, s.valueDB ≠ s.traitDB hash trait
  index : Set.InjOn (s.traitDB hash) traits

/-- The key is not below the prefixes of a direction. -/
def State.Elsewhere (s : State) (key : Bytes) : Prop :=
  ¬ s.valueDB <+: key ∧ ∀ trait ∈ traits, ¬ s.traitDB hash trait <+: key

variable {hash traits}

theorem length_traitDB (s : State) (trait : Bytes) : (s.traitDB hash trait).length = 32 := hash.length_sum _

variable {m : Bytes → Option Bytes}

variable {s : State} {box : Box}

variable (h : Represents hash traits m s box)
include h

variable {m' : Bytes → Option Bytes}

/-- What is stored is known from the mailbox. -/
theorem Represents.unique (h' : Represents hash traits m' s box) :
    below m s.valueDB = below m' s.valueDB ∧
      ∀ trait ∈ traits, below m (s.traitDB hash trait) = below m' (s.traitDB hash trait) := by
  refine ⟨funext fun key => ?_, fun trait htrait => (h.index trait htrait).unique (h'.index trait htrait)⟩
  exact Option.map_injective (fun _ _ heq => Except.ok.inj heq) ((h.value key).trans (h'.value key).symm)

/-- Only what is below the prefixes counts. -/
theorem Represents.congr
    (hvalue : below m' s.valueDB = below m s.valueDB)
    (hindex : ∀ trait ∈ traits, below m' (s.traitDB hash trait) = below m (s.traitDB hash trait)) :
    Represents hash traits m' s box := by
  refine ⟨fun key => ?_, fun trait htrait => ?_, h.known⟩
  · rw [hvalue]
    exact h.value key
  · rw [hindex trait htrait]
    exact h.index trait htrait

omit h in
theorem represents_empty (h : ∀ key, m key = none) (s : State) :
    Represents hash traits m s Mailbox.empty where
  value key := by
    unfold below
    rw [h]
    rfl
  index _ _ := LinkedDB.holds_nil fun _ => h _
  known _ he := by cases he

/-! ## Reads -/

variable {read : Reader}

omit h in
theorem sound_partOf (h : read.Sound m) (pre : Bytes) :
    Reader.Sound (partOf pre read) (below m pre) := fun key => h (prefixKey pre key)

omit h in
theorem partOf_of (m : Bytes → Option Bytes) (pre : Bytes) : partOf pre (Reader.of m) = Reader.of (below m pre) := rfl

theorem loadValue_of (key : Bytes) :
    s.loadValue (Reader.of m) key =
      match box.entry key with
      | none => .error .notFound
      | some d => .ok d := by
  have hvalue := h.value key
  unfold State.loadValue
  rw [partOf_of]
  rcases hbytes : below m s.valueDB key with _ | valueBytes
  · rw [hbytes, Option.map_none] at hvalue
    rw [Reader.of_none hbytes, Option.map_eq_none_iff.mp hvalue.symm]
    rfl
  · rw [hbytes, Option.map_some] at hvalue
    rcases Option.map_eq_some_iff.mp hvalue.symm with ⟨d, hd, hmarshal⟩
    rw [Reader.of_ok hbytes, hd]
    exact DBElement.packing.unmarshal_marshal hmarshal

/-- A read that does not fail finds what the mailbox has. -/
theorem loadValue_sound (hread : read.Sound m) (key : Bytes) :
    s.loadValue read key = .error .failed ∨
      s.loadValue read key =
        match box.entry key with
        | none => .error .notFound
        | some d => .ok d := by
  rw [← loadValue_of h]
  unfold State.loadValue
  rcases sound_partOf hread s.valueDB key with hfailed | heq
  · rw [hfailed]
    exact .inl rfl
  · rw [heq]
    exact .inr rfl

theorem loadValue_ok (hread : read.Sound m)
    {key : Bytes} {d : DBElement} (hload : s.loadValue read key = .ok d) :
    box.entry key = some d := by
  rcases loadValue_sound h hread key with heq | heq
  · simp [heq] at hload
  · cases hentry : box.entry key <;> simp_all

theorem loadValue_notFound
    (hread : read.Sound m) {key : Bytes} (hload : s.loadValue read key = .error .notFound) :
    box.entry key = none := by
  rcases loadValue_sound h hread key with heq | heq
  · simp [heq] at hload
  · cases hentry : box.entry key <;> simp_all

end Stored

/-! ## Writes -/

section Writes

variable {S : Store Bytes Bytes Range} (law : S.Law Range.Contains) (hash : Hash256) (traits : Set Bytes)

/-- A step changes only what is below the prefixes of a direction, and only in memory. -/
structure Changes (s : State) (v v' : VersionDB S) : Prop where
  db : v'.db = v.db
  elsewhere : ∀ key, s.Elsewhere hash traits key → v'.view law key = v.view law key

variable {law hash traits} {fails : Bytes → Bool} {s : State} {v v' : VersionDB S}

theorem Changes.refl (s : State) (v : VersionDB S) : Changes law hash traits s v v := ⟨rfl, fun _ _ => rfl⟩

theorem Changes.trans {v'' : VersionDB S} (h : Changes law hash traits s v v') (h' : Changes law hash traits s v' v'') :
    Changes law hash traits s v v'' :=
  ⟨h'.db.trans h.db, fun key hkey => (h'.elsewhere key hkey).trans (h.elsewhere key hkey)⟩

theorem sound_reader (law : S.Law Range.Contains) (fails : Bytes → Bool) (v : VersionDB S) :
    (reader fails v).Sound (v.view law) := by
  intro key
  unfold reader Reader.of VersionDB.view
  rcases v.mem.lookup key with _ | w
  · dsimp only
    split
    · exact .inl rfl
    · right
      have hget := law.get_eq v.db key
      generalize law.content v.db key = content at hget ⊢
      cases content <;> simp only [hget]
  · right
    unfold ValueDelete.after
    dsimp only
    cases w.delete <;> rfl

theorem view_writePart (pre : Bytes) (v : VersionDB S) (ops : List (Bytes × Option Bytes)) :
    (writePart pre v ops).view law = overwrite (v.view law) (ops.map fun op => (prefixKey pre op.1, op.2)) :=
  view_write_ops law v _

/-- A write changes no other part. -/
theorem below_writePart_of_ne {pre pre' : Bytes} (v : VersionDB S) (ops : List (Bytes × Option Bytes))
    (hlength : pre.length = pre'.length) (hne : pre ≠ pre') :
    below ((writePart pre v ops).view law) pre' = below (v.view law) pre' := by
  rw [view_writePart]
  funext key
  exact overwrite_elsewhere ops (not_prefix_of_ne hlength hne key)

/-- A change of one key of a database in memory. -/
theorem below_insert (pre key : Bytes) (w : ValueDelete) (v : VersionDB S) :
    below (VersionDB.view law { v with mem := v.mem.insert (prefixKey pre key) w }) pre =
      Function.update (below (v.view law) pre) key w.after := by
  rw [view_insert]
  funext k
  unfold below
  by_cases hk : k = key
  · rw [hk, Function.update_self, Function.update_self]
  · rw [Function.update_of_ne hk, Function.update_of_ne fun h => hk (prefixKey_inj.mp h)]

theorem below_insert_of_ne {pre pre' : Bytes} (key : Bytes) (w : ValueDelete) (v : VersionDB S)
    (hlength : pre.length = pre'.length) (hne : pre ≠ pre') :
    below (VersionDB.view law { v with mem := v.mem.insert (prefixKey pre key) w }) pre' = below (v.view law) pre' := by
  rw [view_insert]
  funext k
  refine Function.update_of_ne (fun heq => ?_) _ _
  exact not_prefix_of_ne hlength hne k (heq ▸ List.prefix_append pre key)

theorem changes_insert (key : Bytes) (w : ValueDelete) (v : VersionDB S) :
    Changes law hash traits s v { v with mem := v.mem.insert (prefixKey s.valueDB key) w } := by
  refine ⟨rfl, fun k hk => ?_⟩
  rw [view_insert]
  refine Function.update_of_ne (fun heq => ?_) _ _
  exact hk.1 (heq ▸ List.prefix_append s.valueDB key)

/-! ## The lists of the traits -/

/-- What a change of a trait's list does to the list. -/
def Turns (change : Reader → Except DBError (List (Bytes × Option Bytes))) (f : List Bytes → List Bytes) : Prop :=
  ∀ ⦃m : Bytes → Option Bytes⦄ ⦃l : List Bytes⦄ ⦃read : Reader⦄ ⦃ops : List (Bytes × Option Bytes)⦄,
    LinkedDB.Holds m l → read.Sound m → change read = .ok ops → LinkedDB.Holds (overwrite m ops) (f l)

variable {change : Reader → Except DBError (List (Bytes × Option Bytes))} {f : List Bytes → List Bytes}

/-- A loop over traits changes the lists of these traits. -/
theorem changeTraits_spec (hturns : Turns change f) (hidem : ∀ l, l.Nodup → f (f l) = f l)
    (hapart : s.Apart hash traits) {ts : List Bytes} (hts : ∀ t ∈ ts, t ∈ traits) {L : Bytes → List Bytes}
    (hL : ∀ t ∈ traits, LinkedDB.Holds (below (v.view law) (s.traitDB hash t)) (L t))
    (h : ts.foldlM (s.changeTrait hash fails change) v = .ok v') :
    (∀ t ∈ traits, LinkedDB.Holds (below (v'.view law) (s.traitDB hash t)) (if t ∈ ts then f (L t) else L t)) ∧
      below (v'.view law) s.valueDB = below (v.view law) s.valueDB ∧ Changes law hash traits s v v' := by
  induction ts generalizing v L with
  | nil =>
    cases h
    exact ⟨fun t ht => by simpa using hL t ht, rfl, .refl s _⟩
  | cons trait ts ih =>
    rcases bind_ok h with ⟨v₁, hv₁, hrest⟩
    rcases bind_ok hv₁ with ⟨ops, hops, hv₁⟩
    cases hv₁
    have htrait := hts trait List.mem_cons_self
    have hlength : ∀ t, (s.traitDB hash trait).length = (s.traitDB hash t).length := fun t => by
      rw [length_traitDB, length_traitDB]
    -- the lists after this trait
    have hL₁ : ∀ t ∈ traits, LinkedDB.Holds
        (below ((writePart (s.traitDB hash trait) v ops).view law) (s.traitDB hash t))
        (if t = trait then f (L t) else L t) := by
      intro t ht
      by_cases heq : t = trait
      · rw [if_pos heq, heq, view_writePart, show below (overwrite _ _) _ = _ from overwrite_below _ _ ops]
        exact hturns (hL trait htrait) (sound_partOf (sound_reader law fails v) _) hops
      · rw [if_neg heq, below_writePart_of_ne v ops (hlength t)
          fun hprefix => heq (hapart.index ht htrait hprefix.symm)]
        exact hL t ht
    rcases ih (fun t ht => hts t (List.mem_cons_of_mem _ ht)) hL₁ hrest with ⟨hlists, hvalue, hchanges⟩
    refine ⟨fun t ht => ?_, ?_, ?_⟩
    · have hlist := hlists t ht
      have hnodup := (hL t ht).nodup
      by_cases heq : t = trait
      · rw [if_pos heq, hidem _ hnodup, ite_self] at hlist
        rw [if_pos (heq ▸ List.mem_cons_self)]
        exact hlist
      · rw [if_neg heq] at hlist
        simpa only [List.mem_cons, heq, false_or] using hlist
    · rw [hvalue]
      exact below_writePart_of_ne v ops (by rw [length_traitDB, hapart.length]) (Ne.symm (hapart.value trait htrait))
    · have hfirst : Changes law hash traits s v (writePart (s.traitDB hash trait) v ops) := by
        refine ⟨rfl, fun key hkey => ?_⟩
        rw [view_writePart]
        exact overwrite_elsewhere ops (hkey.2 trait htrait)
      exact hfirst.trans hchanges

/-! ## Elements -/

theorem passOn_ok {α : Type} {x : Except DBError α} {a : α} (h : passOn x = .ok a) : x = .ok a := by
  cases x with
  | error e => cases h
  | ok b =>
    cases h
    rfl

/-- Writing one entry of the value database leads to the mailbox that differs in this
entry; the lists of the traits are already those of the new mailbox. -/
theorem Represents.write {box box' : Box} {v₁ : VersionDB S} {key : Bytes} {w : ValueDelete} {d : Option DBElement}
    (hapart : s.Apart hash traits) (hrep : Represents hash traits (v.view law) s box)
    (hvalue : below (v₁.view law) s.valueDB = below (v.view law) s.valueDB)
    (hentry : ∀ k, box'.entry k = if k = key then d else box.entry k)
    (hw : w.after.map .ok = d.map DBElement.marshal)
    (hindex : ∀ t ∈ traits, LinkedDB.Holds (below (v₁.view law) (s.traitDB hash t)) (box'.keysWith t))
    (hknown : ∀ e ∈ box'.live, ∀ t ∈ e.traits, t ∈ traits) :
    Represents hash traits (VersionDB.view law { v₁ with mem := v₁.mem.insert (prefixKey s.valueDB key) w }) s box' := by
  refine ⟨fun k => ?_, fun t ht => ?_, hknown⟩
  · rw [hentry, below_insert, hvalue]
    by_cases hk : k = key
    · rw [hk, Function.update_self, if_pos rfl]
      exact hw
    · rw [Function.update_of_ne hk, if_neg hk]
      exact hrep.value k
  · have hlength : s.valueDB.length = (s.traitDB hash t).length := by
      rw [length_traitDB, hapart.length]
    rw [below_insert_of_ne _ _ _ hlength (hapart.value t ht)]
    exact hindex t ht

/-- Putting an element puts it into the mailbox. -/
theorem setValue_spec {box : Box} {e : Element} (hapart : s.Apart hash traits)
    (hrep : Represents hash traits (v.view law) s box) (htraits : ∀ t ∈ e.traits, t ∈ traits)
    (h : s.setValue hash fails v e = .ok v') :
    ∃ box' : Box, box.put e = some box' ∧ Represents hash traits (v'.view law) s box' ∧
      Changes law hash traits s v v' := by
  have hread := sound_reader law fails v
  unfold State.setValue at h
  split at h
  next d hload =>
    have hentry := loadValue_ok hrep hread hload
    split at h
    next hpresent =>
      -- the marker and the put cancel
      cases h
      have hearly : e.key ∈ box.early := by
        rcases Box.entry_eq_some.mp hentry with ⟨e, -, -, rfl⟩ | h
        · cases hpresent
        · exact h.1
      exact ⟨box.forget e.key, by unfold Mailbox.put; rw [dif_pos hearly],
        hrep.write hapart rfl (Box.entry_forget hearly) rfl hrep.index hrep.known, changes_insert _ _ _⟩
    next => cases h
  next hload =>
    rcases Box.notMem_of_entry (loadValue_notFound hrep hread hload) with ⟨hlive, hearly⟩
    rcases bind_ok h with ⟨v₁, hloop, h⟩
    rcases bind_ok h with ⟨valueBytes, hmarshal, h⟩
    cases h
    rcases changeTraits_spec (fun _ _ _ _ hm hread hput => hm.put hread hput) (fun l _ => by by_cases hl : e.key ∈ l <;> simp [hl]) hapart htraits
      hrep.index (passOn_ok hloop) with ⟨hlists, hvalue, hchanges⟩
    refine ⟨box.add e hearly hlive, by unfold Mailbox.put; rw [dif_neg hearly, dif_neg hlive],
      hrep.write hapart hvalue (Box.entry_add hearly hlive) ?_ ?_ ?_, hchanges.trans (changes_insert _ _ _)⟩
    · rw [Option.map_some, passOn_ok hmarshal]
      rfl
    · intro t ht
      have hnew : e.key ∉ box.keysWith t := fun hmem => hlive ((List.filter_sublist.map Element.key).mem hmem)
      have hlist := hlists t ht
      rw [if_neg hnew] at hlist
      unfold Box.keysWith Mailbox.add at *
      by_cases h : t ∈ e.traits <;> simpa [h] using hlist
    · intro x hx
      rcases List.mem_cons.mp hx with rfl | hx
      · exact htraits
      · exact hrep.known x hx
  next => cases h

/-- Removing an element removes it from the mailbox. -/
theorem removeValue_spec {box : Box} {key : Bytes} (hapart : s.Apart hash traits)
    (hrep : Represents hash traits (v.view law) s box) (h : s.removeValue hash fails v key = .ok v') :
    ∃ box' : Box, box.remove key = some box' ∧ Represents hash traits (v'.view law) s box' ∧
      Changes law hash traits s v v' := by
  have hread := sound_reader law fails v
  unfold State.removeValue at h
  split at h
  next hload =>
    rcases Box.notMem_of_entry (loadValue_notFound hrep hread hload) with ⟨hlive, hearly⟩
    rcases bind_ok h with ⟨valueBytes, hmarshal, h⟩
    cases h
    refine ⟨box.remember key hlive, by unfold Mailbox.remove; rw [if_neg hearly, dif_neg hlive],
      hrep.write hapart rfl (Box.entry_remember hlive) ?_ hrep.index hrep.known, changes_insert _ _ _⟩
    rw [Option.map_some, passOn_ok hmarshal]
    rfl
  next => cases h
  next d hload =>
    have hentry := loadValue_ok hrep hread hload
    split at h
    next => cases h
    next hpresent =>
      obtain ⟨e, he, rfl, rfl⟩ := (Box.entry_eq_some.mp hentry).resolve_right (by rintro ⟨-, rfl⟩; exact hpresent rfl)
      have hlive : e.key ∈ box.live.map Element.key := List.mem_map_of_mem he
      have hearly := box.apart e he
      rcases bind_ok h with ⟨v₁, hloop, h⟩
      cases h
      rcases changeTraits_spec (fun _ _ _ _ hm hread hdelete => hm.delete hread hdelete) (fun l hl => List.erase_of_not_mem hl.not_mem_erase) hapart
        (hrep.known e he) hrep.index (passOn_ok hloop) with ⟨hlists, hvalue, hchanges⟩
      refine ⟨box.take e.key, by unfold Mailbox.remove; rw [if_neg hearly, dif_pos hlive],
        hrep.write hapart hvalue (Box.entry_take hearly) rfl ?_
          (fun x hx => hrep.known x (List.mem_of_mem_filter hx)), hchanges.trans (changes_insert _ _ _)⟩
      intro t ht
      rw [Box.keysWith_take]
      have hlist := hlists t ht
      split at hlist
      next => exact hlist
      next htrait =>
        -- the key is not in the lists of other traits
        have hnot : e.key ∉ box.keysWith t := fun hmem => htrait ((Box.key_mem_keysWith he).mp hmem)
        rw [List.erase_of_not_mem hnot]
        exact hlist

end Writes

end Titan.Shared
