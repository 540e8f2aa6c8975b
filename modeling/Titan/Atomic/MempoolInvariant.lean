import Titan.Atomic.Mempool

/-!
# Titan.Atomic.MempoolInvariant — one status for each transaction

The mempool stands for three sets of transactions (`Pool`): Pending, Current and
Issued. `Mempool.For` says that all collections agree with those sets, and each
operation is described by what it does to them.

Deleting the spender entries of a transaction goes by input and not by owner.
That is right for a transaction that shares no input with another one in the
mempool, and this is what the operations are shown to need (`Pool.Clear`): for
transactions taken from the mempool it always holds, for one that is passed to
`RemoveTx` from a block it may fail.
-/

namespace Titan.Atomic

open Lib
open PChain (ID GoMap)

/-! ## One heap -/

/-- What an entry is, apart from its position. -/
def TxEntry.content (e : TxEntry) : ID × ℕ × Tx := (e.id, e.gasPrice, e.tx)

/-- The entries are those of the transactions in `S`, each with its price. -/
structure Content (env : Env) (c : List (ID × ℕ × Tx)) (S : Finset Tx) : Prop where
  id_eq : ∀ x ∈ c, x.1 = x.2.2.id
  price : ∀ x ∈ c, effectiveGasPrice x.2.2 env.avaxAssetID true = .ok x.2.1
  nodup : (c.map (·.2.2)).Nodup
  mem_iff : ∀ tx, tx ∈ S ↔ ∃ x ∈ c, x.2.2 = tx

namespace Content

variable {env : Env} {c c' : List (ID × ℕ × Tx)} {S : Finset Tx}

theorem of_perm (h : Content env c S) (hp : c'.Perm c) : Content env c' S where
  id_eq x hx := h.id_eq x (hp.mem_iff.mp hx)
  price x hx := h.price x (hp.mem_iff.mp hx)
  nodup := (hp.map _).nodup_iff.mpr h.nodup
  mem_iff tx := (h.mem_iff tx).trans (exists_congr (fun _ => and_congr_left' hp.mem_iff.symm))

theorem length_eq (h : Content env c S) : c.length = S.card := by
  have hS : S = (c.map (·.2.2)).toFinset := by
    ext tx
    rw [h.mem_iff, List.mem_toFinset, List.mem_map]
  rw [hS, List.toFinset_card_of_nodup h.nodup, List.length_map]

theorem cons (h : Content env c S) {tx : Tx} {price : ℕ} (hnew : tx ∉ S)
    (hprice : effectiveGasPrice tx env.avaxAssetID true = .ok price) :
    Content env ((tx.id, price, tx) :: c) (insert tx S) where
  id_eq x hx := by
    rcases List.mem_cons.mp hx with rfl | hx
    · rfl
    · exact h.id_eq x hx
  price x hx := by
    rcases List.mem_cons.mp hx with rfl | hx
    · exact hprice
    · exact h.price x hx
  nodup := by
    rw [List.map_cons, List.nodup_cons]
    refine ⟨fun hmem => hnew ?_, h.nodup⟩
    rcases List.mem_map.mp hmem with ⟨x, hx, heq⟩
    exact (h.mem_iff tx).mpr ⟨x, hx, heq⟩
  mem_iff t := by
    rw [Finset.mem_insert, h.mem_iff]
    constructor
    · rintro (rfl | ⟨x, hx, rfl⟩)
      · exact ⟨_, List.mem_cons_self, rfl⟩
      · exact ⟨x, List.mem_cons_of_mem _ hx, rfl⟩
    · rintro ⟨x, hx, rfl⟩
      rcases List.mem_cons.mp hx with rfl | hx
      · exact .inl rfl
      · exact .inr ⟨x, hx, rfl⟩

theorem of_cons {x : ID × ℕ × Tx} (h : Content env (x :: c) S) : Content env c (S.erase x.2.2) where
  id_eq y hy := h.id_eq y (List.mem_cons_of_mem _ hy)
  price y hy := h.price y (List.mem_cons_of_mem _ hy)
  nodup := (List.nodup_cons.mp h.nodup).2
  mem_iff t := by
    have hnot := (List.nodup_cons.mp h.nodup).1
    rw [Finset.mem_erase, h.mem_iff]
    constructor
    · rintro ⟨hne, y, hy, rfl⟩
      rcases List.mem_cons.mp hy with rfl | hy
      · exact absurd rfl hne
      · exact ⟨y, hy, rfl⟩
    · rintro ⟨y, hy, rfl⟩
      exact ⟨fun heq => hnot (List.mem_map.mpr ⟨y, hy, heq⟩), y, List.mem_cons_of_mem _ hy, rfl⟩

end Content

theorem maxOps_lawful : maxOps.Lawful where
  asymm {a b} h := by simp only [maxOps, decide_eq_true_eq, decide_eq_false_iff_not] at *; omega
  trans {a b c} h h' := by simp only [maxOps, decide_eq_false_iff_not] at *; omega
  place_left _ _ _ := rfl
  place_right _ _ _ := rfl

theorem minOps_lawful : minOps.Lawful where
  asymm {a b} h := by simp only [minOps, decide_eq_true_eq, decide_eq_false_iff_not] at *; omega
  trans {a b c} h h' := by simp only [minOps, decide_eq_false_iff_not] at *; omega
  place_left _ _ _ := rfl
  place_right _ _ _ := rfl

/-- A heap over the transactions in `S`. -/
structure Heaped (env : Env) (H : HeapOps TxEntry) (items : List TxEntry) (S : Finset Tx) : Prop where
  heap : H.Heap (fun i e => e.index = i) items
  content : Content env (items.map TxEntry.content) S

namespace Heaped

variable {env : Env} {H : HeapOps TxEntry} {items : List TxEntry} {S : Finset Tx}

section

variable (h : Heaped env H items S)
include h

theorem length_eq : items.length = S.card := by
  rw [← h.content.length_eq, List.length_map]

theorem mem_iff (tx : Tx) : tx ∈ S ↔ ∃ e ∈ items, e.tx = tx := by
  rw [h.content.mem_iff]
  constructor
  · rintro ⟨x, hx, rfl⟩
    rcases List.mem_map.mp hx with ⟨e, he, rfl⟩
    exact ⟨e, he, rfl⟩
  · rintro ⟨e, he, rfl⟩
    exact ⟨e.content, List.mem_map.mpr ⟨e, he, rfl⟩, rfl⟩

theorem id_eq {e : TxEntry} (he : e ∈ items) : e.id = e.tx.id :=
  h.content.id_eq e.content (List.mem_map.mpr ⟨e, he, rfl⟩)

theorem price {e : TxEntry} (he : e ∈ items) :
    effectiveGasPrice e.tx env.avaxAssetID true = .ok e.gasPrice :=
  h.content.price e.content (List.mem_map.mpr ⟨e, he, rfl⟩)

/-- A lookup finds the transaction with the ID, if there is one. -/
theorem heapGet_cases (id : ID) :
    (heapGet items id = none ∧ ∀ tx ∈ S, tx.id ≠ id) ∨
      ∃ e ∈ items, heapGet items id = some e ∧ e.tx ∈ S ∧ e.tx.id = id := by
  cases hget : heapGet items id with
  | none =>
    left
    refine ⟨rfl, fun tx htx hid => ?_⟩
    rcases (h.mem_iff tx).mp htx with ⟨e, he, rfl⟩
    have hno := List.find?_eq_none.mp hget e he
    simp only [decide_eq_true_eq] at hno
    exact hno ((h.id_eq he).trans hid)
  | some e =>
    right
    have he := List.mem_of_find?_eq_some hget
    have hid := List.find?_some hget
    simp only [decide_eq_true_eq] at hid
    exact ⟨e, he, rfl, (h.mem_iff _).mpr ⟨e, he, rfl⟩, (h.id_eq he).symm.trans hid⟩

end

section Operations

variable (hH : H.Lawful) (hplace : ∀ i e, H.place i e = { e with index := i })
include hH hplace

omit hH in
theorem index_place (i : ℕ) (e : TxEntry) : (H.place i e).index = i := by
  rw [hplace]

omit hH in
theorem content_place (i : ℕ) (e : TxEntry) : (H.place i e).content = e.content := by
  rw [hplace]
  rfl

theorem push (h : Heaped env H items S) {tx : Tx} {price : ℕ} (hnew : ∀ t ∈ S, t.id ≠ tx.id)
    (hprice : effectiveGasPrice tx env.avaxAssetID true = .ok price) :
    Heaped env H (heapPush H items ⟨tx.id, price, tx, items.length⟩) (insert tx S) := by
  have hnone : heapGet items tx.id = none := by
    rcases h.heapGet_cases tx.id with ⟨hnone, -⟩ | ⟨e, -, -, hS, hid⟩
    · exact hnone
    · exact absurd hid (hnew _ hS)
  unfold heapPush
  rw [hnone]
  rcases h.heap.push hH (index_place hplace) (content_place hplace)
    (a := ⟨tx.id, price, tx, items.length⟩) rfl with ⟨hheap, hperm⟩
  refine ⟨hheap, ?_⟩
  exact (h.content.cons (fun hS => hnew tx hS rfl) hprice).of_perm hperm

theorem remove (h : Heaped env H items S) {e : TxEntry} (he : e ∈ items) :
    Heaped env H (H.remove items e.index).1 (S.erase e.tx) ∧
      (H.remove items e.index).2.map (·.tx) = some e.tx := by
  rcases List.mem_iff_getElem?.mp he with ⟨i, hi⟩
  rw [h.heap.placed i e hi]
  rcases h.heap.remove hH (index_place hplace) (content_place hplace) hi with
    ⟨hheap, hperm, b, hb, hcontent⟩
  constructor
  · exact ⟨hheap, (h.content.of_perm hperm).of_cons⟩
  · rw [hb]
    exact congrArg (fun x : ID × ℕ × Tx => some x.2.2) hcontent

end Operations

end Heaped

/-! ## Both heaps -/

/-- Everything but the transaction with an ID. -/
def without (S : Finset Tx) (id : ID) : Finset Tx := S.filter (fun t => t.id ≠ id)

variable {id : ID} {t : Tx}

variable {S : Finset Tx}

@[simp] theorem mem_without :
    t ∈ without S id ↔ t ∈ S ∧ t.id ≠ id := Finset.mem_filter

theorem without_eq_self (h : ∀ t ∈ S, t.id ≠ id) : without S id = S :=
  Finset.filter_true_of_mem h

theorem erase_eq_without (hinj : Set.InjOn Tx.id (S : Set Tx)) (ht : t ∈ S) :
    S.erase t = without S t.id := by
  ext t'
  rw [Finset.mem_erase, mem_without]
  constructor
  · rintro ⟨hne, ht'⟩
    exact ⟨ht', fun hid => hne (hinj ht' ht hid)⟩
  · rintro ⟨ht', hid⟩
    exact ⟨fun heq => hid (heq ▸ rfl), ht'⟩

/-- Both heaps are over the transactions in `S`. -/
structure Pending (env : Env) (th : TxHeap) (S : Finset Tx) : Prop where
  max : Heaped env maxOps th.maxHeap S
  min : Heaped env minOps th.minHeap S

namespace Pending

variable {env : Env} {th : TxHeap} {S : Finset Tx} (h : Pending env th S)
include h

theorem len_eq : th.len = S.card := h.max.length_eq

theorem get_isSome_iff (id : ID) : (th.get id).isSome ↔ ∃ tx ∈ S, tx.id = id := by
  unfold TxHeap.get
  rcases h.max.heapGet_cases id with ⟨hnone, hno⟩ | ⟨e, -, hsome, hS, hid⟩
  · rw [hnone]
    simp only [Option.map_none, Option.isSome_none, Bool.false_eq_true, false_iff]
    rintro ⟨tx, htx, hid⟩
    exact hno tx htx hid
  · rw [hsome]
    simp only [Option.map_some, Option.isSome_some, true_iff]
    exact ⟨e.tx, hS, hid⟩

section

variable (hinj : Set.InjOn Tx.id (S : Set Tx))
include hinj

theorem get_iff (tx : Tx) :
    th.get tx.id = some tx ↔ tx ∈ S := by
  unfold TxHeap.get
  rcases h.max.heapGet_cases tx.id with ⟨hnone, hno⟩ | ⟨e, -, hsome, hS, hid⟩
  · rw [hnone]
    constructor
    · exact nofun
    · exact fun htx => absurd rfl (hno tx htx)
  · rw [hsome]
    constructor
    · intro heq
      rw [← Option.some.inj heq]
      exact hS
    · intro htx
      rw [Option.map_some, hinj hS htx hid]

omit hinj in
theorem push {tx : Tx} {price : ℕ} (hnew : ∀ t ∈ S, t.id ≠ tx.id)
    (hprice : effectiveGasPrice tx env.avaxAssetID true = .ok price) :
    Pending env (th.push tx price) (insert tx S) := by
  have hmax := h.max.push maxOps_lawful (fun _ _ => rfl) hnew hprice
  have hmin := h.min.push minOps_lawful (fun _ _ => rfl) hnew hprice
  rw [h.min.length_eq, ← h.len_eq] at hmin
  exact ⟨hmax, hmin⟩

theorem remove_mem {tx : Tx} (htx : tx ∈ S) :
    Pending env (th.remove tx.id).1 (without S tx.id) ∧ (th.remove tx.id).2 = some tx := by
  rcases h.max.heapGet_cases tx.id with ⟨-, hno⟩ | ⟨e, he, hsome, hS, hid⟩
  · exact absurd rfl (hno tx htx)
  rcases h.min.heapGet_cases tx.id with ⟨-, hno⟩ | ⟨e', he', hsome', hS', hid'⟩
  · exact absurd rfl (hno tx htx)
  have heq : e.tx = tx := hinj hS htx hid
  have heq' : e'.tx = tx := hinj hS' htx hid'
  rcases h.max.remove maxOps_lawful (fun _ _ => rfl) he with ⟨hmax, -⟩
  rcases h.min.remove minOps_lawful (fun _ _ => rfl) he' with ⟨hmin, hret⟩
  rw [heq, erase_eq_without hinj htx] at hmax
  rw [heq', erase_eq_without hinj htx] at hmin
  rw [heq'] at hret
  unfold TxHeap.remove
  rw [hsome, hsome']
  exact ⟨⟨hmax, hmin⟩, hret⟩

theorem remove (id : ID) :
    Pending env (th.remove id).1 (without S id) := by
  by_cases hex : ∃ tx ∈ S, tx.id = id
  · rcases hex with ⟨tx, htx, rfl⟩
    exact (h.remove_mem hinj htx).1
  · have hno : ∀ tx ∈ S, tx.id ≠ id := fun tx htx hid => hex ⟨tx, htx, hid⟩
    have hnone : heapGet th.maxHeap id = none := by
      rcases h.max.heapGet_cases id with ⟨hnone, -⟩ | ⟨e, -, -, hS, hid⟩
      · exact hnone
      · exact absurd hid (hno _ hS)
    unfold TxHeap.remove
    rw [hnone, without_eq_self hno]
    exact h

/-- The transaction popped has the highest price. -/
theorem popMax (hne : S.Nonempty) :
    ∃ tx ∈ S, th.popMax.2 = some tx ∧ Pending env th.popMax.1 (without S tx.id) ∧
      ∀ t ∈ S, ∀ p q, effectiveGasPrice t env.avaxAssetID true = .ok p →
        effectiveGasPrice tx env.avaxAssetID true = .ok q → p ≤ q := by
  have hlen : 0 < th.maxHeap.length := by
    rw [h.max.length_eq]
    exact hne.card_pos
  have hroot := List.getElem?_eq_getElem hlen
  have hmem := List.getElem_mem hlen
  generalize th.maxHeap[0] = e at hroot hmem
  have hS : e.tx ∈ S := (h.max.mem_iff _).mpr ⟨e, hmem, rfl⟩
  have hremove := h.remove_mem hinj hS
  unfold TxHeap.popMax
  rw [hroot]
  dsimp only
  rw [h.max.id_eq hmem]
  refine ⟨e.tx, hS, hremove.2, hremove.1, ?_⟩
  intro t ht p q hp hq
  rcases (h.max.mem_iff t).mp ht with ⟨e', he', rfl⟩
  rcases List.mem_iff_getElem?.mp he' with ⟨i, hi⟩
  have hle := h.max.heap.ordered.root_le maxOps_lawful (Nat.le_refl _)
    (List.getElem?_eq_some_iff.mp hi).1 e e' hroot hi
  rw [h.max.price he'] at hp
  rw [h.max.price hmem] at hq
  simp only [maxOps, decide_eq_false_iff_not] at hle
  have hp' := Except.ok.inj hp
  have hq' := Except.ok.inj hq
  omega

end

theorem peekMin (hne : S.Nonempty) : ∃ tx ∈ S, ∃ price, th.peekMin = some (tx, price) := by
  have hlen : 0 < th.minHeap.length := by
    rw [h.min.length_eq]
    exact hne.card_pos
  refine ⟨th.minHeap[0].tx, (h.min.mem_iff _).mpr ⟨_, List.getElem_mem hlen, rfl⟩,
    th.minHeap[0].gasPrice, ?_⟩
  unfold TxHeap.peekMin
  rw [List.getElem?_eq_getElem hlen]
  rfl

end Pending

/-! ## Maps -/

/-- The map holds the transactions in `S` under their IDs. -/
def Maps (map : GoMap ID Tx) (S : Finset Tx) : Prop :=
  ∀ id tx, map.lookup id = some tx ↔ tx ∈ S ∧ tx.id = id

namespace Maps

variable {map : GoMap ID Tx} {S : Finset Tx} (h : Maps map S)
include h

theorem length_eq (hinj : Set.InjOn Tx.id (S : Set Tx)) : map.keys.length = S.card := by
  have hkeys : map.keys.toFinset = S.image Tx.id := by
    ext id
    rw [List.mem_toFinset, Finset.mem_image, ← AList.mem_keys, ← AList.lookup_isSome,
      Option.isSome_iff_exists]
    exact exists_congr (fun tx => h id tx)
  rw [← Finset.card_image_of_injOn hinj, ← hkeys, List.toFinset_card_of_nodup map.keys_nodup]

theorem lookup_isSome_iff (id : ID) : (map.lookup id).isSome ↔ ∃ tx ∈ S, tx.id = id := by
  rw [Option.isSome_iff_exists]
  exact exists_congr (fun tx => h id tx)

theorem insert {tx : Tx} (hnew : ∀ t ∈ S, t.id ≠ tx.id) :
    Maps (map.insert tx.id tx) (insert tx S) := by
  intro id t
  rw [Finset.mem_insert]
  by_cases hid : id = tx.id
  · subst hid
    rw [AList.lookup_insert]
    constructor
    · intro heq
      rw [← Option.some.inj heq]
      exact ⟨.inl rfl, rfl⟩
    · rintro ⟨rfl | ht, hid⟩
      · rfl
      · exact absurd hid (hnew t ht)
  · rw [AList.lookup_insert_ne hid, h]
    constructor
    · rintro ⟨ht, rfl⟩
      exact ⟨.inr ht, rfl⟩
    · rintro ⟨rfl | ht, rfl⟩
      · exact absurd rfl hid
      · exact ⟨ht, rfl⟩

theorem erase (id : ID) : Maps (map.erase id) (without S id) := by
  intro id' t
  rw [mem_without]
  by_cases hid : id' = id
  · subst hid
    rw [AList.lookup_erase]
    constructor
    · exact nofun
    · rintro ⟨⟨-, hne⟩, heq⟩
      exact absurd heq hne
  · rw [AList.lookup_erase_ne hid, h]
    constructor
    · rintro ⟨ht, rfl⟩
      exact ⟨⟨ht, hid⟩, rfl⟩
    · rintro ⟨⟨ht, -⟩, heq⟩
      exact ⟨ht, heq⟩

end Maps

theorem lookup_foldl_erase (l : List ID) (s : GoMap ID Tx) (u : ID) :
    (l.foldl (fun s u => s.erase u) s).lookup u = if u ∈ l then none else s.lookup u := by
  induction l generalizing s with
  | nil => simp
  | cons a l ih =>
    rw [List.foldl_cons, ih]
    by_cases hua : u = a
    · subst hua
      simp [AList.lookup_erase]
    · simp [hua, AList.lookup_erase_ne hua]

theorem lookup_foldl_insert (l : List ID) (s : GoMap ID Tx) (tx : Tx) (u : ID) :
    (l.foldl (fun s u => s.insert u tx) s).lookup u = if u ∈ l then some tx else s.lookup u := by
  induction l generalizing s with
  | nil => simp
  | cons a l ih =>
    rw [List.foldl_cons, ih]
    by_cases hua : u = a
    · subst hua
      simp [AList.lookup_insert]
    · simp [hua, AList.lookup_insert_ne hua]

namespace Cache

variable {c : Cache} {x : ID × Tx}

theorem mem_evict : x ∈ c.evict id ↔ x ∈ c ∧ x.1 ≠ id := by
  simp [evict]

theorem mem_put {tx : Tx} (h : x ∈ c.put id tx) : x ∈ c ∨ x = (id, tx) := by
  rcases List.mem_append.mp h with h | h
  · left
    have hmem := (mem_evict.mp h).1
    split at hmem
    next => exact List.mem_of_mem_tail hmem
    next => exact hmem
  · exact .inr (List.mem_singleton.mp h)

theorem mem_touch (h : x ∈ c.touch id) : x ∈ c := by
  unfold touch at h
  split at h
  next => exact h
  next tx hget =>
    rcases List.mem_append.mp h with h | h
    · exact (mem_evict.mp h).1
    · rw [List.mem_singleton.mp h]
      rcases Option.map_eq_some_iff.mp hget with ⟨y, hy, rfl⟩
      have hid := List.find?_some hy
      simp only [decide_eq_true_eq] at hid
      rw [← hid]
      exact List.mem_of_find?_eq_some hy

theorem get_isSome_iff : (c.get id).isSome ↔ ∃ x ∈ c, x.1 = id := by
  simp [get]

end Cache

/-! ## The whole mempool -/

/-- The transactions of a mempool by status. -/
structure Pool where
  pending : Finset Tx
  current : Finset Tx
  issued : Finset Tx

namespace Pool

def live (p : Pool) : Finset Tx := p.pending ∪ p.current ∪ p.issued

def remove (p : Pool) (id : ID) : Pool where
  pending := without p.pending id
  current := without p.current id
  issued := without p.issued id

theorem mem_live {p : Pool} : t ∈ p.live ↔ t ∈ p.pending ∨ t ∈ p.current ∨ t ∈ p.issued := by
  simp [live]

@[simp] theorem live_remove (p : Pool) (id : ID) : (p.remove id).live = without p.live id := by
  ext t
  simp only [mem_live, remove, mem_without]
  tauto

/-- No other transaction of the pool shares an input with `tx`. -/
def Clear (env : Env) (p : Pool) (tx : Tx) : Prop :=
  ∀ t ∈ p.live, t.id ≠ tx.id → ∀ u ∈ tx.inputUTXOs env.inputID, u ∉ t.inputUTXOs env.inputID

end Pool

variable {tx : Tx}

/-- A transaction moves from one of three collections to the second. -/
theorem moved {A B C : Finset Tx} (hinj : Set.InjOn Tx.id (A : Set Tx)) (htx : tx ∈ A)
    (hAB : Disjoint A B) (hAC : Disjoint A C) (hBC : Disjoint B C) :
    Disjoint (without A tx.id) (insert tx B) ∧ Disjoint (without A tx.id) C ∧ Disjoint (insert tx B) C ∧
      without A tx.id ∪ insert tx B = A ∪ B := by
  refine ⟨?_, hAC.mono_left (Finset.filter_subset _ _), ?_, ?_⟩
  · rw [Finset.disjoint_insert_right, mem_without]
    exact ⟨fun hmem => hmem.2 rfl, hAB.mono_left (Finset.filter_subset _ _)⟩
  · rw [Finset.disjoint_insert_left]
    exact ⟨Finset.disjoint_left.mp hAC htx, hBC⟩
  · rw [← erase_eq_without hinj htx, Finset.union_insert, ← Finset.insert_union, Finset.insert_erase htx]

/-- A mempool of capacity `n` stands for the pool. `U` are the transactions that occur
at all. -/
structure Mempool.For (env : Env) (U : Set Tx) (n : ℕ) (m : Mempool) (p : Pool) : Prop where
  pending : Pending env m.pendingTxs p.pending
  current : Maps m.currentTxs p.current
  issued : Maps m.issuedTxs p.issued
  spenders : ∀ u tx, m.utxoSpenders.lookup u = some tx ↔
    tx ∈ p.live ∧ u ∈ tx.inputUTXOs env.inputID
  pending_current : Disjoint p.pending p.current
  pending_issued : Disjoint p.pending p.issued
  current_issued : Disjoint p.current p.issued
  known : ∀ tx ∈ p.live, tx ∈ U
  discarded : ∀ x ∈ m.discardedTxs, ∀ tx ∈ p.live, tx.id ≠ x.1
  maxSize : m.maxSize = n
  size : p.live.card ≤ n

namespace Mempool.For

variable {env : Env} {U : Set Tx} {n : ℕ} (hU : U.InjOn Tx.id) {m : Mempool} {p : Pool}
  (h : m.For env U n p)
include hU h

theorem eq_of_id {t' : Tx} (ht : t ∈ p.live) (ht' : t' ∈ U) (hid : t.id = t'.id) : t = t' :=
  hU (h.known t ht) ht' hid

theorem injOn (hS : ∀ t ∈ S, t ∈ p.live) : Set.InjOn Tx.id (S : Set Tx) :=
  fun t ht t' ht' hid => h.eq_of_id hU (hS t ht) (h.known t' (hS t' ht')) hid

theorem injOn_pending : Set.InjOn Tx.id (p.pending : Set Tx) :=
  h.injOn hU (fun _ ht => Pool.mem_live.mpr (.inl ht))

theorem injOn_current : Set.InjOn Tx.id (p.current : Set Tx) :=
  h.injOn hU (fun _ ht => Pool.mem_live.mpr (.inr (.inl ht)))

theorem injOn_issued : Set.InjOn Tx.id (p.issued : Set Tx) :=
  h.injOn hU (fun _ ht => Pool.mem_live.mpr (.inr (.inr ht)))

theorem length_eq : m.length = p.live.card := by
  unfold Mempool.length Pool.live
  rw [h.pending.len_eq, h.current.length_eq (h.injOn_current hU),
    h.issued.length_eq (h.injOn_issued hU),
    Finset.card_union_of_disjoint, Finset.card_union_of_disjoint h.pending_current]
  rw [Finset.disjoint_union_left]
  exact ⟨h.pending_issued, h.current_issued⟩

omit hU in
/-- A transaction of the pool shares no input with another one. -/
theorem clear_of_live (htx : tx ∈ p.live) : p.Clear env tx := by
  intro t ht hid u hu hu'
  have h₁ := (h.spenders u tx).mpr ⟨htx, hu⟩
  have h₂ := (h.spenders u t).mpr ⟨ht, hu'⟩
  rw [Option.some.inj (h₁.symm.trans h₂)] at hid
  exact hid rfl

/-- The spender entries after those of a transaction are deleted. -/
theorem removeSpenders (htx : tx ∈ U) (hclear : p.Clear env tx) (u : ID) (t : Tx) :
    (m.removeSpenders env tx).utxoSpenders.lookup u = some t ↔
      t ∈ (p.remove tx.id).live ∧ u ∈ t.inputUTXOs env.inputID := by
  unfold Mempool.removeSpenders
  rw [lookup_foldl_erase, Pool.live_remove, mem_without]
  by_cases hu : u ∈ tx.inputUTXOs env.inputID
  · rw [if_pos hu]
    constructor
    · exact nofun
    · rintro ⟨⟨ht, hid⟩, hut⟩
      exact absurd hut (hclear t ht hid u hu)
  · rw [if_neg hu, h.spenders]
    constructor
    · rintro ⟨ht, hut⟩
      refine ⟨⟨ht, fun hid => hu ?_⟩, hut⟩
      rw [← h.eq_of_id hU ht htx hid]
      exact hut
    · rintro ⟨⟨ht, -⟩, hut⟩
      exact ⟨ht, hut⟩

variable {currentTxs issuedTxs : GoMap ID Tx}

/-- A transaction leaves the pool: its ID leaves the three collections, its spender
entries are deleted, and at most it becomes Discarded. -/
theorem drop (htx : tx ∈ U) (hclear : p.Clear env tx) {th : TxHeap} {c : Cache}
    (hpending : Pending env th (without p.pending tx.id))
    (hcurrent : Maps currentTxs (without p.current tx.id))
    (hissued : Maps issuedTxs (without p.issued tx.id))
    (hc : ∀ x ∈ c, x ∈ m.discardedTxs ∨ x = (tx.id, tx)) :
    Mempool.For env U n ⟨m.maxSize, th, currentTxs, issuedTxs,
      (m.removeSpenders env tx).utxoSpenders, c⟩ (p.remove tx.id) := by
  have hsub : ∀ {S : Finset Tx}, without S tx.id ≤ S := fun {S} => Finset.filter_subset _ S
  refine ⟨hpending, hcurrent, hissued, h.removeSpenders hU htx hclear,
    h.pending_current.mono hsub hsub, h.pending_issued.mono hsub hsub,
    h.current_issued.mono hsub hsub, ?_, ?_, h.maxSize, ?_⟩
  · intro t ht
    rw [Pool.live_remove, mem_without] at ht
    exact h.known t ht.1
  · intro x hx t ht
    rw [Pool.live_remove, mem_without] at ht
    rcases hc x hx with hx | rfl
    · exact h.discarded x hx t ht.1
    · exact ht.2
  · rw [Pool.live_remove]
    exact (Finset.card_le_card hsub).trans h.size

/-- Removing a transaction, wherever it is. -/
theorem removeTx (htx : tx ∈ U) (hclear : p.Clear env tx) (discard : Bool) :
    (m.removeTx env tx discard).For env U n (p.remove tx.id) := by
  have hpending := h.pending.remove (h.injOn_pending hU) tx.id
  have hcurrent := h.current.erase tx.id
  have hissued := h.issued.erase tx.id
  unfold Mempool.removeTx
  split
  next => exact h.drop hU htx hclear hpending hcurrent hissued (fun x hx => Cache.mem_put hx)
  next =>
    exact h.drop hU htx hclear hpending hcurrent hissued
      (fun x hx => .inl (Cache.mem_evict.mp hx).1)

omit hU in
/-- A new transaction that shares no input with the pool becomes Pending. -/
theorem insertTx {price : ℕ} {order : List ID} (htx : tx ∈ U) (hnew : ∀ t ∈ p.live, t.id ≠ tx.id)
    (hclear : p.Clear env tx) (hprice : effectiveGasPrice tx env.avaxAssetID true = .ok price)
    (horder : order.Perm (tx.inputUTXOs env.inputID)) (hroom : p.live.card < n) :
    (m.insertTx tx price order).For env U n ⟨insert tx p.pending, p.current, p.issued⟩ := by
  have hnotin : ∀ {S : Finset Tx}, (∀ t ∈ S, t ∈ p.live) → tx ∉ S :=
    fun hS htx' => hnew tx (hS tx htx') rfl
  have hcurrent := hnotin (S := p.current) (fun t ht => Pool.mem_live.mpr (.inr (.inl ht)))
  have hissued := hnotin (S := p.issued) (fun t ht => Pool.mem_live.mpr (.inr (.inr ht)))
  have hlive : (⟨insert tx p.pending, p.current, p.issued⟩ : Pool).live = insert tx p.live := by
    simp only [Pool.live, Finset.insert_union]
  refine ⟨?_, h.current, h.issued, ?_, ?_, ?_, h.current_issued, ?_, ?_, h.maxSize, ?_⟩
  · exact h.pending.push (fun t ht => hnew t (Pool.mem_live.mpr (.inl ht))) hprice
  · intro u t
    unfold Mempool.insertTx
    simp only [lookup_foldl_insert, hlive, Finset.mem_insert, horder.mem_iff]
    by_cases hu : u ∈ tx.inputUTXOs env.inputID
    · rw [if_pos hu]
      constructor
      · intro heq
        rw [← Option.some.inj heq]
        exact ⟨.inl rfl, hu⟩
      · rintro ⟨rfl | ht, hut⟩
        · rfl
        · exact absurd hut (hclear t ht (hnew t ht) u hu)
    · rw [if_neg hu, h.spenders]
      constructor
      · rintro ⟨ht, hut⟩
        exact ⟨.inr ht, hut⟩
      · rintro ⟨rfl | ht, hut⟩
        · exact absurd hut hu
        · exact ⟨ht, hut⟩
  · rw [Finset.disjoint_insert_left]
    exact ⟨hcurrent, h.pending_current⟩
  · rw [Finset.disjoint_insert_left]
    exact ⟨hissued, h.pending_issued⟩
  · intro t ht
    rw [hlive, Finset.mem_insert] at ht
    rcases ht with rfl | ht
    · exact htx
    · exact h.known t ht
  · intro x hx t ht
    have hx' := Cache.mem_evict.mp hx
    rw [hlive, Finset.mem_insert] at ht
    rcases ht with rfl | ht
    · exact Ne.symm hx'.2
    · exact h.discarded x hx'.1 t ht
  · rw [hlive]
    exact (Finset.card_insert_le _ _).trans hroom

omit hU in
/-- A change of status keeps the pool: what is said about all its transactions stays. -/
theorem relabel {q : Pool} {th : TxHeap}
    (hpending : Pending env th q.pending) (hcurrent : Maps currentTxs q.current)
    (hissued : Maps issuedTxs q.issued) (hpc : Disjoint q.pending q.current)
    (hpi : Disjoint q.pending q.issued) (hci : Disjoint q.current q.issued)
    (hlive : q.live = p.live) :
    Mempool.For env U n ⟨m.maxSize, th, currentTxs, issuedTxs, m.utxoSpenders, m.discardedTxs⟩ q where
  pending := hpending
  current := hcurrent
  issued := hissued
  spenders := hlive ▸ h.spenders
  pending_current := hpc
  pending_issued := hpi
  current_issued := hci
  known := hlive ▸ h.known
  discarded := hlive ▸ h.discarded
  maxSize := h.maxSize
  size := hlive ▸ h.size

/-- The collections of a pool hold different IDs. -/
theorem id_ne {t' : Tx} (ht : t ∈ p.live) (ht' : t' ∈ p.live) (hne : t ≠ t') : t.id ≠ t'.id :=
  fun hid => hne (h.eq_of_id hU ht (h.known t' ht') hid)

section

variable (htx : tx ∈ p.current)
include htx

theorem pending_ne_current : ∀ t ∈ p.pending, t.id ≠ tx.id :=
  fun _ ht => h.id_ne hU (Pool.mem_live.mpr (.inl ht)) (Pool.mem_live.mpr (.inr (.inl htx)))
    (fun heq => Finset.disjoint_left.mp h.pending_current ht (heq ▸ htx))

omit htx in
theorem current_ne_pending (htx : tx ∈ p.pending) : ∀ t ∈ p.current, t.id ≠ tx.id :=
  fun _ ht hid => h.pending_ne_current hU ht tx htx hid.symm

theorem issued_ne_current : ∀ t ∈ p.issued, t.id ≠ tx.id :=
  fun _ ht => h.id_ne hU (Pool.mem_live.mpr (.inr (.inr ht))) (Pool.mem_live.mpr (.inr (.inl htx)))
    (fun heq => Finset.disjoint_left.mp h.current_issued htx (heq ▸ ht))

theorem discardTx : (m.discardTx env tx).For env U n (p.remove tx.id) := by
  have hlive : tx ∈ p.live := Pool.mem_live.mpr (.inr (.inl htx))
  refine h.drop hU (h.known tx hlive) (h.clear_of_live hlive) ?_ (h.current.erase tx.id) ?_
    (fun x hx => Cache.mem_put hx)
  · rw [without_eq_self (h.pending_ne_current hU htx)]
    exact h.pending
  · rw [without_eq_self (h.issued_ne_current hU htx)]
    exact h.issued

theorem issueTx :
    (m.issueTx tx.id).For env U n ⟨p.pending, without p.current tx.id, insert tx p.issued⟩ := by
  unfold Mempool.issueTx
  rw [(h.current tx.id tx).mpr ⟨htx, rfl⟩]
  rcases moved (h.injOn_current hU) htx h.current_issued h.pending_current.symm h.pending_issued.symm with
    ⟨hci, hcp, hip, hlive⟩
  refine h.relabel h.pending (h.current.erase tx.id) (h.issued.insert (h.issued_ne_current hU htx))
    hcp.symm hip.symm hci ?_
  rw [Pool.live, Finset.union_assoc, hlive, ← Finset.union_assoc, Pool.live]

theorem cancelTx : ∃ q, (m.cancelTx env tx).For env U n q := by
  unfold Mempool.cancelTx
  split
  next => exact ⟨_, h.discardTx hU htx⟩
  next price hprice =>
    rcases moved (h.injOn_current hU) htx h.pending_current.symm h.current_issued h.pending_issued with
      ⟨hcp, hci, hpi, hlive⟩
    refine ⟨⟨insert tx p.pending, without p.current tx.id, p.issued⟩,
      h.relabel (h.pending.push (h.pending_ne_current hU htx) hprice) (h.current.erase tx.id) h.issued
        hcp.symm hpi hci ?_⟩
    rw [Pool.live, Finset.union_comm (insert tx p.pending), hlive, Finset.union_comm p.current, Pool.live]

end

omit hU in
theorem popMax_empty (hempty : p.pending = ∅) : m.pendingTxs.popMax = (m.pendingTxs, none) := by
  have hlen := h.pending.len_eq
  rw [hempty, Finset.card_empty] at hlen
  unfold TxHeap.popMax
  rw [List.getElem?_eq_none (by rw [TxHeap.len] at hlen; omega)]

theorem nextTx : ∃ q, m.nextTx.1.For env U n q := by
  unfold Mempool.nextTx
  rcases p.pending.eq_empty_or_nonempty with hempty | hne
  · rw [h.popMax_empty hempty]
    exact ⟨p, h⟩
  · rcases h.pending.popMax (h.injOn_pending hU) hne with ⟨tx, htx, hpop, hrest, -⟩
    rcases hret : m.pendingTxs.popMax with ⟨th, r⟩
    rw [hret] at hpop hrest
    subst hpop
    rcases moved (h.injOn_pending hU) htx h.pending_current h.pending_issued h.current_issued with
      ⟨hpc, hpi, hci, hlive⟩
    refine ⟨⟨without p.pending tx.id, insert tx p.current, p.issued⟩,
      h.relabel hrest (h.current.insert (h.current_ne_pending hU htx)) h.issued hpc hpi hci ?_⟩
    rw [Pool.live, hlive, Pool.live]

end Mempool.For

end Titan.Atomic
