import Titan.Snow.Decisions

/-!
# Titan.Snow.Votes — the vote stack of a poll

`calculateInDegree` and `pushVotes` are Kahn's topological sort over the part of
the tree above which somebody voted. Both are described by sets of blocks:

* `S`: the blocks with a Kahn node, that is, those with a voted descendant;
* `U`: those of them that are not popped yet;
* `E`: those whose edge to the parent is still counted in the parent's degree.

A popped block has received the votes for all its descendants. The result is a
stack that lists parents before children. When the poll has fewer than
`2 * AlphaPreference` votes, no two of its blocks are siblings.
-/

namespace Titan.Snow

namespace Topological

open Finset Relation

variable {U B : Type} {W : Universe} (params : Parameters)

variable {root : ID} {added : List ID} {ts : Topological U B}

section

variable (h : Inv W root added ts)
include h

/-- The only decided block of the tree is the last accepted one. -/
theorem Inv.decided_iff {id : ID} {n : SnowmanBlock U B}
    (hn : ts.blocks id = some n) : ts.decided W id n = true ↔ id = ts.lastAcceptedID := by
  constructor
  · intro hdecided
    by_contra hne
    have hblk := h.has_blk id n hn hne
    have hlt := h.height_lt id (by simp [hn]) hne
    have hle : W.height id ≤ ts.lastAcceptedHeight := by simpa [decided, hblk] using hdecided
    rw [h.last_height] at hle
    omega
  · rintro rfl
    simp [decided, h.last_height]

variable {p : ID}

/-- The parent of a processing block is in the tree, and lower. -/
theorem Inv.parent_spec {id : ID} (hid : (ts.blocks id).isSome) (hne : id ≠ ts.lastAcceptedID) :
    id ∈ ts.childrenOf (W.parent id) ∧ (ts.blocks (W.parent id)).isSome ∧
      W.height id = W.height (W.parent id) + 1 := by
  have hchild := h.parent_mem id hid hne
  obtain ⟨n, hn, -⟩ := exists_block_of_child hchild
  exact ⟨hchild, by simp [hn], h.added_height id (h.processing_added id hid hne)⟩

theorem Inv.child_spec {c : ID} (hc : c ∈ ts.childrenOf p) :
    (ts.blocks c).isSome ∧ c ≠ ts.lastAcceptedID ∧ W.parent c = p ∧
      W.height c = W.height p + 1 := by
  have htree := h.forest.child_mem p c hc
  have hne : c ≠ ts.lastAcceptedID := by
    rintro rfl
    exact h.last_root p hc
  have hparent := h.forest.child_parent p c hc
  have hheight := (h.parent_spec htree hne).2.2
  rw [hparent] at hheight
  exact ⟨htree, hne, hparent, hheight⟩

/-! ## Transitive votes -/

/-- `b` is a child of `a` in the tree. -/
def Edge (ts : Topological U B) (a b : ID) : Prop := b ∈ ts.childrenOf a

open Classical in
/-- The votes for a block and all its descendants. -/
noncomputable def transitiveVotes (ts : Topological U B) (votes : Bag ID) (id : ID) : ℕ :=
  ∑ v ∈ votes.list.toFinset with ReflTransGen (Edge ts) id v, votes.count v

/-- The votes that the children of a block received together. -/
noncomputable def childVotes (ts : Topological U B) (votes : Bag ID) (p : ID) : ℕ :=
  ∑ c ∈ (ts.childrenOf p).toFinset, ts.transitiveVotes votes c

theorem Inv.eq_or_height_lt {a b : ID}
    (hab : ReflTransGen (Edge ts) a b) : a = b ∨ W.height a < W.height b := by
  induction hab with
  | refl => exact Or.inl rfl
  | tail _ hbc ih =>
    have hheight := (h.child_spec hbc).2.2.2
    right
    rcases ih with rfl | hlt
    · omega
    · omega

/-- A block has one ancestor at each height. -/
theorem Inv.ancestor_unique {a b v : ID}
    (ha : ReflTransGen (Edge ts) a v) (hb : ReflTransGen (Edge ts) b v)
    (hheight : W.height a = W.height b) : a = b := by
  induction ha with
  | refl =>
    rcases h.eq_or_height_lt hb with rfl | hlt
    · rfl
    · omega
  | tail hau huv ih =>
    obtain ⟨-, -, hparent, hnext⟩ := h.child_spec huv
    rcases hb.cases_tail with rfl | ⟨u', hb, hu'⟩
    · rcases h.eq_or_height_lt hau with rfl | hlt
      · omega
      · omega
    · obtain rfl := (h.child_spec hu').2.2.1.symm.trans hparent
      exact ih hb

variable {votes : Bag ID}

/-- The descendants of a block are those of its children, each of one child. -/
theorem Inv.transitiveVotes_eq (id : ID) :
    ts.transitiveVotes votes id = votes.count id + ts.childVotes votes id := by
  classical
  have hsplit : ∀ v, (if ReflTransGen (Edge ts) id v then votes.count v else 0) =
      (if v = id then votes.count v else 0) + ∑ c ∈ (ts.childrenOf id).toFinset,
        if ReflTransGen (Edge ts) c v then votes.count v else 0 := by
    intro v
    by_cases hv : v = id
    · subst hv
      rw [if_pos .refl, if_pos rfl, sum_eq_zero, Nat.add_zero]
      intro c hc
      refine if_neg fun hcv => ?_
      have hheight := (h.child_spec (List.mem_toFinset.mp hc)).2.2.2
      rcases h.eq_or_height_lt hcv with rfl | hlt
      · omega
      · omega
    rw [if_neg hv, Nat.zero_add]
    by_cases hreach : ReflTransGen (Edge ts) id v
    · rcases hreach.cases_head with heq | ⟨c, hc, hcv⟩
      · exact absurd heq.symm hv
      rw [if_pos hreach, sum_eq_single_of_mem c (List.mem_toFinset.mpr hc), if_pos hcv]
      intro d hd hne
      refine if_neg fun hdv => hne (h.ancestor_unique hdv hcv ?_)
      rw [(h.child_spec (List.mem_toFinset.mp hd)).2.2.2, (h.child_spec hc).2.2.2]
    · rw [if_neg hreach, sum_eq_zero]
      intro c hc
      exact if_neg fun hcv => hreach (.head (List.mem_toFinset.mp hc) hcv)
  simp only [transitiveVotes, childVotes, sum_filter]
  rw [sum_congr rfl fun v _ => hsplit v, sum_add_distrib, sum_comm, sum_ite_eq']
  congr 1
  split
  · rfl
  · rename_i hid
    exact (Bag.count_eq_zero fun hmem => hid (List.mem_toFinset.mpr hmem)).symm

omit h in
theorem Bag.len_eq_sum {b : Bag ID} {s : Finset ID} (hs : ∀ c ∉ s, b.count c = 0) :
    b.len = ∑ c ∈ s, b.count c := by
  have hnodup : b.list.Nodup := b.nodup
  rw [← b.sum_count, ← List.sum_toFinset b.count hnodup]
  calc ∑ c ∈ b.list.toFinset, b.count c
      = ∑ c ∈ b.list.toFinset ∪ s, b.count c :=
        sum_subset subset_union_left fun c _ hc => Bag.count_eq_zero (by simpa using hc)
    _ = ∑ c ∈ s, b.count c := (sum_subset subset_union_right fun c _ hc => hs c hc).symm

theorem Inv.childVotes_le (p : ID) : ts.childVotes votes p ≤ ts.transitiveVotes votes p := by
  rw [h.transitiveVotes_eq]
  exact Nat.le_add_left _ _

end

theorem transitiveVotes_le_len (p : ID) : ts.transitiveVotes votes p ≤ votes.len := by
  classical
  calc ts.transitiveVotes votes p
      ≤ ∑ v ∈ votes.list.toFinset, votes.count v := sum_le_sum_of_subset (filter_subset _ _)
    _ = votes.len := (Bag.len_eq_sum fun c hc => Bag.count_eq_zero (by simpa using hc)).symm

/-! ## In-degrees -/

/-- The number of children of `p` in `E`. -/
def degreeIn (ts : Topological U B) (E : Finset ID) (p : ID) : ℕ :=
  ((ts.childrenOf p).filter (· ∈ E)).length

variable {E : Finset ID}

theorem degreeIn_eq_zero : ts.degreeIn E p = 0 ↔ ∀ c ∈ ts.childrenOf p, c ∉ E := by
  simp [degreeIn]

theorem degreeIn_eq_card (hnodup : (ts.childrenOf p).Nodup) (E : Finset ID) :
    ts.degreeIn E p = (E.filter (· ∈ ts.childrenOf p)).card := by
  rw [degreeIn, ← List.toFinset_card_of_nodup (hnodup.filter _)]
  congr 1
  ext c
  simp [and_comm]

theorem degreeIn_insert {x : ID} (hnodup : (ts.childrenOf p).Nodup) (hx : x ∉ E) :
    ts.degreeIn (insert x E) p = ts.degreeIn E p + if x ∈ ts.childrenOf p then 1 else 0 := by
  rw [degreeIn_eq_card hnodup, degreeIn_eq_card hnodup, filter_insert]
  split
  · exact card_insert_of_notMem (by simp [hx])
  · rfl

/-- The votes that have reached a block so far. -/
def Kahn.bag (k : Kahn) (p : ID) : Bag ID :=
  match k.nodes p with
  | some n => n.votes
  | none => Bag.empty

variable {k : Kahn}

theorem Kahn.bag_eq {n : KahnNode} (hn : k.nodes p = some n) : k.bag p = n.votes := by
  rw [Kahn.bag, hn]

/-- The bag of each block holds `counted` votes for each of its children. -/
def Kahn.Holds (ts : Topological U B) (counted : ID → ℕ) (k : Kahn) : Prop :=
  ∀ p c, (k.bag p).count c = if c ∈ ts.childrenOf p then counted c else 0

variable (W) in
/-- The Kahn nodes describe the sets `S`, `V` and `E`. -/
structure KahnInv (ts : Topological U B) (S V E : Finset ID) (k : Kahn) : Prop where
  nodes : ∀ p, (k.nodes p).isSome ↔ p ∈ S
  inner : ∀ p ∈ S, ts.childrenOf p ≠ []
  open_sub : V ⊆ S
  edge_sub : E ⊆ S
  closed : ∀ p ∈ E, p ≠ ts.lastAcceptedID → W.parent p ∈ V
  degree : ∀ p n, k.nodes p = some n → n.inDegree = ts.degreeIn E p
  leaves : ∀ p, p ∈ k.leaves ↔ p ∈ V ∧ ∀ c ∈ ts.childrenOf p, c ∉ E

variable {S V : Finset ID}

theorem KahnInv.mem_tree (hk : KahnInv W ts S V E k) (hp : p ∈ S) :
    ∃ n, ts.blocks p = some n := by
  obtain ⟨c, hc⟩ := List.exists_mem_of_ne_nil _ (hk.inner p hp)
  obtain ⟨n, hn, -⟩ := exists_block_of_child hc
  exact ⟨n, hn⟩

/-- A new node has no child among the nodes: it would be closed under parents. -/
theorem KahnInv.nodes_update (hk : KahnInv W ts S V E k) (hp : p ∈ S)
    (m : KahnNode) (x : ID) : (Function.update k.nodes p (some m) x).isSome ↔ x ∈ S := by
  by_cases hx : x = p
  · simpa [hx] using hp
  · rw [Function.update_of_ne hx]
    exact hk.nodes x

theorem KahnInv.nodes_insert (hk : KahnInv W ts S V E k) (p : ID)
    (m : KahnNode) (x : ID) : (Function.update k.nodes p (some m) x).isSome ↔ x ∈ insert p S := by
  by_cases hx : x = p
  · simp [hx]
  · rw [Function.update_of_ne hx, mem_insert, hk.nodes]
    exact (or_iff_right hx).symm

/-- A node is replaced, and the counted edges only change below it. -/
theorem KahnInv.degree_update {V E' : Finset ID} (hk : KahnInv W ts S V E k)
    {m : KahnNode} (hp : m.inDegree = ts.degreeIn E' p)
    (hother : ∀ x ≠ p, ts.degreeIn E' x = ts.degreeIn E x) (x : ID) (n : KahnNode)
    (hn : Function.update k.nodes p (some m) x = some n) : n.inDegree = ts.degreeIn E' x := by
  by_cases hx : x = p
  · subst hx
    rw [Function.update_self] at hn
    rw [← Option.some.inj hn]
    exact hp
  · rw [Function.update_of_ne hx] at hn
    rw [hother x hx]
    exact hk.degree x n hn

theorem KahnInv.no_child (h : Inv W root added ts) (hk : KahnInv W ts S S E k)
    (hp : p ∉ S) : ∀ c ∈ ts.childrenOf p, c ∉ E := by
  intro c hc hcE
  obtain ⟨-, hne, hparent, -⟩ := h.child_spec hc
  exact hp (hparent ▸ hk.closed c hcE hne)

/-- The edge of the last accepted block counts nowhere. -/
theorem degreeIn_insert_last (h : Inv W root added ts) (hE : ts.lastAcceptedID ∉ E) (p : ID) :
    ts.degreeIn (insert ts.lastAcceptedID E) p = ts.degreeIn E p := by
  rw [degreeIn_insert (h.forest.children_nodup p) hE, if_neg (h.last_root p)]
  rfl

/-- The edge of a processing block counts at its parent only. -/
theorem degreeIn_insert_edge (h : Inv W root added ts) {id : ID} (hid : (ts.blocks id).isSome)
    (hne : id ≠ ts.lastAcceptedID) (hE : id ∉ E) (p : ID) :
    ts.degreeIn (insert id E) p = ts.degreeIn E p + if p = W.parent id then 1 else 0 := by
  rw [degreeIn_insert (h.forest.children_nodup p) hE]
  have hiff : id ∈ ts.childrenOf p ↔ p = W.parent id := by
    constructor
    · intro hchild
      exact (h.forest.child_parent p id hchild).symm
    · rintro rfl
      exact (h.parent_spec hid hne).1
  simp only [hiff]

/-! ## Counting votes -/

section Mark

variable {root : ID} {added : List ID} {ts : Topological U B} {E : Finset ID} {k : Kahn} {id : ID}

/-- The walk ends at the last accepted block. -/
theorem KahnInv.mark_last (h : Inv W root added ts)
    (hk : KahnInv W ts (insert ts.lastAcceptedID E) (insert ts.lastAcceptedID E) E k)
    (hE : ts.lastAcceptedID ∉ E) :
    KahnInv W ts (insert ts.lastAcceptedID E) (insert ts.lastAcceptedID E)
      (insert ts.lastAcceptedID E) k := by
  refine ⟨hk.nodes, hk.inner, hk.open_sub, subset_refl _, ?_, ?_, ?_⟩
  · intro p hp hne
    exact hk.closed p (mem_of_mem_insert_of_ne hp hne) hne
  · intro p n hn
    rw [degreeIn_insert_last h hE, hk.degree p n hn]
  · intro p
    rw [hk.leaves, ← degreeIn_eq_zero, ← degreeIn_eq_zero, degreeIn_insert_last h hE]

/-- The walk meets a node: its degree grows, and it is no leaf. -/
theorem KahnInv.mark_seen (h : Inv W root added ts)
    (hk : KahnInv W ts (insert id E) (insert id E) E k) (hE : id ∉ E)
    (hne : id ≠ ts.lastAcceptedID) {kahn : KahnNode} (hkahn : k.nodes (W.parent id) = some kahn) :
    KahnInv W ts (insert id E) (insert id E) (insert id E)
      ⟨Function.update k.nodes (W.parent id) (some { kahn with inDegree := kahn.inDegree + 1 }),
        k.leaves.filter (· ≠ W.parent id)⟩ := by
  obtain ⟨n, hn⟩ := hk.mem_tree (mem_insert_self id E)
  have hid : (ts.blocks id).isSome := by simp [hn]
  have hdegree := degreeIn_insert_edge h hid hne hE
  have hparent : W.parent id ∈ insert id E := (hk.nodes _).mp (by simp [hkahn])
  refine ⟨hk.nodes_update hparent _, hk.inner, hk.open_sub, subset_refl _, ?_, ?_, ?_⟩
  · intro p hp hpne
    rcases mem_insert.mp hp with rfl | hp
    · exact hparent
    · exact hk.closed p hp hpne
  · apply hk.degree_update
    · rw [hdegree, if_pos rfl, ← hk.degree _ kahn hkahn]
    · exact fun p hp => by rw [hdegree, if_neg hp]; rfl
  · intro p
    rw [← degreeIn_eq_zero, hdegree, List.mem_filter, hk.leaves, ← degreeIn_eq_zero]
    by_cases hp : p = W.parent id
    · simp [hp]
    · simp [hp]

/-- The walk meets a block without a node: it gets one, and the walk goes on. -/
theorem KahnInv.mark_new (h : Inv W root added ts)
    (hk : KahnInv W ts (insert id E) (insert id E) E k) (hE : id ∉ E)
    (hne : id ≠ ts.lastAcceptedID) (hkahn : W.parent id ∉ insert id E) :
    KahnInv W ts (insert (W.parent id) (insert id E)) (insert (W.parent id) (insert id E))
      (insert id E)
      ⟨Function.update k.nodes (W.parent id) (some ⟨1, Bag.empty⟩), k.leaves⟩ := by
  obtain ⟨n, hn⟩ := hk.mem_tree (mem_insert_self id E)
  have hid : (ts.blocks id).isSome := by simp [hn]
  obtain ⟨hchild, -, -⟩ := h.parent_spec hid hne
  have hdegree := degreeIn_insert_edge h hid hne hE
  have hzero : ts.degreeIn E (W.parent id) = 0 := degreeIn_eq_zero.mpr (hk.no_child h hkahn)
  refine ⟨hk.nodes_insert _ _, ?_, subset_refl _, subset_insert _ _, ?_, ?_, ?_⟩
  · intro p hp
    rcases mem_insert.mp hp with rfl | hp
    · exact List.ne_nil_of_mem hchild
    · exact hk.inner p hp
  · intro p hp hpne
    rcases mem_insert.mp hp with rfl | hp
    · exact mem_insert_self _ _
    · exact mem_insert_of_mem (hk.closed p hp hpne)
  · apply hk.degree_update
    · rw [hdegree, hzero, if_pos rfl]
    · exact fun p hp => by rw [hdegree, if_neg hp]; rfl
  · intro p
    rw [hk.leaves, ← degreeIn_eq_zero, ← degreeIn_eq_zero, hdegree]
    by_cases hp : p = W.parent id
    · simp only [hp, if_true]
      constructor
      · intro hmem
        exact absurd hmem.1 hkahn
      · intro hmem
        omega
    · simp [hp]

end Mark

theorem Kahn.bag_update (nodes : ID → Option KahnNode) (leaves leaves' : List ID) (p q : ID)
    (n : KahnNode) : Kahn.bag ⟨Function.update nodes p (some n), leaves⟩ q =
      if q = p then n.votes else Kahn.bag ⟨nodes, leaves'⟩ q := by
  by_cases hq : q = p
  · simp [Kahn.bag, hq]
  · simp [Kahn.bag, hq]

theorem Kahn.Holds.congr {k k' : Kahn} {counted counted' : ID → ℕ} (hc : k.Holds ts counted)
    (hbag : ∀ p, k'.bag p = k.bag p) (heq : ∀ p, ∀ c ∈ ts.childrenOf p, counted' c = counted c) :
    k'.Holds ts counted' := by
  intro p c
  rw [hbag, hc]
  split
  · rename_i hmem
    exact (heq p c hmem).symm
  · rfl

/-- Votes for a block go to the bag of its parent. -/
theorem Kahn.Holds.add (h : Inv W root added ts) {counted : ID → ℕ} {v : ID} {n : ℕ}
    {m : KahnNode} (hc : k.Holds ts counted) (hv : v ∈ ts.childrenOf (W.parent v))
    (hm : m.votes = (k.bag (W.parent v)).addCount v n) (leaves : List ID) :
    Kahn.Holds ts (fun c => counted c + if c = v then n else 0)
      ⟨Function.update k.nodes (W.parent v) (some m), leaves⟩ := by
  intro p c
  rw [Kahn.bag_update _ _ k.leaves]
  by_cases hp : p = W.parent v
  · rw [if_pos hp, hm, Bag.count_addCount, hc, hp]
    by_cases hcv : c = v
    · simp [hcv, hv]
    · simp [hcv]
  · rw [if_neg hp, hc p c]
    split
    · rename_i hmem
      have hcv : c ≠ v := by
        rintro rfl
        exact hp (h.child_spec hmem).2.2.1.symm
      simp [hcv]
    · rfl

/-- The walk to the ancestors returns and moves no votes: each turn but the last
gives a node to one more block of the tree. -/
theorem markAncestors_spec (h : Inv W root added ts) (fuel : ℕ) (id : ID) (E : Finset ID) (k : Kahn)
    (hk : KahnInv W ts (insert id E) (insert id E) E k) (hE : id ∉ E)
    (hfuel : (ts.keys.filter (· ∉ insert id E)).length < fuel) :
    ∃ k' S, markAncestors W ts fuel id k = some k' ∧ KahnInv W ts S S S k' ∧
      insert id E ⊆ S ∧ ∀ p, k'.bag p = k.bag p := by
  induction fuel generalizing id E k with
  | zero => cases hfuel
  | succ fuel ih =>
    obtain ⟨n, hn⟩ := hk.mem_tree (mem_insert_self id E)
    have hid : (ts.blocks id).isSome := by simp [hn]
    rw [markAncestors]
    simp only [hn]
    by_cases hlast : id = ts.lastAcceptedID
    · rw [if_pos ((h.decided_iff hn).mpr hlast)]
      subst hlast
      exact ⟨k, _, rfl, hk.mark_last h hE, subset_refl _, fun _ => rfl⟩
    · rw [if_neg (fun hd => hlast ((h.decided_iff hn).mp hd))]
      rcases hseen : k.nodes (W.parent id) with _ | kahn
      · have hnew : W.parent id ∉ insert id E := by
          rw [← hk.nodes, hseen]
          simp
        obtain ⟨-, hparent, -⟩ := h.parent_spec hid hlast
        have hless : (ts.keys.filter (· ∉ insert (W.parent id) (insert id E))).length < fuel := by
          have hkey : W.parent id ∈ ts.keys.filter (· ∉ insert id E) := by
            rw [List.mem_filter]
            exact ⟨(h.forest.mem_keys _).mpr hparent, by simpa using hnew⟩
          have hsplit : ts.keys.filter (· ∉ insert (W.parent id) (insert id E)) =
              (ts.keys.filter (· ∉ insert id E)).filter (· ≠ W.parent id) := by
            rw [List.filter_filter]
            congr 1
            funext x
            simp
          have : ((ts.keys.filter (· ∉ insert id E)).filter (· ≠ W.parent id)).length <
              (ts.keys.filter (· ∉ insert id E)).length :=
            List.length_filter_lt_length_iff_exists.mpr ⟨_, hkey, by simp⟩
          rw [hsplit]
          omega
        obtain ⟨k', S, hrun, hinv, hsub, hbag⟩ :=
          ih (W.parent id) (insert id E) _ (hk.mark_new h hE hlast hnew) hnew hless
        refine ⟨k', S, hrun, hinv, fun x hx => hsub (mem_insert_of_mem hx), ?_⟩
        intro p
        rw [hbag, Kahn.bag_update _ _ k.leaves]
        split
        · rename_i hp
          rw [hp, Kahn.bag, hseen]
        · rfl
      · refine ⟨_, _, rfl, hk.mark_seen h hE hlast hseen, subset_refl _, ?_⟩
        intro p
        rw [Kahn.bag_update _ _ k.leaves]
        split
        · rename_i hp
          rw [hp, Kahn.bag_eq hseen]
        · rfl

section Count

variable {root : ID} {added : List ID} {ts : Topological U B} {S : Finset ID} {k : Kahn} {v : ID}

/-- A vote for a child of a node that exists. -/
theorem KahnInv.count_seen (hk : KahnInv W ts S S S k) {kahn : KahnNode}
    (hkahn : k.nodes (W.parent v) = some kahn) (votes : Bag ID) :
    KahnInv W ts S S S
      ⟨Function.update k.nodes (W.parent v) (some { kahn with votes := votes }), k.leaves⟩ := by
  have hparent : W.parent v ∈ S := (hk.nodes _).mp (by simp [hkahn])
  exact ⟨hk.nodes_update hparent _, hk.inner, hk.open_sub, hk.edge_sub, hk.closed,
    hk.degree_update (hk.degree _ kahn hkahn) (fun _ _ => rfl), hk.leaves⟩

/-- The first vote for a child of a block: the block is a leaf. -/
theorem KahnInv.count_new (h : Inv W root added ts) (hk : KahnInv W ts S S S k)
    (hv : v ∈ ts.childrenOf (W.parent v)) (hnew : W.parent v ∉ S) (votes : Bag ID) :
    KahnInv W ts (insert (W.parent v) S) (insert (W.parent v) S) S
      ⟨Function.update k.nodes (W.parent v) (some ⟨0, votes⟩), k.leaves ++ [W.parent v]⟩ := by
  have hzero : ts.degreeIn S (W.parent v) = 0 := degreeIn_eq_zero.mpr (hk.no_child h hnew)
  refine ⟨hk.nodes_insert _ _, ?_, subset_refl _, subset_insert _ _, ?_,
    hk.degree_update hzero.symm (fun _ _ => rfl), ?_⟩
  · intro p hp
    rcases mem_insert.mp hp with rfl | hp
    · exact List.ne_nil_of_mem hv
    · exact hk.inner p hp
  · intro p hp hpne
    exact mem_insert_of_mem (hk.closed p hp hpne)
  · intro p
    rw [List.mem_append, List.mem_singleton, hk.leaves, mem_insert]
    by_cases hp : p = W.parent v
    · simp only [hp, or_true, true_or, true_and, true_iff]
      exact hk.no_child h hnew
    · simp [hp]

end Count

variable (W) in
/-- The votes for the blocks `done` are counted, and the parents of these blocks have nodes. -/
structure Counted (ts : Topological U B) (votes : Bag ID) (done : List ID) (S : Finset ID)
    (k : Kahn) : Prop where
  inv : KahnInv W ts S S S k
  parents : ∀ v ∈ done, ∀ p, Edge ts p v → p ∈ S
  holds : k.Holds ts fun c => done.count c * votes.count c

theorem Counted.next {done : List ID} {vote : ID} {k k₁ : Kahn} {S₁ : Finset ID}
    (hc : Counted W ts votes done S k) (hk₁ : KahnInv W ts S₁ S₁ S₁ k₁) (hsub : S ⊆ S₁)
    (hparent : ∀ p, Edge ts p vote → p ∈ S₁)
    (hholds : k₁.Holds ts fun c => done.count c * votes.count c + if c = vote then votes.count vote else 0) :
    Counted W ts votes (done ++ [vote]) S₁ k₁ := by
  refine ⟨hk₁, ?_, hholds.congr (fun _ => rfl) ?_⟩
  · intro v hv p hp
    rcases List.mem_append.mp hv with hv | hv
    · exact hsub (hc.parents v hv p hp)
    · rw [List.mem_singleton.mp hv] at hp
      exact hparent p hp
  · intro p c _
    rw [List.count_append, List.count_singleton, Nat.add_mul]
    by_cases hcv : c = vote
    · simp [hcv]
    · simp [hcv, Ne.symm hcv]

/-- A vote for the last accepted block or an unknown one is for nobody's child. -/
theorem Counted.skip {done : List ID} {vote : ID} (hc : Counted W ts votes done S k)
    (hnone : ∀ p, ¬ Edge ts p vote) : Counted W ts votes (done ++ [vote]) S k := by
  refine hc.next hc.inv (subset_refl _) (fun p hp => absurd hp (hnone p)) ?_
  refine hc.holds.congr (fun _ => rfl) ?_
  intro p c hp
  have hne : c ≠ vote := by
    rintro rfl
    exact hnone p hp
  rw [if_neg hne, Nat.add_zero]

/-- `calculateInDegree` returns, and counts every vote. -/
theorem calculateInDegree_spec (h : Inv W root added ts) (votes : Bag ID) (list done : List ID)
    (S : Finset ID) (k : Kahn) (hc : Counted W ts votes done S k) :
    ∃ k' S', calculateInDegree W ts votes list k = some k' ∧
      Counted W ts votes (done ++ list) S' k' := by
  induction list generalizing done S k with
  | nil => exact ⟨k, S, rfl, by rwa [List.append_nil]⟩
  | cons vote rest ih =>
    rw [calculateInDegree, ← List.singleton_append, ← List.append_assoc]
    rcases hblock : ts.blocks vote with _ | n
    · refine ih _ S k (hc.skip fun p hp => ?_)
      have := (h.child_spec hp).1
      simp [hblock] at this
    simp only
    by_cases hlast : vote = ts.lastAcceptedID
    · rw [if_pos ((h.decided_iff hblock).mpr hlast)]
      exact ih _ S k (hc.skip fun p hp => (h.child_spec hp).2.1 hlast)
    rw [if_neg (fun hd => hlast ((h.decided_iff hblock).mp hd))]
    obtain ⟨hchild, -, -⟩ := h.parent_spec (by simp [hblock]) hlast
    rcases hseen : k.nodes (W.parent vote) with _ | kahn
    · have hnew : W.parent vote ∉ S := by
        rw [← hc.inv.nodes, hseen]
        simp
      have hstart := hc.inv.count_new h hchild hnew (Bag.empty.addCount vote (votes.count vote))
      have hfuel : (ts.keys.filter (· ∉ insert (W.parent vote) S)).length < ts.keys.length + 1 :=
        Nat.lt_succ_of_le (List.length_filter_le _ _)
      obtain ⟨k₁, S₁, hmark, hinv₁, hsub, hbag⟩ := markAncestors_spec h _ _ _ _ hstart hnew hfuel
      simp only [hmark]
      refine ih _ S₁ k₁ (hc.next hinv₁ ((subset_insert _ _).trans hsub) ?_ ?_)
      · intro p hp
        rw [← (h.child_spec hp).2.2.1]
        exact hsub (mem_insert_self _ _)
      · refine (hc.holds.add h hchild ?_ _).congr hbag fun _ _ _ => rfl
        rw [Kahn.bag, hseen]
    · refine ih _ S _ (hc.next (hc.inv.count_seen hseen _) (subset_refl _) ?_ ?_)
      · intro p hp
        rw [← (h.child_spec hp).2.2.1]
        exact (hc.inv.nodes _).mp (by simp [hseen])
      · exact hc.holds.add h hchild (by rw [Kahn.bag_eq hseen]) _

/-! ## Pushing votes -/

variable (W) in
/-- The stack (top first) after the blocks of `S` outside `V` were popped, in a poll with
threshold `alpha`. -/
structure StackInv (ts : Topological U B) (alpha : ℕ) (votes : Bag ID) (S V : Finset ID)
    (stack : List Votes) : Prop where
  mem : ∀ y, y ∈ stack.map Votes.parentID ↔ y ∈ S ∧ y ∉ V ∧ alpha ≤ ts.childVotes votes y
  nodup : (stack.map Votes.parentID).Nodup
  order : (stack.map Votes.parentID).Pairwise fun a b => a ≠ ts.lastAcceptedID → W.parent a ≠ b
  counts : ∀ vote ∈ stack, ∀ c, vote.votes.count c =
    if c ∈ ts.childrenOf vote.parentID then ts.transitiveVotes votes c else 0

/-- The votes of a block that have reached its parent while the blocks `V` are open. -/
noncomputable def passedOn (ts : Topological U B) (votes : Bag ID) (V : Finset ID) (c : ID) : ℕ :=
  if c ∈ V then votes.count c else ts.transitiveVotes votes c

section Push

variable {root : ID} {added : List ID} {ts : Topological U B} {S V : Finset ID} {k : Kahn}
  {leaf : ID}

/-- What is known of a block that is popped: it is open and its children are done. -/
structure IsLeaf (ts : Topological U B) (V : Finset ID) (leaf : ID) : Prop where
  mem : leaf ∈ V
  children : ∀ c ∈ ts.childrenOf leaf, c ∉ V

/-- A leaf has received all the votes for its children. -/
theorem Kahn.Holds.leaf_count (hc : k.Holds ts (ts.passedOn votes V)) (hleaf : IsLeaf ts V leaf)
    (c : ID) : (k.bag leaf).count c =
      if c ∈ ts.childrenOf leaf then ts.transitiveVotes votes c else 0 := by
  rw [hc]
  split
  · rename_i hchild
    exact if_neg (hleaf.children c hchild)
  · rfl

variable (h : Inv W root added ts) (hk : KahnInv W ts S V V k)

include h hk

/-- The parent of a popped block stays open. -/
theorem KahnInv.parent_open (hleaf : IsLeaf ts V leaf) (hne : leaf ≠ ts.lastAcceptedID) :
    W.parent leaf ∈ V.erase leaf := by
  obtain ⟨n, hn⟩ := hk.mem_tree (hk.open_sub hleaf.mem)
  have hheight := (h.parent_spec (by simp [hn]) hne).2.2
  refine mem_erase.mpr ⟨?_, hk.closed leaf hleaf.mem hne⟩
  intro heq
  rw [heq] at hheight
  omega

/-- The open blocks stay closed under parents. -/
theorem KahnInv.closed_erase (hleaf : IsLeaf ts V leaf) :
    ∀ p ∈ V.erase leaf, p ≠ ts.lastAcceptedID → W.parent p ∈ V.erase leaf := by
  intro p hp hne
  have hpV := mem_of_mem_erase hp
  refine mem_erase.mpr ⟨?_, hk.closed p hpV hne⟩
  rintro rfl
  obtain ⟨n, hn⟩ := hk.mem_tree (hk.open_sub hpV)
  exact hleaf.children p (h.parent_spec (by simp [hn]) hne).1 hpV

theorem KahnInv.pop_last (hleaf : IsLeaf ts V ts.lastAcceptedID) :
    KahnInv W ts S (V.erase ts.lastAcceptedID) (V.erase ts.lastAcceptedID)
      ⟨k.nodes, k.leaves.filter (· ≠ ts.lastAcceptedID)⟩ := by
  have hdegree : ∀ p, ts.degreeIn (V.erase ts.lastAcceptedID) p = ts.degreeIn V p := by
    intro p
    have := degreeIn_insert_last h (notMem_erase ts.lastAcceptedID V) p
    rw [insert_erase hleaf.mem] at this
    exact this.symm
  have hsub : V.erase ts.lastAcceptedID ⊆ S := fun x hx => hk.open_sub (mem_of_mem_erase hx)
  refine ⟨hk.nodes, hk.inner, hsub, hsub, hk.closed_erase h hleaf, ?_, ?_⟩
  · intro p n hn
    rw [hdegree]
    exact hk.degree p n hn
  · intro p
    rw [List.mem_filter, hk.leaves, ← degreeIn_eq_zero, ← degreeIn_eq_zero, hdegree, mem_erase]
    simp only [decide_not, Bool.not_eq_true', decide_eq_false_iff_not]
    tauto

theorem KahnInv.pop_inner (hleaf : IsLeaf ts V leaf) (hne : leaf ≠ ts.lastAcceptedID) {kahn : KahnNode}
    (hkahn : k.nodes (W.parent leaf) = some kahn) (votes : Bag ID) :
    KahnInv W ts S (V.erase leaf) (V.erase leaf)
      ⟨Function.update k.nodes (W.parent leaf) (some ⟨kahn.inDegree - 1, votes⟩),
        if kahn.inDegree - 1 = 0 then k.leaves.filter (· ≠ leaf) ++ [W.parent leaf]
        else k.leaves.filter (· ≠ leaf)⟩ := by
  obtain ⟨n, hn⟩ := hk.mem_tree (hk.open_sub hleaf.mem)
  have hdegree : ∀ p, ts.degreeIn V p =
      ts.degreeIn (V.erase leaf) p + if p = W.parent leaf then 1 else 0 := by
    intro p
    have := degreeIn_insert_edge h (by simp [hn]) hne (notMem_erase leaf V) p
    rwa [insert_erase hleaf.mem] at this
  have hopen := hk.parent_open h hleaf hne
  have hparent : kahn.inDegree - 1 = ts.degreeIn (V.erase leaf) (W.parent leaf) := by
    have := hdegree (W.parent leaf)
    rw [if_pos rfl] at this
    rw [hk.degree _ kahn hkahn, this]
    rfl
  have hsub : V.erase leaf ⊆ S := fun x hx => hk.open_sub (mem_of_mem_erase hx)
  refine ⟨hk.nodes_update (hsub hopen) _, hk.inner, hsub, hsub, hk.closed_erase h hleaf,
    hk.degree_update hparent (fun p hp => ?_), ?_⟩
  · rw [hdegree, if_neg hp]
    rfl
  · -- the parent becomes a leaf when its last open child is popped
    intro p
    have hold : p ∈ k.leaves.filter (· ≠ leaf) ↔
        p ≠ leaf ∧ p ∈ V ∧ ts.degreeIn V p = 0 := by
      rw [List.mem_filter, hk.leaves, ← degreeIn_eq_zero]
      simp only [decide_not, Bool.not_eq_true', decide_eq_false_iff_not]
      tauto
    rw [← degreeIn_eq_zero]
    by_cases hp : p = W.parent leaf
    · have hnot : p ∉ k.leaves.filter (· ≠ leaf) := by
        rw [hold, hdegree, if_pos hp]
        omega
      rw [hp] at hnot ⊢
      simp only [hparent, hopen, true_and]
      split
      · rename_i hzero
        simp [hzero]
      · rename_i hzero
        simp only [hzero, iff_false]
        exact hnot
    · have hlists : p ∈ (if kahn.inDegree - 1 = 0 then k.leaves.filter (· ≠ leaf) ++ [W.parent leaf]
          else k.leaves.filter (· ≠ leaf)) ↔ p ∈ k.leaves.filter (· ≠ leaf) := by
        split
        · rw [List.mem_append, List.mem_singleton]
          simp [hp]
        · rfl
      rw [hlists, hold, hdegree, if_neg hp, mem_erase]
      tauto

/-- Popping a block: it goes on the stack if its children have enough votes. -/
theorem StackInv.pop {alpha : ℕ} {stack : List Votes} (hs : StackInv W ts alpha votes S V stack)
    (hleaf : IsLeaf ts V leaf) {bag : Bag ID} (hbag : ∀ c, bag.count c =
      if c ∈ ts.childrenOf leaf then ts.transitiveVotes votes c else 0)
    (hlen : bag.len = ts.childVotes votes leaf) :
    StackInv W ts alpha votes S (V.erase leaf)
      (if alpha ≤ bag.len then ⟨leaf, bag⟩ :: stack else stack) := by
  have hsplit : ∀ y, y ∉ V.erase leaf ↔ y = leaf ∨ y ∉ V := by
    intro y
    rw [mem_erase]
    tauto
  have hS := hk.open_sub hleaf.mem
  split
  · rename_i hge
    rw [hlen] at hge
    refine ⟨?_, ?_, ?_, ?_⟩
    · intro y
      rw [List.map_cons, List.mem_cons, hs.mem, hsplit]
      by_cases hy : y = leaf
      · simp [hy, hS, hge]
      · simp [hy]
    · exact List.nodup_cons.mpr ⟨fun hmem => ((hs.mem leaf).mp hmem).2.1 hleaf.mem, hs.nodup⟩
    · refine List.pairwise_cons.mpr ⟨?_, hs.order⟩
      intro b hb hne heq
      exact ((hs.mem b).mp hb).2.1 (heq ▸ mem_of_mem_erase (hk.parent_open h hleaf hne))
    · intro vote hvote
      rcases List.mem_cons.mp hvote with rfl | hvote
      · exact hbag
      · exact hs.counts vote hvote
  · rename_i hlt
    rw [hlen] at hlt
    refine { hs with mem := ?_ }
    intro y
    rw [hs.mem, hsplit]
    by_cases hy : y = leaf
    · simp [hy, hlt, hleaf.mem]
    · simp [hy]

/-- An open block without a leaf below it does not exist: the highest open block is
a leaf. -/
theorem KahnInv.leaf_exists (hV : V.Nonempty) : k.leaves ≠ [] := by
  obtain ⟨p, hp, hmax⟩ := exists_max_image V W.height hV
  refine List.ne_nil_of_mem ((hk.leaves p).mpr ⟨hp, ?_⟩)
  intro c hc hcV
  have hheight := (h.child_spec hc).2.2.2
  have := hmax c hcV
  omega

end Push

variable (W) in
/-- A vote stack, top first: blocks with children, parents before children. -/
structure VoteStack (ts : Topological U B) (ids : List ID) : Prop where
  nodup : ids.Nodup
  inner : ∀ y ∈ ids, ts.childrenOf y ≠ []
  closed : ∀ y ∈ ids, y ≠ ts.lastAcceptedID → W.parent y ∈ ids
  order : ids.Pairwise fun a b => a ≠ ts.lastAcceptedID → W.parent a ≠ b

variable (W) in
/-- No two blocks of the stack are siblings. -/
def NoSiblings (ts : Topological U B) (ids : List ID) : Prop :=
  ∀ x ∈ ids, ∀ y ∈ ids, x ≠ ts.lastAcceptedID → y ≠ ts.lastAcceptedID →
    W.parent x = W.parent y → x = y

theorem pushVotes_spec (h : Inv W root added ts) (ord : ℕ → List ID → List ID)
    (hord : ∀ n l, (ord n l).Perm l) (fuel : ℕ) (V : Finset ID) (k : Kahn)
    (stack : List Votes) (hk : KahnInv W ts S V V k) (hc : k.Holds ts (ts.passedOn votes V))
    (hs : StackInv W ts params.alphaPreference votes S V stack) (hfuel : V.card < fuel) :
    ∃ stack', pushVotes W params ts ord fuel k stack = some stack' ∧
      StackInv W ts params.alphaPreference votes S ∅ stack' := by
  induction fuel generalizing V k stack with
  | zero => cases hfuel
  | succ fuel ih =>
    rw [pushVotes]
    rcases hleaves : ord fuel k.leaves with _ | ⟨leaf, others⟩
    · -- no leaf is left: every node was popped
      have hempty : k.leaves = [] := by
        have := hord fuel k.leaves
        rw [hleaves] at this
        exact this.nil_eq.symm
      have hV : V = ∅ := by
        by_contra hne
        exact hk.leaf_exists h (nonempty_iff_ne_empty.mpr hne) hempty
      subst hV
      exact ⟨stack, rfl, hs⟩
    · have hmem : leaf ∈ k.leaves := (hord fuel k.leaves).mem_iff.mp (by simp [hleaves])
      have hleaf : IsLeaf ts V leaf := ⟨((hk.leaves leaf).mp hmem).1, ((hk.leaves leaf).mp hmem).2⟩
      have hcard : (V.erase leaf).card < fuel := by
        have := card_erase_lt_of_mem hleaf.mem
        omega
      obtain ⟨kahn, hkahn⟩ := Option.isSome_iff_exists.mp
        ((hk.nodes leaf).mpr (hk.open_sub hleaf.mem))
      obtain ⟨n, hn⟩ := hk.mem_tree (hk.open_sub hleaf.mem)
      have hbag := hc.leaf_count hleaf
      rw [Kahn.bag_eq hkahn] at hbag
      have hlen : kahn.votes.len = ts.childVotes votes leaf := by
        have hout : ∀ c ∉ (ts.childrenOf leaf).toFinset, kahn.votes.count c = 0 := by
          intro c hc
          rw [hbag, if_neg (by simpa using hc)]
        rw [Bag.len_eq_sum hout]
        exact sum_congr rfl fun c hc => by rw [hbag, if_pos (by simpa using hc)]
      have hs' := hs.pop h hk hleaf hbag hlen
      simp only [hkahn, hn]
      by_cases hlast : leaf = ts.lastAcceptedID
      · rw [if_pos ((h.decided_iff hn).mpr hlast)]
        subst hlast
        refine ih _ _ _ (hk.pop_last h hleaf) (hc.congr (fun _ => rfl) ?_) hs' hcard
        intro p c hchild
        have hne := (h.child_spec hchild).2.1
        simp [passedOn, hne]
      · rw [if_neg (fun hd => hlast ((h.decided_iff hn).mp hd))]
        obtain ⟨parentKahn, hparent⟩ := Option.isSome_iff_exists.mp
          ((hk.nodes (W.parent leaf)).mpr
            (hk.open_sub (mem_of_mem_erase (hk.parent_open h hleaf hlast))))
        simp only [hparent]
        refine ih _ _ _ (hk.pop_inner h hleaf hlast hparent _) ?_ hs' hcard
        have hchild := (h.parent_spec (by simp [hn]) hlast).1
        refine (hc.add h hchild (by rw [Kahn.bag_eq hparent]) _).congr (fun _ => rfl) ?_
        intro p c _
        by_cases hcl : c = leaf
        · simp [passedOn, hcl, hleaf.mem, hlen, h.transitiveVotes_eq]
        · simp [passedOn, hcl]

/-- The ancestors of a voted block have nodes. -/
theorem mem_of_descendant {c v : ID} (hcv : ReflTransGen (Edge ts) c v)
    (hup : ∀ x ∈ S, ∀ q, Edge ts q x → q ∈ S) (hv : ∀ q, Edge ts q v → q ∈ S) (hp : Edge ts p c) :
    p ∈ S := by
  induction hcv with
  | refl => exact hv p hp
  | tail _ huv ih => exact ih fun q hq => hup _ (hv _ huv) q hq

/-- The vote stack of a whole poll: the blocks whose children received enough votes. With
fewer than `2 * AlphaPreference` votes it holds no two siblings. -/
theorem voteStack_spec (h : Inv W root added ts) (votes : Bag ID) (voteOrd : List ID → List ID)
    (hvoteOrd : ∀ l, (voteOrd l).Perm l) (ord : ℕ → List ID → List ID)
    (hord : ∀ n l, (ord n l).Perm l) :
    ∃ k S stack, calculateInDegree W ts votes (voteOrd votes.list) ⟨fun _ => none, []⟩ = some k ∧
      pushVotes W params ts ord (ts.keys.length + 1) k [] = some stack ∧
      StackInv W ts params.alphaPreference votes S ∅ stack ∧
      (∀ p, 0 < ts.childVotes votes p → p ∈ S) ∧
      VoteStack W ts (stack.map Votes.parentID) ∧
      (votes.len < 2 * params.alphaPreference → NoSiblings W ts (stack.map Votes.parentID)) := by
  have hempty : KahnInv W ts ∅ ∅ ∅ ⟨fun _ => none, []⟩ := by
    refine ⟨?_, ?_, subset_refl _, subset_refl _, ?_, ?_, ?_⟩ <;> simp
  obtain ⟨k, S, hcalc, hk, hparents, hc⟩ := calculateInDegree_spec h votes
    (voteOrd votes.list) [] ∅ _ ⟨hempty, by simp, fun p c => by simp [Kahn.bag, Bag.count, Bag.empty]⟩
  rw [List.nil_append] at hparents hc
  have hvoted : ∀ p, 0 < ts.childVotes votes p → p ∈ S := by
    intro p hpos
    obtain ⟨c, hchild, hc⟩ := exists_ne_zero_of_sum_ne_zero hpos.ne'
    obtain ⟨v, hv, -⟩ := exists_ne_zero_of_sum_ne_zero hc
    simp only [mem_filter, List.mem_toFinset, ← (hvoteOrd votes.list).mem_iff] at hv
    refine mem_of_descendant hv.2 ?_ (hparents v hv.1) (List.mem_toFinset.mp hchild)
    intro x hx q hq
    obtain ⟨-, hne, rfl, -⟩ := h.child_spec hq
    exact hk.closed x hx hne
  have hpassed : k.Holds ts (ts.passedOn votes S) := by
    refine hc.congr (fun _ => rfl) ?_
    intro p c _
    have hcount : (voteOrd votes.list).count c * votes.count c = votes.count c := by
      rw [(hvoteOrd votes.list).count_eq]
      by_cases hmem : c ∈ votes.list
      · have hnodup : votes.list.Nodup := votes.nodup
        rw [List.count_eq_one_of_mem hnodup hmem, Nat.one_mul]
      · rw [Bag.count_eq_zero hmem, Nat.mul_zero]
    rw [hcount, passedOn]
    split
    · rfl
    · -- nobody voted for a descendant of a block without a node
      rename_i hnot
      have hzero : ts.childVotes votes c = 0 := Nat.eq_zero_of_not_pos fun hpos => hnot (hvoted c hpos)
      rw [h.transitiveVotes_eq, hzero, Nat.add_zero]
  have hstack : StackInv W ts params.alphaPreference votes S S [] := by
    refine ⟨?_, List.nodup_nil, List.Pairwise.nil, by simp⟩
    intro y
    tauto
  have hcard : S.card < ts.keys.length + 1 := by
    have hsub : S ⊆ ts.keys.toFinset := by
      intro p hp
      obtain ⟨n, hn⟩ := hk.mem_tree hp
      rw [List.mem_toFinset, h.forest.mem_keys, hn]
      rfl
    have := card_le_card hsub
    have := List.toFinset_card_le ts.keys
    omega
  obtain ⟨stack, hrun, hs⟩ := pushVotes_spec params h ord hord _ S k [] hk hpassed hstack hcard
  have hmem : ∀ y ∈ stack.map Votes.parentID, y ∈ S ∧ params.alphaPreference ≤ ts.childVotes votes y :=
    fun y hy => ⟨((hs.mem y).mp hy).1, ((hs.mem y).mp hy).2.2⟩
  have hparent : ∀ y ∈ stack.map Votes.parentID, y ≠ ts.lastAcceptedID →
      y ∈ (ts.childrenOf (W.parent y)).toFinset := by
    intro y hy hne
    obtain ⟨n, hn⟩ := hk.mem_tree (hmem y hy).1
    exact List.mem_toFinset.mpr (h.parent_spec (by simp [hn]) hne).1
  refine ⟨k, S, stack, hcalc, hrun, hs, hvoted, ⟨hs.nodup, ?_, ?_, hs.order⟩, ?_⟩
  · intro y hy
    exact hk.inner y (hmem y hy).1
  · intro y hy hne
    refine (hs.mem _).mpr ⟨hk.closed y (hmem y hy).1 hne, notMem_empty _, ?_⟩
    calc params.alphaPreference
        ≤ ts.childVotes votes y := (hmem y hy).2
      _ ≤ ts.transitiveVotes votes y := h.childVotes_le y
      _ ≤ ts.childVotes votes (W.parent y) :=
          single_le_sum (fun c _ => Nat.zero_le _) (hparent y hy hne)
  · intro htotal x hx y hy hxne hyne heq
    by_contra hne
    have hsub : {x, y} ⊆ (ts.childrenOf (W.parent x)).toFinset := by
      intro c hc
      rcases mem_insert.mp hc with rfl | hc
      · exact hparent c hx hxne
      · rw [mem_singleton.mp hc, heq]
        exact hparent y hy hyne
    have : params.alphaPreference + params.alphaPreference ≤ votes.len :=
      calc params.alphaPreference + params.alphaPreference
          ≤ ts.transitiveVotes votes x + ts.transitiveVotes votes y :=
            Nat.add_le_add ((hmem x hx).2.trans (h.childVotes_le x))
              ((hmem y hy).2.trans (h.childVotes_le y))
        _ = ∑ c ∈ {x, y}, ts.transitiveVotes votes c := (sum_pair hne).symm
        _ ≤ ts.childVotes votes (W.parent x) := sum_le_sum_of_subset hsub
        _ ≤ ts.transitiveVotes votes (W.parent x) := h.childVotes_le _
        _ ≤ votes.len := transitiveVotes_le_len _
    omega

end Topological

end Titan.Snow
