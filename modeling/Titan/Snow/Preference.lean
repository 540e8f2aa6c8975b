import Titan.Snow.Polls

/-!
# Titan.Snow.Preference — the cached preference

`preference`, `preferredIDs` and `preferredHeights` cache a path of the tree from
the last accepted block up. `Cached` holds for every poll, whatever the votes. It
makes `RecordPoll` return: the walks that rebuild the path start in the tree.

That the cached path follows the snowball preferences (`PreferredPath`) needs in
addition that a poll has fewer than `2 * AlphaPreference` votes. Then the vote
stack is a single branch, and below the new preferred block nothing was voted on.
-/

namespace Titan.Snow

namespace Topological

variable {U B : Type} {W : Universe} (F : Factory U B)

/-! ## Paths in the tree -/

variable {root a : ID} {added : List ID} {ts : Topological U B}

variable {l : List ID}

theorem Inv.extends_chain (h : Inv W root added ts) (hl : l.IsChain (Edge ts)) :
    l.IsChain (Extends W) := hl.imp fun _ _ hab => (h.child_spec hab).2.2

/-- Heights grow along a chain. -/
theorem pairwise_of_chain (hl : l.IsChain (Extends W)) :
    l.Pairwise fun a b => W.height a < W.height b := by
  have hlt : l.IsChain fun a b => W.height a < W.height b := by
    refine hl.imp ?_
    intro a b hab
    have := hab.2
    omega
  exact List.isChain_iff_pairwise.mp hlt

/-- The end of a chain is its highest block. -/
theorem height_le_last (hl : l.IsChain (Extends W)) {b : ID} (hb : l.getLast? = some b) :
    ∀ x ∈ l, W.height x ≤ W.height b := by
  intro x hx
  rcases List.eq_nil_or_concat' l with rfl | ⟨l, c, rfl⟩
  · cases hx
  obtain rfl : c = b := by simpa using hb
  have hpair := (List.pairwise_append.mp (pairwise_of_chain hl)).2.2
  rcases List.mem_append.mp hx with hxl | hxb
  · exact Nat.le_of_lt (hpair x hxl c (by simp))
  · rw [List.mem_singleton.mp hxb]

/-- A chain is determined by its ends: going down there is one way. -/
theorem chain_unique {x : ID} {l₁ l₂ : List ID} (h₁ : (a :: l₁).IsChain (Extends W))
    (h₂ : (a :: l₂).IsChain (Extends W)) (hx₁ : (a :: l₁).getLast? = some x)
    (hx₂ : (a :: l₂).getLast? = some x) : l₁ = l₂ := by
  have hend : ∀ {l : List ID} {b : ID}, (a :: (l ++ [b])).IsChain (Extends W) →
      (a :: l).IsChain (Extends W) ∧ (a :: l).getLast? = some (W.parent b) ∧
        W.height a < W.height b := by
    intro l b hl
    rw [← List.cons_append] at hl
    obtain ⟨hinit, -, hlink⟩ := List.isChain_append.mp hl
    obtain ⟨c, hc⟩ : ∃ c, (a :: l).getLast? = some c :=
      ⟨_, List.getLast?_eq_some_getLast (List.cons_ne_nil a l)⟩
    have hext := hlink c hc b rfl
    have hlow := height_le_of_chain hinit (List.mem_of_getLast? hc)
    refine ⟨hinit, by rw [hext.1]; exact hc, ?_⟩
    have := hext.2
    omega
  -- induction on the first chain from its end
  induction l₁ using List.reverseRecOn generalizing x l₂ with
  | nil =>
    obtain rfl : a = x := by simpa using hx₁
    rcases List.eq_nil_or_concat' l₂ with rfl | ⟨l, b, rfl⟩
    · rfl
    · obtain ⟨-, -, hlt⟩ := hend h₂
      obtain rfl : b = a := by simpa using hx₂
      omega
  | append_singleton l₁ b ih =>
    obtain rfl : b = x := by simpa using hx₁
    obtain ⟨hinit₁, hlast₁, hlt⟩ := hend h₁
    rcases List.eq_nil_or_concat' l₂ with rfl | ⟨l, c, rfl⟩
    · obtain rfl : a = b := by simpa using hx₂
      omega
    · obtain rfl : c = b := by simpa using hx₂
      obtain ⟨hinit₂, hlast₂, -⟩ := hend h₂
      rw [ih hinit₁ hinit₂ hlast₁ hlast₂]

/-- The fuel of a walk is enough for the rest of it. -/
theorem length_filter_lt {α : Type} {l : List α} {p q : α → Prop} [DecidablePred p] [DecidablePred q]
    {fuel : ℕ} (hfuel : (l.filter (q ·)).length < fuel + 1) (hsub : ∀ x, p x → q x) {x : α} (hx : x ∈ l)
    (hq : q x) (hp : ¬ p x) : (l.filter (p ·)).length < fuel := by
  have hfilter : l.filter (p ·) = (l.filter (q ·)).filter (p ·) := by
    rw [List.filter_filter]
    refine List.filter_congr fun y _ => ?_
    by_cases hy : p y <;> simp [hy, hsub y]
  rw [hfilter]
  exact (List.length_filter_lt_length_iff_exists.mpr ⟨x, by simp [hx, hq], by simpa using hp⟩).trans_le
    (Nat.le_of_lt_succ hfuel)

/-! ## The walks -/

variable (W) in
/-- `ts'` is `ts` with the blocks `l` marked as preferred. -/
structure Marks (ts : Topological U B) (l : List ID) (ts' : Topological U B) : Prop where
  rest : ts' = { ts with
    preferredIDs := ts'.preferredIDs
    preferredHeights := ts'.preferredHeights
    preference := ts'.preference }
  ids : ∀ x, x ∈ ts'.preferredIDs ↔ x ∈ ts.preferredIDs ∨ x ∈ l
  height : ∀ x ∈ l, ts'.preferredHeights (W.height x) = some x
  other : ∀ k, (∀ x ∈ l, W.height x ≠ k) → ts'.preferredHeights k = ts.preferredHeights k

theorem Marks.nil (ts : Topological U B) : Marks W ts [] ts :=
  ⟨rfl, by simp, by simp, fun _ _ => rfl⟩

theorem Marks.one (ts : Topological U B) (x pref : ID) :
    Marks W ts [x] { ts with
      preferredIDs := ts.preferredIDs ++ [x]
      preferredHeights := Function.update ts.preferredHeights (W.height x) (some x)
      preference := pref } := by
  refine ⟨rfl, by simp, by simp, ?_⟩
  intro k hk
  have : k ≠ W.height x := fun heq => hk x (by simp) heq.symm
  simp [this]

/-- Two walks at different heights. -/
theorem Marks.trans {ts₁ ts₂ : Topological U B} {l₁ l₂ : List ID} (h₁ : Marks W ts l₁ ts₁)
    (h₂ : Marks W ts₁ l₂ ts₂) (hdisj : ∀ x ∈ l₁, ∀ y ∈ l₂, W.height x ≠ W.height y)
    (hl : ∀ x, x ∈ l ↔ x ∈ l₁ ∨ x ∈ l₂) : Marks W ts l ts₂ := by
  refine ⟨?_, ?_, ?_, ?_⟩
  · rw [h₂.rest, h₁.rest]
  · intro x
    rw [h₂.ids, h₁.ids, hl]
    tauto
  · intro x hx
    rcases (hl x).mp hx with hx | hx
    · rw [h₂.other _ fun y hy heq => hdisj x hx y hy heq.symm]
      exact h₁.height x hx
    · exact h₂.height x hx
  · intro k hk
    rw [h₂.other k fun y hy => hk y ((hl y).mpr (Or.inr hy)),
      h₁.other k fun y hy => hk y ((hl y).mpr (Or.inl hy))]

variable {ts' : Topological U B}

theorem Marks.blocks (h : Marks W ts l ts') : ts'.blocks = ts.blocks := by rw [h.rest]

theorem Marks.last (h : Marks W ts l ts') : ts'.lastAcceptedID = ts.lastAcceptedID := by rw [h.rest]

theorem Marks.edge (h : Marks W ts l ts') : Edge ts' = Edge ts := by
  funext a b
  simp only [Edge, childrenOf, h.blocks]

theorem Inv.marks (h : Inv W root added ts) (hm : Marks W ts l ts') : Inv W root added ts' := by
  rw [hm.rest]
  exact h.prefer _ _ _

/-- The walk from a block of the tree to the last accepted one returns and marks
the path between them. -/
theorem preferAncestors_spec (fuel : ℕ) (id : ID) (ts : Topological U B) (h : Inv W root added ts)
    (hid : (ts.blocks id).isSome)
    (hfuel : (ts.keys.filter fun x => W.height x ≤ W.height id).length < fuel) :
    ∃ ts' up, preferAncestors W fuel id ts = some ts' ∧ Marks W ts up ts' ∧
      ts'.preference = ts.preference ∧ (ts.lastAcceptedID :: up).IsChain (Edge ts) ∧
      (ts.lastAcceptedID :: up).getLast? = some id := by
  induction fuel generalizing id ts with
  | zero => cases hfuel
  | succ fuel ih =>
    obtain ⟨n, hn⟩ := Option.isSome_iff_exists.mp hid
    rw [preferAncestors]
    simp only [hn]
    by_cases hlast : id = ts.lastAcceptedID
    · rw [if_pos ((h.decided_iff hn).mpr hlast)]
      exact ⟨ts, [], rfl, Marks.nil ts, rfl, List.isChain_singleton _, by simp [hlast]⟩
    rw [if_neg (fun hd => hlast ((h.decided_iff hn).mp hd))]
    obtain ⟨hchild, hparent, hheight⟩ := h.parent_spec hid hlast
    have hfuel' : (ts.keys.filter fun x => W.height x ≤ W.height (W.parent id)).length < fuel := by
      exact length_filter_lt hfuel (fun x hx => by omega) ((h.forest.mem_keys id).mpr hid) le_rfl (by omega)
    set ts₁ : Topological U B := { ts with
      preferredIDs := ts.preferredIDs ++ [id]
      preferredHeights := Function.update ts.preferredHeights (W.height id) (some id) } with hts₁
    obtain ⟨ts', up, hrun, hmarks, hpref, hchain, hend⟩ :=
      ih (W.parent id) ts₁ (h.prefer _ _ _) hparent hfuel'
    refine ⟨ts', up ++ [id], hrun, ?_, hpref, ?_, ?_⟩
    · refine Marks.trans (Marks.one ts id ts.preference) hmarks ?_ ?_
      · -- the rest of the path is below
        intro x hx y hy heq
        obtain rfl : x = id := by simpa using hx
        have := height_le_last ((h.prefer _ _ _).extends_chain hchain) hend y
          (List.mem_cons_of_mem _ hy)
        omega
      · intro x
        simp only [List.mem_append, List.mem_singleton]
        tauto
    · exact chain_append hchain hend (List.isChain_pair.mpr hchild)
    · exact getLast?_cons_concat

/-- The path that follows the snowball preferences from a block to a block without
children. -/
inductive PreferredPath (ts : Topological U B) : ID → List ID → Prop where
  | leaf {id : ID} {n : SnowmanBlock U B} (hn : ts.blocks id = some n) (hleaf : n.children = []) :
      PreferredPath ts id []
  | step {id : ID} {n : SnowmanBlock U B} {sb : Tree U B} {path : List ID}
      (hn : ts.blocks id = some n) (hsb : n.sb = some sb)
      (hpath : PreferredPath ts (sb.preference F) path) :
      PreferredPath ts id (sb.preference F :: path)

theorem Inv.preference_edge (h : Inv W root added ts) {id : ID} {n : SnowmanBlock U B}
    {sb : Tree U B} (hn : ts.blocks id = some n) (hsb : n.sb = some sb) :
    Edge ts id (sb.preference F) := by
  have hok := h.node_ok id n hn
  rw [SnowmanBlock.Ok, hsb] at hok
  rw [Edge, childrenOf, hn]
  exact Tree.preference_mem F hok

theorem PreferredPath.chain (h : Inv W root added ts) {id : ID} {path : List ID}
    (hp : PreferredPath F ts id path) : (id :: path).IsChain (Edge ts) := by
  induction hp with
  | leaf hn hleaf => exact List.isChain_singleton _
  | step hn hsb hpath ih => exact List.isChain_cons_cons.mpr ⟨h.preference_edge F hn hsb, ih⟩

/-- The path depends on the blocks only. -/
theorem PreferredPath.congr (hblocks : ts'.blocks = ts.blocks) {id : ID}
    {path : List ID} (hp : PreferredPath F ts id path) : PreferredPath F ts' id path := by
  induction hp with
  | leaf hn hleaf => exact .leaf (hblocks ▸ hn) hleaf
  | step hn hsb hpath ih => exact .step (hblocks ▸ hn) hsb ih

/-- The walk from a block to the preferred leaf returns and marks the path. -/
theorem preferDescendants_spec (fuel : ℕ) (id : ID) (ts : Topological U B) (h : Inv W root added ts)
    (hid : (ts.blocks id).isSome)
    (hfuel : (ts.keys.filter fun x => W.height id ≤ W.height x).length < fuel) :
    ∃ ts' path, preferDescendants W F fuel id ts = some ts' ∧ Marks W ts path ts' ∧
      PreferredPath F ts id path ∧ ts'.preference = path.getLast?.getD ts.preference := by
  induction fuel generalizing id ts with
  | zero => cases hfuel
  | succ fuel ih =>
    obtain ⟨n, hn⟩ := Option.isSome_iff_exists.mp hid
    rw [preferDescendants]
    simp only [hn]
    rcases hsb : n.sb with _ | sb
    · have hleaf : n.children = [] := by
        have hok := h.node_ok id n hn
        rwa [SnowmanBlock.Ok, hsb] at hok
      exact ⟨ts, [], rfl, Marks.nil ts, .leaf hn hleaf, rfl⟩
    obtain ⟨hpref, -, -, hheight⟩ := h.child_spec (h.preference_edge F hn hsb)
    have hfuel' : (ts.keys.filter fun x => W.height (sb.preference F) ≤ W.height x).length <
        fuel := by
      exact length_filter_lt hfuel (fun x hx => by omega) ((h.forest.mem_keys id).mpr hid) le_rfl (by omega)
    obtain ⟨ts', path, hrun, hmarks, hpath, hpreference⟩ :=
      ih (sb.preference F) { ts with
        preferredIDs := ts.preferredIDs ++ [sb.preference F]
        preferredHeights := Function.update ts.preferredHeights (W.height (sb.preference F))
          (some (sb.preference F))
        preference := sb.preference F } (h.prefer _ _ _) hpref hfuel'
    have hpath' : PreferredPath F ts (sb.preference F) path  := by
      refine PreferredPath.congr F ?_ hpath
      rfl
    refine ⟨ts', sb.preference F :: path, hrun, ?_, .step hn hsb hpath', ?_⟩
    · refine Marks.trans (Marks.one ts (sb.preference F) (sb.preference F)) hmarks ?_ ?_
      · -- the rest of the path is above
        intro x hx y hy heq
        obtain rfl : x = sb.preference F := by simpa using hx
        have hpair := pairwise_of_chain (h.extends_chain (hpath'.chain F h))
        have := (List.pairwise_cons.mp hpair).1 y hy
        omega
      · intro x
        simp only [List.mem_cons, List.not_mem_nil, or_false]
    · rw [hpreference, List.getLast?_cons]
      rfl

/-! ## The cache -/

variable (W) in
/-- The cache holds the path `l` from the last accepted block to the preference. -/
structure Cached (ts : Topological U B) (l : List ID) : Prop where
  path : (ts.lastAcceptedID :: l).IsChain (Edge ts)
  preference : (ts.lastAcceptedID :: l).getLast? = some ts.preference
  ids : ∀ x, x ∈ ts.preferredIDs ↔ x ∈ l
  heights : ∀ k x, ts.preferredHeights k = some x ↔ x ∈ l ∧ W.height x = k

theorem cached_init (root : ID) : Cached W (Initialize W root : Topological U B) [] :=
  ⟨List.isChain_singleton _, rfl, by simp [Initialize], by simp [Initialize]⟩

/-- Blocks of a path are in the tree. -/
theorem Inv.path_mem (h : Inv W root added ts) (ha : (ts.blocks a).isSome)
    (hl : (a :: l).IsChain (Edge ts)) : ∀ x ∈ a :: l, (ts.blocks x).isSome := by
  induction l generalizing a with
  | nil =>
    intro x hx
    rw [List.mem_singleton.mp hx]
    exact ha
  | cons b l ih =>
    obtain ⟨hab, hrest⟩ := List.isChain_cons_cons.mp hl
    intro x hx
    rcases List.mem_cons.mp hx with rfl | hx
    · exact ha
    · exact ih (h.child_spec hab).1 hrest x hx

theorem Cached.preference_mem (h : Inv W root added ts) (hc : Cached W ts l) :
    (ts.blocks ts.preference).isSome :=
  h.path_mem h.last_mem hc.path _ (List.mem_of_getLast? hc.preference)

/-- The walks from a block of the tree build a cache. -/
theorem rebuild_spec (h : Inv W root added ts) {np : ID} (hnp : (ts.blocks np).isSome) :
    ∃ ts₁ ts₂ up path, preferAncestors W (ts.keys.length + 1) np
        { ts with preferredIDs := [], preferredHeights := fun _ => none, preference := np } =
          some ts₁ ∧
      preferDescendants W F (ts₁.keys.length + 1) np ts₁ = some ts₂ ∧ Inv W root added ts₂ ∧
      ts₂.blocks = ts.blocks ∧ ts₂.lastAcceptedID = ts.lastAcceptedID ∧
      (ts.lastAcceptedID :: up).IsChain (Edge ts) ∧
      (ts.lastAcceptedID :: up).getLast? = some np ∧ PreferredPath F ts np path ∧
      Cached W ts₂ (up ++ path) ∧ ts₂.log = ts.log := by
  set ts₀ : Topological U B :=
    { ts with preferredIDs := [], preferredHeights := fun _ => none, preference := np } with hts₀
  have h₀ : Inv W root added ts₀ := h.prefer _ _ _
  obtain ⟨ts₁, up, hrun₁, hmarks₁, hpref₁, hchain, hend⟩ := preferAncestors_spec
    (ts.keys.length + 1) np ts₀ h₀ hnp (Nat.lt_succ_of_le (List.length_filter_le _ _))
  have h₁ := h₀.marks hmarks₁
  have hnp₁ : (ts₁.blocks np).isSome := by rwa [hmarks₁.blocks]
  obtain ⟨ts₂, path, hrun₂, hmarks₂, hpath, hpref₂⟩ := preferDescendants_spec F
    (ts₁.keys.length + 1) np ts₁ h₁ hnp₁ (Nat.lt_succ_of_le (List.length_filter_le _ _))
  have hpath₀ : PreferredPath F ts np path :=
    @PreferredPath.congr U B F _ ts hmarks₁.blocks.symm _ _ hpath
  have hblocks : ts₂.blocks = ts.blocks := hmarks₂.blocks.trans hmarks₁.blocks
  have hlast : ts₂.lastAcceptedID = ts.lastAcceptedID := hmarks₂.last.trans hmarks₁.last
  have hedge : Edge ts₂ = Edge ts := hmarks₂.edge.trans hmarks₁.edge
  -- the whole path: the ancestors up to the preferred block, then its preferences
  have hwhole : (ts.lastAcceptedID :: (up ++ path)).IsChain (Edge ts) :=
    chain_append hchain hend (hpath₀.chain F h)
  have hpair := pairwise_of_chain (h.extends_chain hwhole)
  have hdisj : ∀ x ∈ up, ∀ y ∈ path, W.height x ≠ W.height y := by
    intro x hx y hy
    have hlt := (List.pairwise_append.mp (List.pairwise_cons.mp hpair).2).2.2 x hx y hy
    omega
  have hmarks : Marks W ts₀ (up ++ path) ts₂ :=
    hmarks₁.trans hmarks₂ hdisj fun x => List.mem_append
  refine ⟨ts₁, ts₂, up, path, hrun₁, hrun₂, h₁.marks hmarks₂, hblocks, hlast, hchain, hend, hpath₀,
    ⟨?_, ?_, ?_, ?_⟩, by rw [hmarks.rest]⟩
  · rw [hlast, hedge]
    exact hwhole
  · rw [hlast, getLast?_append_of_last hend, hpref₂, hpref₁, List.getLast?_cons]
  · intro x
    rw [hmarks.ids]
    simp [hts₀]
  · intro k x
    constructor
    · intro hk
      -- a height that no block of the path has is unset
      by_cases hex : ∃ y ∈ up ++ path, W.height y = k
      · obtain ⟨y, hy, rfl⟩ := hex
        rw [hmarks.height y hy] at hk
        obtain rfl : y = x := Option.some.inj hk
        exact ⟨hy, rfl⟩
      · rw [hmarks.other k fun y hy heq => hex ⟨y, hy, heq⟩] at hk
        exact absurd hk (by simp [hts₀])
    · rintro ⟨hx, rfl⟩
      exact hmarks.height x hx

/-! ## What a vote does to the cache -/

variable (W) in
/-- During a poll that started in `ts₀` the blocks `acc` were accepted, one above the
other; the cache lost them and is otherwise as before. -/
structure Advanced (ts₀ ts : Topological U B) (acc : List ID) : Prop where
  chain : (ts₀.lastAcceptedID :: acc).IsChain (Edge ts₀)
  last : (ts₀.lastAcceptedID :: acc).getLast? = some ts.lastAcceptedID
  ids : ∀ x, x ∈ ts.preferredIDs ↔ x ∈ ts₀.preferredIDs ∧ x ∉ acc
  heights : ∀ k x, ts.preferredHeights k = some x ↔
    ts₀.preferredHeights k = some x ∧ ∀ a ∈ acc, W.height a ≠ k
  preference : ts.preference = ts₀.preference
  log : ts₀.log <+: ts.log

theorem Advanced.refl (ts : Topological U B) : Advanced W ts ts [] :=
  ⟨List.isChain_singleton _, rfl, by simp, by simp, rfl, List.prefix_rfl⟩

variable {ts₀ : Topological U B}

/-- An iteration of the loop accepts at most one more block. -/
theorem Advanced.step {acc Q rest : List ID} {np y pref : ID} {on : Bool}
    (hJ : LoopInv ts₀ Q (y :: rest) np on ts) (hstep : LoopStep W F ts y pref ts')
    (ha : Advanced W ts₀ ts acc) : ∃ acc', Advanced W ts₀ ts' acc' := by
  rcases hstep.outcome with ⟨hlast, -, hids, hheights⟩ | ⟨hy, hlast, -, hids, hheights⟩
  · refine ⟨acc, ha.chain, ?_, ?_, ?_, ?_, ha.log.trans hstep.log⟩
    · rw [hlast]
      exact ha.last
    · rw [hids]
      exact ha.ids
    · rw [hheights]
      exact ha.heights
    · rw [hstep.preference]
      exact ha.preference
  · refine ⟨acc ++ [pref], ?_, ?_, ?_, ?_, ?_, ha.log.trans hstep.log⟩
    · refine chain_append ha.chain ha.last (List.isChain_pair.mpr ?_)
      -- the children of a block do not change during the poll
      have hchild := hstep.pref_child
      obtain ⟨n, hn, hkids⟩ := exists_block_of_child hchild
      rw [← hkids, hJ.children y n hn, hy] at hchild
      exact hchild
    · rw [hlast, getLast?_cons_concat]
    · intro x
      rw [hids, List.mem_filter, ha.ids]
      simp only [decide_not, Bool.not_eq_true', decide_eq_false_iff_not, List.mem_append,
        List.mem_singleton]
      tauto
    · intro k x
      rw [hheights, Function.update_apply]
      split
      · rename_i hk
        simp only [reduceCtorEq, false_iff, not_and, not_forall]
        intro _
        exact ⟨pref, by simp, by simp [hk]⟩
      · rename_i hk
        rw [ha.heights]
        constructor
        · rintro ⟨hold, hacc⟩
          refine ⟨hold, ?_⟩
          intro a hmem
          rcases List.mem_append.mp hmem with hmem | hmem
          · exact hacc a hmem
          · rw [List.mem_singleton.mp hmem]
            exact fun heq => hk heq.symm
        · rintro ⟨hold, hacc⟩
          exact ⟨hold, fun a hmem => hacc a (List.mem_append_left _ hmem)⟩
    · rw [hstep.preference]
      exact ha.preference

/-- A path of the old tree from a block that stayed is a path of the new tree. -/
theorem path_transfer (h : Inv W root added ts)
    (hchildren : ∀ x n, ts.blocks x = some n → n.children = ts₀.childrenOf x)
    (ha : (ts.blocks a).isSome) (hl : (a :: l).IsChain (Edge ts₀)) :
    (a :: l).IsChain (Edge ts) := by
  induction l generalizing a with
  | nil => exact List.isChain_singleton _
  | cons b l ih =>
    obtain ⟨hab, hrest⟩ := List.isChain_cons_cons.mp hl
    obtain ⟨n, hn⟩ := Option.isSome_iff_exists.mp ha
    have hab' : Edge ts a b := by
      rw [Edge, childrenOf, hn]
      simp only [hchildren a n hn]
      exact hab
    exact List.isChain_cons_cons.mpr ⟨hab', ih (h.child_spec hab').1 hrest⟩

/-- The shortcut of `RecordPoll`: when the new preferred block is still cached, the
cache holds the old path without the accepted blocks. -/
theorem Cached.shortcut {acc : List ID} {np : ID}
    (h₀ : Inv W root added ts₀) (h : Inv W root added ts) (hc : Cached W ts₀ l)
    (ha : Advanced W ts₀ ts acc)
    (hchildren : ∀ x n, ts.blocks x = some n → n.children = ts₀.childrenOf x)
    (hnp : (ts.blocks np).isSome) (hmem : np ∈ ts.preferredIDs) :
    ∃ up post, l = acc ++ (up ++ post) ∧ (ts.lastAcceptedID :: up).IsChain (Edge ts) ∧
      (ts.lastAcceptedID :: up).getLast? = some np ∧ Cached W ts (up ++ post) := by
  obtain ⟨-, up, -, -, -, hup, hend⟩ := preferAncestors_spec (ts.keys.length + 1) np ts h hnp
    (Nat.lt_succ_of_le (List.length_filter_le _ _))
  have hedge : ∀ a b, Edge ts a b → Edge ts₀ a b := by
    intro a b hab
    obtain ⟨n, hn, hkids⟩ := exists_block_of_child hab
    rw [Edge, ← hchildren a n hn, hkids]
    exact hab
  obtain ⟨hnpOld, -⟩ := (ha.ids np).mp hmem
  obtain ⟨pre, post, hl⟩ := List.append_of_mem ((hc.ids np).mp hnpOld)
  -- both lead from the old last accepted block to the preferred one
  have hwalked : (ts₀.lastAcceptedID :: (acc ++ up)).IsChain (Edge ts₀) :=
    chain_append ha.chain ha.last (hup.imp hedge)
  have hlSplit : l = (pre ++ [np]) ++ post := by simp [hl]
  have hcachedPre : (ts₀.lastAcceptedID :: (pre ++ [np])).IsChain (Edge ts₀) := by
    have hpath := hc.path
    rw [hlSplit, ← List.cons_append] at hpath
    exact hpath.left_of_append
  have hwalkedEnd : (ts₀.lastAcceptedID :: (acc ++ up)).getLast? = some np := by
    rw [getLast?_append_of_last ha.last]
    exact hend
  have hsame : acc ++ up = pre ++ [np] :=
    chain_unique (h₀.extends_chain hwalked) (h₀.extends_chain hcachedPre) hwalkedEnd getLast?_cons_concat
  have hlAcc : l = acc ++ (up ++ post) := by
    rw [hlSplit, ← hsame, List.append_assoc]
  have hpair := pairwise_of_chain (h₀.extends_chain hc.path)
  rw [hlAcc] at hpair
  have habove : ∀ a ∈ acc, ∀ x ∈ up ++ post, W.height a < W.height x := fun a haMem x hx =>
    (List.pairwise_append.mp (List.pairwise_cons.mp hpair).2).2.2 a haMem x hx
  have hrest : (ts.lastAcceptedID :: (up ++ post)).IsChain (Edge ts₀) := by
    have hpath := hc.path
    rw [hlAcc, ← List.cons_append, List.isChain_append] at hpath
    refine List.isChain_cons.mpr ⟨?_, hpath.2.1⟩
    intro b hb
    exact hpath.2.2 _ ha.last b hb
  refine ⟨up, post, hlAcc, hup, hend, path_transfer h hchildren h.last_mem hrest, ?_, ?_, ?_⟩
  · have hpref := hc.preference
    rw [hlAcc, getLast?_append_of_last ha.last] at hpref
    rw [ha.preference]
    exact hpref
  · intro x
    rw [ha.ids, hc.ids, hlAcc, List.mem_append]
    constructor
    · rintro ⟨hx | hx, hacc⟩
      · exact absurd hx hacc
      · exact hx
    · intro hx
      refine ⟨Or.inr hx, ?_⟩
      intro hacc
      exact absurd (habove x hacc x hx) (Nat.lt_irrefl _)
  · intro k x
    rw [ha.heights, hc.heights, hlAcc, List.mem_append]
    constructor
    · rintro ⟨⟨hx | hx, rfl⟩, hacc⟩
      · exact absurd rfl (hacc x hx)
      · exact ⟨hx, rfl⟩
    · rintro ⟨hx, rfl⟩
      refine ⟨⟨Or.inr hx, rfl⟩, ?_⟩
      intro a haMem heq
      have := habove a haMem x hx
      omega

end Topological

end Titan.Snow
