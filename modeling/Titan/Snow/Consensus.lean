import Titan.Snow.RecordPoll

/-!
# Titan.Snow.Consensus — runs of Snowman

`Reachable` are the states of all runs of `Add` and `RecordPoll`. Every such state
satisfies `Inv` and has a cached path; two results follow.

* Whatever the votes, the blocks are decided consistently: one chain is accepted,
  and exactly the blocks that conflict with it are rejected.
* When polls have at most `K` votes, as `RecordPoll` requires, the preference is
  the leaf that the snowball preferences lead to.
-/

namespace Titan.Snow

namespace Topological

open Relation

variable {U B : Type} (W : Universe) (F : Factory U B) (params : Parameters)

/-- The states of the runs that start at `root`, with the blocks added so far. Polls
have votes that satisfy `legal`; a failing `Add` changes nothing. -/
inductive Reachable (legal : Bag ID → Prop) (root : ID) : List ID → Topological U B → Prop where
  | init : Reachable legal root [] (Initialize W root)
  | add {added : List ID} {ts ts' : Topological U B} {id : ID}
      (hr : Reachable legal root added ts) (hheight : W.height id = W.height (W.parent id) + 1)
      (hadd : ts.add W F params id = .ok ts') : Reachable legal root (added ++ [id]) ts'
  | poll {added : List ID} {ts ts' : Topological U B} {ord : PollOrder} {votes : Bag ID}
      (hr : Reachable legal root added ts) (hord : ord.Lawful) (hvotes : legal votes)
      (hpoll : ts.recordPoll W F params ord votes = some ts') : Reachable legal root added ts'

variable {W F params}

/-! ## Adding a block -/

variable {ts ts' : Topological U B}

/-- What a successful `Add` does. -/
theorem add_cases {id : ID} (hadd : ts.add W F params id = .ok ts') :
    ts.processing id = false ∧ ∃ parentNode, ts.blocks (W.parent id) = some parentNode ∧
      ((ts.preference = W.parent id ∧
          ts' = { inserted W F params ts parentNode id with
            preference := id
            preferredIDs := ts.preferredIDs ++ [id]
            preferredHeights := Function.update ts.preferredHeights (W.height id) (some id) }) ∨
        (ts.preference ≠ W.parent id ∧ ts' = inserted W F params ts parentNode id)) := by
  unfold add at hadd
  split at hadd
  · cases hadd
  · rename_i hproc
    refine ⟨by simpa using hproc, ?_⟩
    split at hadd
    · cases hadd
    · rename_i parentNode hparent
      refine ⟨parentNode, hparent, ?_⟩
      simp only at hadd
      split at hadd
      · rename_i hpref
        exact Or.inl ⟨hpref, (Except.ok.inj hadd).symm⟩
      · rename_i hpref
        exact Or.inr ⟨hpref, (Except.ok.inj hadd).symm⟩

variable {root : ID} {added : List ID}

theorem Inv.add {id : ID} (h : Inv W root added ts)
    (hheight : W.height id = W.height (W.parent id) + 1) (hadd : ts.add W F params id = .ok ts') :
    Inv W root (added ++ [id]) ts' := by
  obtain ⟨hproc, parentNode, hparent, ⟨-, rfl⟩ | ⟨-, rfl⟩⟩ := add_cases hadd
  · exact (h.insert F params hproc hparent hheight).prefer _ _ _
  · exact h.insert F params hproc hparent hheight

section Inserted

variable {ts : Topological U B} {id : ID} {parentNode : SnowmanBlock U B}

/-- The nodes of the tree after `Add`. -/
theorem inserted_blocks (x : ID) : (inserted W F params ts parentNode id).blocks x =
    if x = id then some ⟨true, false, none, []⟩ else
      if x = W.parent id then some (addChild F params parentNode id) else ts.blocks x := by
  simp only [inserted, setBlock, Function.update_apply]

theorem inserted_edge (hparent : ts.blocks (W.parent id) = some parentNode)
    (hnone : ts.blocks id = none) {a b : ID} (hab : Edge ts a b) :
    Edge (inserted W F params ts parentNode id) a b := by
  obtain ⟨n, hn, -⟩ := exists_block_of_child hab
  have ha : a ≠ id := by
    rintro rfl
    rw [hnone] at hn
    cases hn
  unfold Edge childrenOf at hab ⊢
  rw [inserted_blocks, if_neg ha]
  by_cases hap : a = W.parent id
  · subst hap
    rw [hparent] at hab
    rw [if_pos rfl]
    simp only [addChild]
    split
    · exact hab
    · exact List.mem_append_left _ hab
  · rw [if_neg hap]
    exact hab

theorem inserted_edge_new (hne : W.parent id ≠ id) :
    Edge (inserted W F params ts parentNode id) (W.parent id) id := by
  unfold Edge childrenOf
  rw [inserted_blocks, if_neg hne, if_pos rfl]
  simp only [addChild]
  split
  · assumption
  · simp

/-- The snowball preferences of blocks with children survive an `Add`. -/
theorem inserted_prefEdge (hF : F.Lawful) (hparent : ts.blocks (W.parent id) = some parentNode)
    (hnone : ts.blocks id = none) {a b : ID} (hab : PrefEdge F ts a b) :
    PrefEdge F (inserted W F params ts parentNode id) a b := by
  obtain ⟨n, sb, hn, hsb, hpref⟩ := hab
  have ha : a ≠ id := by
    rintro rfl
    rw [hnone] at hn
    cases hn
  by_cases hap : a = W.parent id
  · subst hap
    rw [hparent] at hn
    obtain rfl : parentNode = n := Option.some.inj hn
    refine ⟨addChild F params parentNode id, sb.add F params id, ?_, ?_, ?_⟩
    · rw [inserted_blocks, if_neg ha, if_pos rfl]
    · simp only [addChild, hsb]
    · rw [Tree.add_preference F params hF]
      exact hpref
  · refine ⟨n, sb, ?_, hsb, hpref⟩
    rw [inserted_blocks, if_neg ha, if_neg hap]
    exact hn

end Inserted

/-- Adding a block on the preference extends the cached path, and adding one elsewhere
leaves it. -/
theorem Cached.add {id : ID} {l : List ID} (h : Inv W root added ts)
    (hc : Cached W ts l) (hheight : W.height id = W.height (W.parent id) + 1)
    (hadd : ts.add W F params id = .ok ts') :
    ∃ l', Cached W ts' l' ∧ (F.Lawful → PreferredPath F ts ts.lastAcceptedID l →
      PreferredPath F ts' ts'.lastAcceptedID l') := by
  obtain ⟨hproc, parentNode, hparent, hcases⟩ := add_cases hadd
  obtain ⟨-, hidLast, hnone⟩ := h.fresh hproc (by simp [hparent]) hheight
  have hne : W.parent id ≠ id := by
    intro heq
    rw [heq] at hheight
    omega
  have h' : Inv W root (added ++ [id]) ts' := h.add hheight hadd
  have hpath : (ts.lastAcceptedID :: l).IsChain (Edge (inserted W F params ts parentNode id)) :=
    hc.path.imp fun _ _ hab => inserted_edge hparent hnone hab
  -- the old preferences lead to the old leaf
  have hold : F.Lawful → PreferredPath F ts ts.lastAcceptedID l →
      ReflTransGen (PrefEdge F (inserted W F params ts parentNode id)) ts.lastAcceptedID
        ts.preference ∧ PreferredPath F ts ts.preference [] := by
    intro hF hp
    have hwhole : PreferredPath F ts ts.lastAcceptedID (l ++ []) := by rwa [List.append_nil]
    obtain ⟨hreach, hleaf⟩ := hwhole.suffix F hc.preference
    exact ⟨ReflTransGen.mono (fun _ _ hab => inserted_prefEdge hF hparent hnone hab) _ _ hreach,
      hleaf⟩
  rcases hcases with ⟨hpref, hts'⟩ | ⟨hpref, hts'⟩
  · subst hts'
    have hup : (ts.lastAcceptedID :: (l ++ [id])).IsChain (Edge (inserted W F params ts parentNode id)) := by
      refine chain_append hpath hc.preference (List.isChain_pair.mpr ?_)
      rw [hpref]
      exact inserted_edge_new hne
    have hbelow : ∀ x ∈ l, W.height x < W.height id := by
      intro x hx
      have := height_le_last (h.extends_chain hc.path) hc.preference x (List.mem_cons_of_mem _ hx)
      rw [hpref] at this
      omega
    refine ⟨l ++ [id], ⟨hup, getLast?_cons_concat, ?_, ?_⟩, ?_⟩
    · intro x
      simp only [List.mem_append, hc.ids]
    · intro k x
      simp only [Function.update_apply, List.mem_append, List.mem_singleton]
      split
      · rename_i hk
        constructor
        · intro hx
          obtain rfl : id = x := Option.some.inj hx
          exact ⟨Or.inr rfl, hk.symm⟩
        · rintro ⟨hx | rfl, hxk⟩
          · have := hbelow x hx
            omega
          · rfl
      · rename_i hk
        rw [hc.heights]
        constructor
        · rintro ⟨hx, hxk⟩
          exact ⟨Or.inl hx, hxk⟩
        · rintro ⟨hx | rfl, hxk⟩
          · exact ⟨hx, hxk⟩
          · exact absurd hxk.symm hk
    · intro hF hp
      obtain ⟨hreach, hleaf⟩ := hold hF hp
      -- the preference had no children: the new block is its only choice
      have hsb : parentNode.sb = none := by
        rcases hsb : parentNode.sb with _ | sb
        · rfl
        · have hchild := h.preference_edge F hparent hsb
          cases hleaf with
          | leaf hn hnil =>
            rw [hpref, hparent] at hn
            obtain rfl := Option.some.inj hn
            simp [Edge, childrenOf, hparent, hnil] at hchild
      have hnew : PrefEdge F (inserted W F params ts parentNode id) ts.preference id := by
        refine ⟨addChild F params parentNode id, Tree.new F params id, ?_, ?_, rfl⟩
        · rw [inserted_blocks, hpref, if_neg hne, if_pos rfl]
        · simp only [addChild, hsb]
      have hnode : (inserted W F params ts parentNode id).blocks id = some ⟨true, false, none, []⟩ :=
        (inserted_blocks id).trans (if_pos rfl)
      have := PreferredPath.join F h' (hreach.tail hnew) hup getLast?_cons_concat (.leaf hnode rfl)
      rwa [List.append_nil] at this
  · subst hts'
    refine ⟨l, ⟨hpath, hc.preference, hc.ids, hc.heights⟩, ?_⟩
    intro hF hp
    obtain ⟨hreach, hleaf⟩ := hold hF hp
    have hleaf' : PreferredPath F (inserted W F params ts parentNode id) ts.preference [] := by
      cases hleaf with
      | leaf hn hnil =>
        refine .leaf ?_ hnil
        rw [inserted_blocks, if_neg, if_neg hpref]
        · exact hn
        · rintro heq
          rw [heq, hnone] at hn
          cases hn
    have := PreferredPath.join F h' hreach hpath hc.preference hleaf'
    rwa [List.append_nil] at this

/-! ## Runs -/

/-- A cached path follows the preferences if no poll has room for two majorities. -/
theorem Reachable.inv {legal : Bag ID → Prop} (hr : Reachable W F params legal root added ts) :
    Inv W root added ts ∧ root ∉ added ∧ ∃ l, Cached W ts l ∧ (F.Lawful →
      (∀ votes, legal votes → votes.len < 2 * params.alphaPreference) →
        PreferredPath F ts ts.lastAcceptedID l) := by
  induction hr with
  | init =>
    refine ⟨inv_init root, by simp, [], cached_init root, fun _ _ => ?_⟩
    exact .leaf (n := ⟨false, false, none, []⟩) (by simp [Initialize]) rfl
  | add _ hheight hadd ih =>
    obtain ⟨h, hroot, l, hc, hp⟩ := ih
    obtain ⟨hproc, parentNode, hparent, -⟩ := add_cases hadd
    obtain ⟨hnew, -, -⟩ := h.fresh hproc (by simp [hparent]) hheight
    obtain ⟨l', hc', hp'⟩ := hc.add h hheight hadd
    refine ⟨h.add hheight hadd, ?_, l', hc', fun hF hfew => hp' hF (hp hF hfew)⟩
    intro hmem
    rcases List.mem_append.mp hmem with hold | hself
    · exact hroot hold
    · exact hnew (List.mem_singleton.mp hself ▸ List.mem_cons_self)
  | poll _ hord hvotes hpoll ih =>
    obtain ⟨h, hroot, l, hc, hp⟩ := ih
    obtain ⟨ts₁, l', hrun, h₁, -, hc', hp'⟩ := recordPoll_spec F params h hc hord _
    obtain rfl := Option.some.inj (hrun.symm.trans hpoll)
    exact ⟨h₁, hroot, l', hc', fun hF hfew => hp' (hfew _ hvotes) (hp hF hfew)⟩

/-! ## Conflicts -/

variable (W) in
/-- `a` is the parent of the added block `b`. -/
def AddedOn (added : List ID) (b a : ID) : Prop := b ∈ added ∧ W.parent b = a

variable (W) in
/-- A block different from `id` or from an added ancestor of `id`, at the same height
and on the same parent, was accepted. -/
def Conflicts (added accepted : List ID) (id : ID) : Prop :=
  ∃ x a, ReflTransGen (AddedOn W added) id x ∧ x ∈ added ∧ a ∈ accepted ∧ a ≠ x ∧
    W.height a = W.height x ∧ W.parent a = W.parent x

section Decided

variable {root : ID} {added : List ID} {ts : Topological U B}

variable (h : Inv W root added ts)
include h

/-- The three states of an added block exclude each other. -/
theorem Inv.not_processing {id : ID}
    (hid : id ∈ acceptedIDs ts.log ++ rejectedIDs ts.log) : ts.processing id = false := by
  by_cases hlast : id = ts.lastAcceptedID
  · simp [processing, hlast]
  · simp [processing, h.decided_gone id (List.mem_cons_of_mem _ hid) hlast]

theorem Inv.not_both {id : ID} (ha : id ∈ acceptedIDs ts.log)
    (hr : id ∈ rejectedIDs ts.log) : False :=
  (List.nodup_append.mp h.decided_nodup).2.2 id ha id hr rfl

/-- Two accepted blocks on one parent are the same. -/
theorem Inv.accepted_unique {a b : ID} (ha : a ∈ acceptedIDs ts.log)
    (hb : b ∈ acceptedIDs ts.log) (hparent : W.parent a = W.parent b) : a = b := by
  have hheight : W.height a = W.height b := by
    rw [h.added_height a (h.decided_added a (List.mem_append_left _ ha)),
      h.added_height b (h.decided_added b (List.mem_append_left _ hb)), hparent]
  have hpair := (List.pairwise_cons.mp (pairwise_of_chain h.chain)).2
  by_contra hne
  -- of two different blocks of the chain one is higher
  have hsymm : Std.Symm fun x y : ID => W.height x ≠ W.height y := ⟨fun _ _ hxy => hxy.symm⟩
  have hheights : (acceptedIDs ts.log).Pairwise fun x y => W.height x ≠ W.height y :=
    hpair.imp fun hxy => Nat.ne_of_lt hxy
  exact hheights.forall ha hb hne hheight

/-- A block beside an accepted one is rejected. -/
theorem Inv.rejected_of_sibling {x a : ID} (hx : x ∈ added)
    (ha : a ∈ acceptedIDs ts.log) (hne : a ≠ x) (hparent : W.parent a = W.parent x) :
    x ∈ rejectedIDs ts.log := by
  rcases h.added_cases x hx with hdecided | ⟨htree, hlast⟩
  · rcases List.mem_append.mp hdecided with hacc | hrej
    · exact absurd (h.accepted_unique ha hacc hparent) hne
    · exact hrej
  · -- a processing block has its parent in the tree, a decided one has not
    have hgone := h.parent_gone a (List.mem_append_left _ ha)
    have := (h.parent_spec htree hlast).2.1
    rw [← hparent, hgone] at this
    cases this

/-- A block above a rejected one is rejected. -/
theorem Inv.rejected_of_parent (hroot : root ∉ added) {c : ID}
    (hc : c ∈ added) (hp : W.parent c ∈ rejectedIDs ts.log) : c ∈ rejectedIDs ts.log := by
  have hpRoot : W.parent c ∉ root :: acceptedIDs ts.log := by
    intro hmem
    rcases List.mem_cons.mp hmem with heq | hacc
    · exact hroot (heq ▸ h.decided_added _ (List.mem_append_right _ hp))
    · exact h.not_both hacc hp
  rcases h.added_cases c hc with hdecided | ⟨htree, hlast⟩
  · rcases List.mem_append.mp hdecided with hacc | hrej
    · obtain ⟨y, hy, hext⟩ := exists_extended h.chain hacc
      exact absurd (hext.1 ▸ hy) hpRoot
    · exact hrej
  · have hpLast : W.parent c ≠ ts.lastAcceptedID := by
      intro heq
      exact hpRoot (heq ▸ List.mem_of_getLast? h.last_chain)
    have hgone := h.decided_gone _ (List.mem_cons_of_mem _ (List.mem_append_right _ hp)) hpLast
    have := (h.parent_spec htree hlast).2.1
    rw [hgone] at this
    cases this

theorem Inv.conflicts_of_rejected : ∀ id ∈ rejectedIDs ts.log,
    Conflicts W added (acceptedIDs ts.log) id := by
  -- induction on the height: go down until a sibling was accepted
  intro id
  induction hk : W.height id using Nat.strongRecOn generalizing id with
  | _ k ih =>
    intro hid
    have hadded := h.decided_added id (List.mem_append_right _ hid)
    have hheight := h.added_height id hadded
    rcases h.conflict id hid with hparent | ⟨a, ha, hne, hparent⟩
    · obtain ⟨x, a, hpath, hx, ha, hne, hsame, hfork⟩ :=
        ih (W.height (W.parent id)) (by omega) (W.parent id) rfl hparent
      exact ⟨x, a, .head ⟨hadded, rfl⟩ hpath, hx, ha, hne, hsame, hfork⟩
    · refine ⟨id, a, .refl, hadded, ha, hne, ?_, hparent⟩
      rw [h.added_height a (h.decided_added a (List.mem_append_left _ ha)), hparent, ← hheight]

theorem Inv.rejected_iff (hroot : root ∉ added) {id : ID} :
    id ∈ rejectedIDs ts.log ↔ Conflicts W added (acceptedIDs ts.log) id := by
  constructor
  · exact h.conflicts_of_rejected id
  · rintro ⟨x, a, hpath, hx, ha, hne, -, hparent⟩
    have hstart := h.rejected_of_sibling hx ha hne hparent
    induction hpath using ReflTransGen.head_induction_on with
    | refl => exact hstart
    | head hstep _ ih => exact h.rejected_of_parent hroot hstep.1 (hstep.2 ▸ ih)

/-- Every block of the tree descends from the last accepted one. -/
theorem Inv.descends : ∀ id, (ts.blocks id).isSome →
    ReflTransGen (AddedOn W added) id ts.lastAcceptedID := by
  intro id
  induction hk : W.height id using Nat.strongRecOn generalizing id with
  | _ k ih =>
    intro hid
    by_cases hlast : id = ts.lastAcceptedID
    · rw [hlast]
    · obtain ⟨-, hparent, hheight⟩ := h.parent_spec hid hlast
      exact .head ⟨h.processing_added id hid hlast, rfl⟩
        (ih _ (by omega) (W.parent id) rfl hparent)

end Decided

/-! ## Safety -/

variable (W) in
/-- The blocks `added` are decided along one chain from `root`. -/
structure SingleChain (root : ID) (added : List ID) (ts : Topological U B) : Prop where
  /-- Each added block is exactly one of accepted, rejected and processing. -/
  status : ∀ id ∈ added,
    (id ∈ acceptedIDs ts.log ∧ id ∉ rejectedIDs ts.log ∧ ts.processing id = false) ∨
    (id ∉ acceptedIDs ts.log ∧ id ∈ rejectedIDs ts.log ∧ ts.processing id = false) ∨
    (id ∉ acceptedIDs ts.log ∧ id ∉ rejectedIDs ts.log ∧ ts.processing id = true)
  /-- `Accept` and `Reject` are called at most once for a block, and never both. -/
  once : (acceptedIDs ts.log ++ rejectedIDs ts.log).Nodup
  /-- Each accepted block is on the one accepted before it. -/
  chain : (root :: acceptedIDs ts.log).IsChain (Extends W)
  last : (root :: acceptedIDs ts.log).getLast? = some ts.lastAcceptedID
  rejected : ∀ id ∈ added,
    id ∈ rejectedIDs ts.log ↔ Conflicts W added (acceptedIDs ts.log) id
  /-- The blocks map holds the last accepted block and the processing ones. -/
  blocks : ∀ id, (ts.blocks id).isSome ↔ id = ts.lastAcceptedID ∨
    (id ∈ added ∧ id ∉ acceptedIDs ts.log ∧ id ∉ rejectedIDs ts.log)
  descends : ∀ id, (ts.blocks id).isSome → ReflTransGen (AddedOn W added) id ts.lastAcceptedID

theorem Inv.processing_iff (h : Inv W root added ts) {id : ID} : ts.processing id = true ↔
      id ∈ added ∧ id ∉ acceptedIDs ts.log ∧ id ∉ rejectedIDs ts.log := by
  constructor
  · intro hproc
    obtain ⟨hlast, htree⟩ : id ≠ ts.lastAcceptedID ∧ (ts.blocks id).isSome := by
      simpa [processing] using hproc
    have hundecided : id ∉ acceptedIDs ts.log ++ rejectedIDs ts.log := by
      intro hmem
      rw [h.not_processing hmem] at hproc
      cases hproc
    rw [List.mem_append, not_or] at hundecided
    exact ⟨h.processing_added id htree hlast, hundecided⟩
  · rintro ⟨hadded, hacc, hrej⟩
    rcases h.added_cases id hadded with hdecided | ⟨htree, hlast⟩
    · rcases List.mem_append.mp hdecided with ha | hr
      · exact absurd ha hacc
      · exact absurd hr hrej
    · simp [processing, hlast, htree]

/-- Snowman decides a single chain: in every state of every run, whatever the votes of
the polls and the orders they are visited in. A further poll returns. -/
theorem decides_single_chain {root : ID} {added : List ID} {ts : Topological U B}
    (hr : Reachable W F params (fun _ => True) root added ts) :
    SingleChain W root added ts ∧
      ∀ (ord : PollOrder) (votes : Bag ID), ord.Lawful →
        ∃ ts', ts.recordPoll W F params ord votes = some ts' := by
  obtain ⟨h, hroot, l, hc, -⟩ := hr.inv
  refine ⟨⟨?_, h.decided_nodup, h.chain, h.last_chain, fun id _ => h.rejected_iff hroot, ?_,
    h.descends⟩, ?_⟩
  · intro id hid
    by_cases hacc : id ∈ acceptedIDs ts.log
    · exact Or.inl ⟨hacc, fun hrej => h.not_both hacc hrej,
        h.not_processing (List.mem_append_left _ hacc)⟩
    · by_cases hrej : id ∈ rejectedIDs ts.log
      · exact Or.inr (Or.inl ⟨hacc, hrej, h.not_processing (List.mem_append_right _ hrej)⟩)
      · exact Or.inr (Or.inr ⟨hacc, hrej, h.processing_iff.mpr ⟨hid, hacc, hrej⟩⟩)
  · intro id
    rw [← h.processing_iff]
    by_cases hlast : id = ts.lastAcceptedID
    · simp [hlast, h.last_mem]
    · simp [processing, hlast]
  · intro ord votes hord
    obtain ⟨ts', -, hrun, -⟩ := recordPoll_spec F params h hc hord votes
    exact ⟨ts', hrun⟩

/-- Every block is on the block 0. -/
def flatUniverse : Universe := ⟨fun _ => 0, fun id => if id = 0 then 0 else 1⟩

/-- Visit everything in the order it is stored. -/
def storedOrder : PollOrder := ⟨id, fun _ => id, fun _ _ => id⟩

theorem storedOrder_lawful : storedOrder.Lawful :=
  ⟨fun _ => .refl _, fun _ _ => .refl _, fun _ _ _ => .refl _⟩

/-- The run that adds the blocks 1 and 2 on the root and polls once. -/
theorem Reachable.fork (params : Parameters) {legal : Bag ID → Prop} (votes : Bag ID)
    {ts₁ ts₂ ts₃ : Topological UnarySnowflake BinarySnowflake}
    (h₁ : (Initialize flatUniverse 0).add flatUniverse snowflakeFactory params 1 = .ok ts₁)
    (h₂ : ts₁.add flatUniverse snowflakeFactory params 2 = .ok ts₂) (hvotes : legal votes)
    (h₃ : ts₂.recordPoll flatUniverse snowflakeFactory params storedOrder votes = some ts₃) :
    Reachable flatUniverse snowflakeFactory params legal 0 [1, 2] ts₃ :=
  .poll (.add (.add .init rfl h₁) rfl h₂) storedOrder_lawful hvotes h₃

/-- Two blocks on the root and one vote, with `beta = 1`: one block is accepted and the
other one rejected. -/
theorem decides_single_chain_fork :
    ∃ ts₁ ts₂ ts₃ : Topological UnarySnowflake BinarySnowflake,
      (Initialize flatUniverse 0).add flatUniverse snowflakeFactory ⟨1, 1, 1, 1⟩ 1 = .ok ts₁ ∧
      ts₁.add flatUniverse snowflakeFactory ⟨1, 1, 1, 1⟩ 2 = .ok ts₂ ∧
      ts₂.recordPoll flatUniverse snowflakeFactory ⟨1, 1, 1, 1⟩ storedOrder
        ⟨[(1, 1)], by simp⟩ = some ts₃ ∧
      acceptedIDs ts₃.log = [1] ∧ rejectedIDs ts₃.log = [2] ∧
      SingleChain flatUniverse 0 [1, 2] ts₃ := by
  refine ⟨_, _, _, rfl, rfl, rfl, rfl, rfl, ?_⟩
  exact (decides_single_chain (.fork ⟨1, 1, 1, 1⟩ ⟨[(1, 1)], by simp⟩ rfl rfl trivial rfl)).1

/-! ## Finality -/

variable (W F params) in
/-- A block is added, or a poll recorded. -/
def Step (ts ts' : Topological U B) : Prop :=
  (∃ id, W.height id = W.height (W.parent id) + 1 ∧ ts.add W F params id = .ok ts') ∨
    ∃ ord votes, PollOrder.Lawful ord ∧ ts.recordPoll W F params ord votes = some ts'

/-- `calculateInDegree` and `pushVotes` count transitively: the stack, top first, is the path
from the last accepted block of the blocks whose children received `AlphaPreference` votes
together, each with the votes for every child and its descendants. -/
theorem votes_propagate_transitively {root : ID} {added : List ID} {ts : Topological U B}
    (hr : Reachable W F params (fun _ => True) root added ts) (hparams : params.Verify)
    {ord : PollOrder} (hord : ord.Lawful) (votes : Bag ID) (hvotes : votes.len ≤ params.k) :
    ∃ k stack, calculateInDegree W ts votes (ord.votes votes.list) ⟨fun _ => none, []⟩ = some k ∧
      pushVotes W params ts ord.leaves (ts.keys.length + 1) k [] = some stack ∧
      (∀ p, p ∈ stack.map Votes.parentID ↔ params.alphaPreference ≤ ts.childVotes votes p) ∧
      (∀ vote ∈ stack, ∀ c, vote.votes.count c =
        if c ∈ ts.childrenOf vote.parentID then ts.transitiveVotes votes c else 0) ∧
      (stack.map Votes.parentID).Nodup ∧ (stack.map Votes.parentID).IsChain (Edge ts) ∧
      ∀ top ∈ (stack.map Votes.parentID).head?, top = ts.lastAcceptedID := by
  obtain ⟨h, -⟩ := hr.inv
  obtain ⟨k, S, stack, hcalc, hpush, hs, hvoted, hstack, hunique⟩ :=
    voteStack_spec params h votes ord.votes hord.votes ord.leaves hord.leaves
  obtain ⟨hhalf, -⟩ := hparams
  have hu := hunique (by omega)
  refine ⟨k, stack, hcalc, hpush, ?_, hs.counts, hs.nodup, ?_, ?_⟩
  · intro p
    rw [hs.mem]
    refine ⟨fun hp => hp.2.2, fun hp => ⟨hvoted p (by omega), by simp, hp⟩⟩
  · rw [List.isChain_iff_forall_rel_of_append_cons_cons]
    intro y z Q rest hsplit
    rw [← hstack.parent_next h hu Q rest y z hsplit]
    refine (h.parent_spec (hstack.mem_tree ?_) (VoteStack.ne_last h (hsplit ▸ hstack))).1
    rw [hsplit]
    simp
  · rcases hids : stack.map Votes.parentID with _ | ⟨c, rest⟩
    · simp
    · rw [hids] at hstack
      simpa using hstack.head_eq h

theorem votes_propagate_transitively_child :
    ∃ ts : Topological UnarySnowflake BinarySnowflake,
      (Initialize flatUniverse 0).add flatUniverse snowflakeFactory ⟨1, 1, 1, 1⟩ 1 = .ok ts ∧
      ∃ k stack, calculateInDegree flatUniverse ts ⟨[(1, 1)], by simp⟩ [1] ⟨fun _ => none, []⟩ =
          some k ∧ pushVotes flatUniverse ⟨1, 1, 1, 1⟩ ts (fun _ => id) 3 k [] = some stack ∧
        ∀ p, p ∈ stack.map Votes.parentID ↔ 1 ≤ ts.childVotes ⟨[(1, 1)], by simp⟩ p := by
  refine ⟨_, rfl, ?_⟩
  have hr : Reachable flatUniverse snowflakeFactory ⟨1, 1, 1, 1⟩ (fun _ => True) 0 [1] _ :=
    .add .init rfl rfl
  obtain ⟨k, stack, hcalc, hpush, hmem, -⟩ :=
    votes_propagate_transitively hr (by decide) storedOrder_lawful ⟨[(1, 1)], by simp⟩ (le_refl 1)
  exact ⟨k, stack, hcalc, hpush, hmem⟩

/-! ## Preference -/

/-- There is one preferred path from a block. -/
theorem PreferredPath.unique (h : Inv W root added ts) {id : ID} {l₁ l₂ : List ID}
    (h₁ : PreferredPath F ts id l₁) (h₂ : PreferredPath F ts id l₂) : l₁ = l₂ := by
  -- a block with a snowball tree has children
  have hstop : ∀ {x : ID} {n m : SnowmanBlock U B} {sb : Tree U B}, ts.blocks x = some n →
      ts.blocks x = some m → n.children = [] → m.sb = some sb → False := by
    intro x n m sb hn hm hnil hsb
    have hchild := h.preference_edge F hm hsb
    simp [Edge, childrenOf, hn, hnil] at hchild
  induction h₁ generalizing l₂ with
  | leaf hn hnil =>
    cases h₂ with
    | leaf _ _ => rfl
    | step hm hsb _ => exact (hstop hn hm hnil hsb).elim
  | step hn hsb _ ih =>
    cases h₂ with
    | leaf hm hnil => exact (hstop hm hn hnil hsb).elim
    | step hm hsb' hpath =>
      rw [hn] at hm
      obtain rfl := Option.some.inj hm
      rw [hsb] at hsb'
      obtain rfl := Option.some.inj hsb'
      rw [ih hpath]

/-- The preference is the preferred leaf: following the snowball preferences from the
last accepted block leads to `Preference()`, `preferredIDs` are the blocks on the way,
all of them processing, and `PreferenceAtHeight` finds exactly these and the last
accepted block. -/
theorem preference_is_preferred_leaf {root : ID} {added : List ID} {ts : Topological U B}
    (hF : F.Lawful) (hparams : params.Verify)
    (hr : Reachable W F params (fun votes => votes.len ≤ params.k) root added ts) :
    (∃ path, PreferredPath F ts ts.lastAcceptedID path) ∧
    ∀ path, PreferredPath F ts ts.lastAcceptedID path →
      (ts.lastAcceptedID :: path).getLast? = some ts.preference ∧
      (∀ id, id ∈ ts.preferredIDs ↔ id ∈ path) ∧
      (∀ id ∈ path, ts.processing id = true) ∧
      ∀ k id, ts.preferenceAtHeight k = some id ↔
        id ∈ ts.lastAcceptedID :: path ∧ W.height id = k := by
  obtain ⟨h, -, l, hc, hp⟩ := hr.inv
  have hfew : ∀ votes : Bag ID, votes.len ≤ params.k → votes.len < 2 * params.alphaPreference := by
    intro votes hvotes
    have := hparams.1
    omega
  have hp := hp hF hfew
  refine ⟨⟨l, hp⟩, ?_⟩
  intro path hpath
  obtain rfl : l = path := hp.unique h hpath
  have hpair := pairwise_of_chain (h.extends_chain hc.path)
  have habove : ∀ id ∈ l, ts.lastAcceptedHeight < W.height id := by
    intro id hid
    rw [h.last_height]
    exact (List.pairwise_cons.mp hpair).1 id hid
  refine ⟨hc.preference, hc.ids, ?_, ?_⟩
  · intro id hid
    have htree := h.path_mem h.last_mem hc.path id (List.mem_cons_of_mem _ hid)
    have hne : id ≠ ts.lastAcceptedID := by
      rintro rfl
      have := habove _ hid
      rw [h.last_height] at this
      omega
    simp [processing, hne, htree]
  · intro k id
    unfold preferenceAtHeight
    split
    · rename_i hk
      constructor
      · intro hid
        obtain rfl := Option.some.inj hid
        exact ⟨List.mem_cons_self, by rw [hk, h.last_height]⟩
      · rintro ⟨hmem, hheight⟩
        rcases List.mem_cons.mp hmem with rfl | hid
        · rfl
        · have := habove id hid
          omega
    · rename_i hk
      rw [hc.heights]
      constructor
      · rintro ⟨hid, hheight⟩
        exact ⟨List.mem_cons_of_mem _ hid, hheight⟩
      · rintro ⟨hmem, hheight⟩
        rcases List.mem_cons.mp hmem with rfl | hid
        · rw [h.last_height] at hk
          exact absurd hheight.symm hk
        · exact ⟨hid, hheight⟩

/-- Two blocks on the root, `beta = 2`: one vote moves the preference to the second. -/
theorem preference_is_preferred_leaf_flip :
    ∃ ts₁ ts₂ ts₃ : Topological UnarySnowflake BinarySnowflake,
      (Initialize flatUniverse 0).add flatUniverse snowflakeFactory ⟨1, 1, 1, 2⟩ 1 = .ok ts₁ ∧
      ts₁.add flatUniverse snowflakeFactory ⟨1, 1, 1, 2⟩ 2 = .ok ts₂ ∧ ts₂.preference = 1 ∧
      ts₂.recordPoll flatUniverse snowflakeFactory ⟨1, 1, 1, 2⟩ storedOrder
        ⟨[(2, 1)], by simp⟩ = some ts₃ ∧ ts₃.preference = 2 ∧
      ∃ path, PreferredPath snowflakeFactory ts₃ 0 path ∧ ∀ id, id ∈ ts₃.preferredIDs ↔ id ∈ path := by
  refine ⟨_, _, _, rfl, rfl, rfl, rfl, rfl, ?_⟩
  rcases preference_is_preferred_leaf snowflakeFactory_lawful (by decide)
    (.fork ⟨1, 1, 1, 2⟩ ⟨[(2, 1)], by simp⟩ rfl rfl (by decide) rfl) with ⟨⟨path, hpath⟩, hall⟩
  exact ⟨path, hpath, (hall path hpath).2.1⟩

end Topological

end Titan.Snow
