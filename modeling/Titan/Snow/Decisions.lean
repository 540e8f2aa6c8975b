import Titan.Snow.Topological

/-!
# Titan.Snow.Decisions — Snowman decides a single chain

Safety of `Topological` over every run of `Add` and `RecordPoll`. The tree of
blocks is a forest rooted at the last accepted block; accepting a child deletes
the old root and, by `rejectTransitively`, the subtrees of the other children.

`RejectInv` is the invariant of that loop: `D` lists the blocks deleted so far.
When the stack is empty, `D` is closed under children, so it is exactly the
union of the rejected subtrees, and the log has grown by exactly `D`.
-/

namespace Titan.Snow

namespace Topological

variable {U B : Type} (W : Universe) (F : Factory U B) (params : Parameters)

/-- The children of a block, as the state records them. -/
def childrenOf (ts : Topological U B) (id : ID) : List ID :=
  match ts.blocks id with
  | some n => n.children
  | none => []

theorem childrenOf_eq {ts : Topological U B} {id : ID} {n : SnowmanBlock U B}
    (hn : ts.blocks id = some n) : ts.childrenOf id = n.children := by
  rw [childrenOf, hn]

theorem exists_block_of_child {ts : Topological U B} {p c : ID} (hc : c ∈ ts.childrenOf p) :
    ∃ n, ts.blocks p = some n ∧ n.children = ts.childrenOf p := by
  unfold childrenOf at hc ⊢
  split at hc
  · rename_i n hn
    exact ⟨n, hn, rfl⟩
  · cases hc

/-- The shape of the tree: keys and blocks agree, and a listed child is a block
of the tree that names its parent. -/
structure Forest (ts : Topological U B) : Prop where
  keys_nodup : ts.keys.Nodup
  mem_keys : ∀ id, id ∈ ts.keys ↔ (ts.blocks id).isSome
  child_mem : ∀ id c, c ∈ ts.childrenOf id → (ts.blocks c).isSome
  child_parent : ∀ id c, c ∈ ts.childrenOf id → W.parent c = id
  children_nodup : ∀ id, (ts.childrenOf id).Nodup

/-! ## Rejecting subtrees -/

/-- State `ts` of the rejection loop that started from `ts₀` with `stack₀`, below
the block `p`; `D` are the blocks deleted so far. -/
structure RejectInv (ts₀ : Topological U B) (p : ID) (stack₀ stack D : List ID)
    (ts : Topological U B) : Prop where
  blocks : ts.blocks = fun id => if id ∈ D then none else ts₀.blocks id
  keys : ts.keys = ts₀.keys.filter (· ∉ D)
  fields : ts = { ts₀ with keys := ts.keys, blocks := ts.blocks, log := ts.log }
  nodup : (stack ++ D).Nodup
  known : ∀ x ∈ stack ++ D, (ts₀.blocks x).isSome ∧ x ≠ p
  origin : ∀ x ∈ stack ++ D, x ∈ stack₀ ∨ W.parent x ∈ D
  start : ∀ x ∈ stack₀, x ∈ stack ++ D
  closed : ∀ d ∈ D, ∀ c ∈ ts₀.childrenOf d, c ∈ stack ++ D
  log : ∃ l : List ID, ts.log = ts₀.log ++ l.map .rejected ∧
    l.Perm (D.flatMap ts₀.childrenOf)

variable {W}

variable {ts₀ : Topological U B} {p : ID} {stack₀ : List ID}

theorem RejectInv.init (hnodup : stack₀.Nodup)
    (hknown : ∀ x ∈ stack₀, (ts₀.blocks x).isSome ∧ x ≠ p) :
    RejectInv W ts₀ p stack₀ stack₀ [] ts₀ where
  blocks := by simp
  keys := by simp
  fields := rfl
  nodup := by simpa using hnodup
  known := by simpa using hknown
  origin := by
    intro x hx
    exact Or.inl (by simpa using hx)
  start := by
    intro x hx
    simpa using hx
  closed := by simp
  log := ⟨[], by simp, by simp⟩

variable {ts : Topological U B} {D : List ID}

/-- One turn of the loop: the top of the stack is deleted, its children are
rejected and pushed. -/
theorem RejectInv.step {top : ID} {rest order : List ID} (hF : Forest W ts₀)
    (hroot : ∀ id, p ∉ ts₀.childrenOf id) (hstack₀ : ∀ x ∈ stack₀, W.parent x = p)
    (h : RejectInv W ts₀ p stack₀ (rest ++ [top]) D ts) (horder : order.Perm (ts₀.childrenOf top)) :
    RejectInv W ts₀ p stack₀ (rest ++ order) (D ++ [top])
      { ts.deleteBlock top with log := (ts.deleteBlock top).log ++ order.map .rejected } := by
  have htop : top ∈ (rest ++ [top]) ++ D := by simp
  have hchild : ∀ c ∈ order, c ∈ ts₀.childrenOf top := fun c hc => horder.mem_iff.mp hc
  have htopD : top ∉ D := by
    intro hmem
    exact List.disjoint_of_nodup_append h.nodup (by simp) hmem
  -- a child of `top` was neither pushed nor deleted before: its only parent is `top`
  have hfresh : ∀ c ∈ order, c ∉ (rest ++ [top]) ++ D := by
    intro c hc hmem
    have hparent := hF.child_parent top c (hchild c hc)
    rcases h.origin c hmem with hstart | hdeleted
    · have hp : top = p := by rw [← hparent, hstack₀ c hstart]
      exact (h.known top htop).2 hp
    · rw [hparent] at hdeleted
      exact htopD hdeleted
  have hsub : ∀ x, x ∈ (rest ++ order) ++ (D ++ [top]) ↔ x ∈ (rest ++ [top]) ++ D ∨ x ∈ order := by
    intro x
    simp only [List.mem_append, List.mem_singleton]
    tauto
  refine ⟨?_, ?_, ?_, ?_, ?_, ?_, ?_, ?_, ?_⟩
  · funext id
    simp only [deleteBlock, h.blocks, Function.update_apply, List.mem_append, List.mem_singleton]
    by_cases hid : id = top
    · simp [hid]
    · simp [hid]
  · simp only [deleteBlock, h.keys, List.filter_filter]
    congr 1
    funext id
    by_cases hid : id = top <;> simp [hid]
  · rw [h.fields]
    rfl
  · have hperm : ((rest ++ order) ++ (D ++ [top])).Perm (((rest ++ [top]) ++ D) ++ order) := by
      rw [List.perm_iff_count]
      intro x
      simp only [List.count_append]
      omega
    rw [hperm.nodup_iff, List.nodup_append]
    refine ⟨h.nodup, (horder.nodup_iff).mpr (hF.children_nodup top), ?_⟩
    intro a ha b hb hab
    exact hfresh b hb (hab ▸ ha)
  · intro x hx
    rcases (hsub x).mp hx with hold | hnew
    · exact h.known x hold
    · refine ⟨hF.child_mem top x (hchild x hnew), ?_⟩
      rintro rfl
      exact hroot top (hchild x hnew)
  · intro x hx
    rcases (hsub x).mp hx with hold | hnew
    · rcases h.origin x hold with hstart | hdeleted
      · exact Or.inl hstart
      · exact Or.inr (by simp [hdeleted])
    · exact Or.inr (by simp [hF.child_parent top x (hchild x hnew)])
  · intro x hx
    exact (hsub x).mpr (Or.inl (h.start x hx))
  · intro d hd c hc
    rcases List.mem_append.mp hd with hold | htop'
    · exact (hsub c).mpr (Or.inl (h.closed d hold c hc))
    · obtain rfl : d = top := by simpa using htop'
      exact (hsub c).mpr (Or.inr (horder.mem_iff.mpr hc))
  · obtain ⟨l, hl, hperm⟩ := h.log
    refine ⟨l ++ order, ?_, ?_⟩
    · simp [deleteBlock, hl]
    · rw [List.flatMap_append]
      simpa using hperm.append horder

/-- A stacked block was not deleted: it is still a key. -/
theorem RejectInv.stacked {stack : List ID} {x : ID} (h : RejectInv W ts₀ p stack₀ stack D ts) (hF : Forest W ts₀)
    (hx : x ∈ stack) : ts.blocks x = ts₀.blocks x ∧ (ts₀.blocks x).isSome ∧ x ∈ ts.keys := by
  have hknown := (h.known x (List.mem_append_left _ hx)).1
  have hD : x ∉ D := fun hmem => List.disjoint_of_nodup_append h.nodup hx hmem
  refine ⟨by simp [h.blocks, hD], hknown, ?_⟩
  rw [h.keys, List.mem_filter]
  exact ⟨(hF.mem_keys x).mpr hknown, by simpa using hD⟩

/-- The loop returns: each turn deletes a key, so as many turns as there are keys
are enough. -/
theorem rejectTransitively_spec (ord : ℕ → List ID → List ID) (hord : ∀ n l, (ord n l).Perm l)
    (hF : Forest W ts₀) (hroot : ∀ id, p ∉ ts₀.childrenOf id)
    (hstack₀ : ∀ x ∈ stack₀, W.parent x = p) (fuel : ℕ) (stack D : List ID) (ts : Topological U B)
    (h : RejectInv W ts₀ p stack₀ stack D ts) (hfuel : ts.keys.length ≤ fuel) :
    ∃ ts' D', rejectTransitively ord fuel stack ts = some ts' ∧
      RejectInv W ts₀ p stack₀ [] D' ts' := by
  induction fuel generalizing stack D ts with
  | zero =>
    cases stack with
    | nil => exact ⟨ts, D, rfl, h⟩
    | cons id rest =>
      -- a stacked block is still a key, so the keys are not exhausted
      have := List.length_pos_of_mem (h.stacked hF List.mem_cons_self).2.2
      omega
  | succ fuel ih =>
    cases stack with
    | nil => exact ⟨ts, D, by rw [rejectTransitively], h⟩
    | cons id rest =>
      obtain ⟨front, top, hsplit⟩ : ∃ front top, id :: rest = front ++ [top] :=
        ⟨_, _, (List.dropLast_append_getLast (List.cons_ne_nil id rest)).symm⟩
      rw [hsplit] at h
      obtain ⟨hblock, hknown, hkey⟩ := h.stacked hF (x := top) (by simp)
      obtain ⟨n, hn⟩ := Option.isSome_iff_exists.mp hknown
      rw [hn] at hblock
      have horder : (ord fuel n.children).Perm (ts₀.childrenOf top) := by
        rw [childrenOf_eq hn]
        exact hord fuel n.children
      have hstep := h.step hF hroot hstack₀ horder
      have hless : (ts.deleteBlock top).keys.length ≤ fuel := by
        have : (ts.keys.filter (· ≠ top)).length < ts.keys.length :=
          List.length_filter_lt_length_iff_exists.mpr ⟨top, hkey, by simp⟩
        simp only [deleteBlock]
        omega
      obtain ⟨ts', D', hrun, hinv⟩ := ih _ _ _ hstep hless
      refine ⟨ts', D', ?_, hinv⟩
      have hlast : (id :: rest).getLast (List.cons_ne_nil _ _) = top := by simp [hsplit]
      have hfront : (id :: rest).dropLast = front := by simp [hsplit]
      rw [rejectTransitively]
      simp only [hlast, hfront, hblock]
      exact hrun

/-! ## The invariant -/

/-- The accepted blocks of a log, in order. -/
def acceptedIDs (log : List Decision) : List ID :=
  log.filterMap fun
    | .accepted id => some id
    | .rejected _ => none

/-- The rejected blocks of a log, in order. -/
def rejectedIDs (log : List Decision) : List ID :=
  log.filterMap fun
    | .accepted _ => none
    | .rejected id => some id

@[simp] theorem acceptedIDs_append (l₁ l₂ : List Decision) :
    acceptedIDs (l₁ ++ l₂) = acceptedIDs l₁ ++ acceptedIDs l₂ := List.filterMap_append

@[simp] theorem rejectedIDs_append (l₁ l₂ : List Decision) :
    rejectedIDs (l₁ ++ l₂) = rejectedIDs l₁ ++ rejectedIDs l₂ := List.filterMap_append

@[simp] theorem rejectedIDs_rejected (l : List ID) : rejectedIDs (l.map .rejected) = l := by
  simp [rejectedIDs]

/-- `b` is a block right above `a`. -/
def Extends (W : Universe) (a b : ID) : Prop := W.parent b = a ∧ W.height b = W.height a + 1

/-- A snowball tree exists exactly for a block with children, and prefers among
them. -/
def SnowmanBlock.Ok (n : SnowmanBlock U B) : Prop :=
  match n.sb with
  | none => n.children = []
  | some sb => sb.node.PrefersIn (· ∈ n.children)

variable (W)

/-- What holds between the calls of a run that started at `root` and added the
blocks `added`. -/
structure Inv (root : ID) (added : List ID) (ts : Topological U B) : Prop where
  forest : Forest W ts
  last_mem : (ts.blocks ts.lastAcceptedID).isSome
  last_height : ts.lastAcceptedHeight = W.height ts.lastAcceptedID
  last_root : ∀ id, ts.lastAcceptedID ∉ ts.childrenOf id
  parent_mem : ∀ id, (ts.blocks id).isSome → id ≠ ts.lastAcceptedID →
    id ∈ ts.childrenOf (W.parent id)
  has_blk : ∀ id n, ts.blocks id = some n → id ≠ ts.lastAcceptedID → n.hasBlk = true
  node_ok : ∀ id n, ts.blocks id = some n → SnowmanBlock.Ok n
  added_height : ∀ id ∈ added, W.height id = W.height (W.parent id) + 1
  processing_added : ∀ id, (ts.blocks id).isSome → id ≠ ts.lastAcceptedID → id ∈ added
  decided_added : ∀ id ∈ acceptedIDs ts.log ++ rejectedIDs ts.log, id ∈ added
  added_cases : ∀ id ∈ added, id ∈ acceptedIDs ts.log ++ rejectedIDs ts.log ∨
    ((ts.blocks id).isSome ∧ id ≠ ts.lastAcceptedID)
  decided_nodup : (acceptedIDs ts.log ++ rejectedIDs ts.log).Nodup
  decided_gone : ∀ id ∈ root :: (acceptedIDs ts.log ++ rejectedIDs ts.log),
    id ≠ ts.lastAcceptedID → ts.blocks id = none
  parent_gone : ∀ id ∈ acceptedIDs ts.log ++ rejectedIDs ts.log, ts.blocks (W.parent id) = none
  chain : (root :: acceptedIDs ts.log).IsChain (Extends W)
  last_chain : (root :: acceptedIDs ts.log).getLast? = some ts.lastAcceptedID
  conflict : ∀ id ∈ rejectedIDs ts.log, W.parent id ∈ rejectedIDs ts.log ∨
    ∃ a ∈ acceptedIDs ts.log, a ≠ id ∧ W.parent a = W.parent id

variable {W}

theorem inv_init (root : ID) : Inv W root [] (Initialize W root : Topological U B) := by
  have hblocks : ∀ id n, (Initialize W root : Topological U B).blocks id = some n →
      id = root ∧ n = ⟨false, false, none, []⟩ := by
    intro id n hn
    simp only [Initialize] at hn
    split at hn
    · exact ⟨‹_›, (Option.some.inj hn).symm⟩
    · cases hn
  have hsome : ∀ id, ((Initialize W root : Topological U B).blocks id).isSome → id = root := by
    intro id hid
    obtain ⟨n, hn⟩ := Option.isSome_iff_exists.mp hid
    exact (hblocks id n hn).1
  have hchildren : ∀ id, (Initialize W root : Topological U B).childrenOf id = [] := by
    intro id
    unfold childrenOf
    split
    · rename_i n hn
      rw [(hblocks id n hn).2]
    · rfl
  have hforest : Forest W (Initialize W root : Topological U B) := by
    refine ⟨by simp [Initialize], fun id => ?_, ?_, ?_, ?_⟩
    · by_cases hid : id = root <;> simp [Initialize, hid]
    all_goals simp [hchildren]
  refine ⟨hforest, ?_, rfl, ?_, fun id hid hne => absurd (hsome id hid) hne,
    fun id n hn hne => absurd (hblocks id n hn).1 hne, ?_, ?_, fun id hid hne => absurd (hsome id hid) hne,
    ?_, ?_, ?_, ?_, ?_, ?_, ?_, ?_⟩
  · simp [Initialize]
  · simp [hchildren]
  · intro id n hn
    rw [(hblocks id n hn).2]
    exact rfl
  all_goals simp [Initialize, acceptedIDs, rejectedIDs]

/-! ## Updating a node -/

variable {id : ID} {n : SnowmanBlock U B}

variable {n' : SnowmanBlock U B}

theorem isSome_setBlock (hn : ts.blocks id = some n) (x : ID) :
    ((ts.setBlock id n').blocks x).isSome = (ts.blocks x).isSome := by
  by_cases hx : x = id
  · simp [setBlock, hx, hn]
  · simp [setBlock, hx]

theorem childrenOf_setBlock (hn : ts.blocks id = some n) (hchildren : n'.children = n.children)
    (x : ID) : (ts.setBlock id n').childrenOf x = ts.childrenOf x := by
  by_cases hx : x = id
  · simp [setBlock, childrenOf, hx, hn, hchildren]
  · simp [setBlock, childrenOf, hx]

variable {root : ID} {added : List ID}

/-- Votes and flags of a node may change; its block and its children stay. -/
theorem Inv.setNode (h : Inv W root added ts) (hn : ts.blocks id = some n)
    (hchildren : n'.children = n.children) (hblk : n'.hasBlk = n.hasBlk) (hok : SnowmanBlock.Ok n') :
    Inv W root added (ts.setBlock id n') := by
  have hkey : id ∈ ts.keys := (h.forest.mem_keys id).mpr (by simp [hn])
  have hkeys : (ts.setBlock id n').keys = ts.keys := by simp [setBlock, hkey]
  have hsome := @isSome_setBlock U B ts id n n' hn
  have hkids := childrenOf_setBlock hn hchildren
  have hnone : ∀ x, ts.blocks x = none → (ts.setBlock id n').blocks x = none := by
    intro x hx
    have := hsome x
    rw [hx] at this
    simpa using this
  have hnode : ∀ x m, (ts.setBlock id n').blocks x = some m →
      ∃ m₀, ts.blocks x = some m₀ ∧ m.hasBlk = m₀.hasBlk ∧ (SnowmanBlock.Ok m₀ → SnowmanBlock.Ok m) := by
    intro x m hm
    by_cases hx : x = id
    · subst hx
      obtain rfl : n' = m := by simpa [setBlock] using hm
      exact ⟨n, hn, hblk, fun _ => hok⟩
    · refine ⟨m, ?_, rfl, fun hm => hm⟩
      simpa [setBlock, hx] using hm
  have hforest : Forest W (ts.setBlock id n') := by
    refine ⟨?_, ?_, ?_, ?_, ?_⟩ <;> simp only [hkeys, hsome, hkids]
    · exact h.forest.keys_nodup
    · exact h.forest.mem_keys
    · exact h.forest.child_mem
    · exact h.forest.child_parent
    · exact h.forest.children_nodup
  exact { h with
    forest := hforest
    last_mem := (hsome _).trans h.last_mem
    last_root := fun x => (hkids x).symm ▸ h.last_root x
    parent_mem := fun x hx hne => (hkids _).symm ▸ h.parent_mem x (hsome x ▸ hx) hne
    has_blk := by
      intro x m hm hne
      obtain ⟨m₀, hm₀, hb, -⟩ := hnode x m hm
      rw [hb]
      exact h.has_blk x m₀ hm₀ hne
    node_ok := by
      intro x m hm
      obtain ⟨m₀, hm₀, -, hk⟩ := hnode x m hm
      exact hk (h.node_ok x m₀ hm₀)
    processing_added := fun x hx hne => h.processing_added x (hsome x ▸ hx) hne
    added_cases := by
      intro x hx
      rw [hsome]
      exact h.added_cases x hx
    decided_gone := fun x hx hne => hnone x (h.decided_gone x hx hne)
    parent_gone := fun x hx => hnone _ (h.parent_gone x hx) }

/-! ## Heights -/

/-- A processing block is above the last accepted one. -/
theorem Inv.height_lt (h : Inv W root added ts) :
    ∀ id, (ts.blocks id).isSome → id ≠ ts.lastAcceptedID →
    W.height ts.lastAcceptedID < W.height id := by
  -- induction on the height: the parent is the last accepted block or processing
  intro id
  induction hk : W.height id using Nat.strongRecOn generalizing id with
  | _ k ih =>
    intro hid hne
    have hheight := h.added_height id (h.processing_added id hid hne)
    have hparent : (ts.blocks (W.parent id)).isSome := by
      obtain ⟨n, hn, -⟩ := exists_block_of_child (h.parent_mem id hid hne)
      simp [hn]
    by_cases hlast : W.parent id = ts.lastAcceptedID
    · rw [hlast] at hheight
      omega
    · have := ih (W.height (W.parent id)) (by omega) (W.parent id) rfl hparent hlast
      omega

section Chains

variable {α : Type} {R : α → α → Prop} {a b : α} {l₁ l₂ : List α}

@[simp] theorem getLast?_cons_concat : (a :: (l₁ ++ [b])).getLast? = some b := by
  rw [← List.cons_append, List.getLast?_concat]

theorem getLast?_append_of_last (hb : (a :: l₁).getLast? = some b) :
    (a :: (l₁ ++ l₂)).getLast? = (b :: l₂).getLast? := by
  rw [← List.cons_append, List.getLast?_append, hb, List.getLast?_cons]
  cases l₂.getLast? <;> rfl

/-- Two chains, the second of which starts where the first one ends. -/
theorem chain_append (h₁ : (a :: l₁).IsChain R) (hb : (a :: l₁).getLast? = some b)
    (h₂ : (b :: l₂).IsChain R) : (a :: (l₁ ++ l₂)).IsChain R := by
  rw [← List.cons_append, List.isChain_append]
  refine ⟨h₁, (List.isChain_cons.mp h₂).2, fun x hx y hy => ?_⟩
  rw [hb] at hx
  obtain rfl := Option.some.inj hx
  exact (List.isChain_cons.mp h₂).1 y hy

end Chains

variable {x : ID}

/-- In a chain, every element but the first extends one before it. -/
theorem exists_extended {a : ID} {l : List ID} (h : (a :: l).IsChain (Extends W)) (hx : x ∈ l) :
    ∃ y ∈ a :: l, Extends W y x := by
  induction l generalizing a with
  | nil => cases hx
  | cons b l ih =>
    rw [List.isChain_cons_cons] at h
    rcases List.mem_cons.mp hx with rfl | hx
    · exact ⟨a, by simp, h.1⟩
    · obtain ⟨y, hy, hext⟩ := ih h.2 hx
      exact ⟨y, List.mem_cons_of_mem a hy, hext⟩

theorem height_le_of_chain {a : ID} {l : List ID} (h : (a :: l).IsChain (Extends W))
    (hx : x ∈ a :: l) : W.height a ≤ W.height x := by
  induction l generalizing a with
  | nil => exact Nat.le_of_eq (by rw [List.mem_singleton.mp hx])
  | cons b l ih =>
    rw [List.isChain_cons_cons] at h
    rcases List.mem_cons.mp hx with rfl | hx
    · exact Nat.le_refl _
    · have hb := h.1.2
      have := ih h.2 hx
      omega

section

variable (h : Inv W root added ts)
include h

theorem Inv.root_height_le : W.height root ≤ W.height ts.lastAcceptedID :=
  height_le_of_chain h.chain (List.mem_of_getLast? h.last_chain)

/-- The parent of a decided block is decided, or the block the run started from. -/
theorem Inv.decided_parent (hx : x ∈ acceptedIDs ts.log ++ rejectedIDs ts.log) :
    W.parent x ∈ root :: (acceptedIDs ts.log ++ rejectedIDs ts.log) := by
  have haccepted : ∀ a ∈ acceptedIDs ts.log, W.parent a ∈ root :: acceptedIDs ts.log := by
    intro a ha
    obtain ⟨y, hy, hext⟩ := exists_extended h.chain ha
    rw [hext.1]
    exact hy
  have hsub : ∀ y ∈ root :: acceptedIDs ts.log,
      y ∈ root :: (acceptedIDs ts.log ++ rejectedIDs ts.log) := by
    intro y hy
    simp only [List.mem_cons, List.mem_append] at hy ⊢
    tauto
  rcases List.mem_append.mp hx with hacc | hrej
  · exact hsub _ (haccepted x hacc)
  · rcases h.conflict x hrej with hparent | ⟨a, ha, -, hparent⟩
    · simp [hparent]
    · rw [← hparent]
      exact hsub _ (haccepted a ha)

/-! ## Adding a block -/

/-- A block that is not processing and whose parent is in the tree is new: it was
never added, and it is neither the last accepted block nor the first one. -/
theorem Inv.fresh (hproc : ts.processing id = false) (hparent : (ts.blocks (W.parent id)).isSome)
    (hheight : W.height id = W.height (W.parent id) + 1) :
    id ∉ root :: added ∧ id ≠ ts.lastAcceptedID ∧ ts.blocks id = none := by
  have hbelow : W.height ts.lastAcceptedID ≤ W.height (W.parent id) := by
    by_cases hp : W.parent id = ts.lastAcceptedID
    · exact Nat.le_of_eq (by rw [hp])
    · exact Nat.le_of_lt (h.height_lt _ hparent hp)
  have hlast : id ≠ ts.lastAcceptedID := by
    -- its parent would be a block of the tree below the last accepted one
    rintro rfl
    omega
  have hnone : ts.blocks id = none := by
    simpa [processing, hlast] using hproc
  refine ⟨?_, hlast, hnone⟩
  intro hmem
  rcases List.mem_cons.mp hmem with rfl | hadded
  · have := h.root_height_le
    omega
  rcases h.added_cases id hadded with hdecided | ⟨hsome, -⟩
  · rw [h.parent_gone id hdecided] at hparent
    cases hparent
  · rw [hnone] at hsome
    cases hsome

omit h in
theorem addChild_ok (hn : SnowmanBlock.Ok n) (c : ID) :
    SnowmanBlock.Ok (addChild F params n c) := by
  have hsub : ∀ x, x ∈ n.children →
      x ∈ (if c ∈ n.children then n.children else n.children ++ [c]) := by
    intro x hx
    split
    · exact hx
    · exact List.mem_append_left _ hx
  have hself : c ∈ (if c ∈ n.children then n.children else n.children ++ [c]) := by
    split
    · assumption
    · simp
  unfold SnowmanBlock.Ok at hn ⊢
  unfold addChild
  rcases hsb : n.sb with _ | sb
  · exact ⟨hself, trivial⟩
  · rw [hsb] at hn
    exact Tree.add_prefersIn F params (Node.PrefersIn.mono hsub hn) hself

/-- The invariant does not look at the preference cache. -/
theorem Inv.prefer (ids : List ID) (heights : ℕ → Option ID) (pref : ID) :
    Inv W root added
      { ts with preferredIDs := ids, preferredHeights := heights, preference := pref } :=
  { h with forest := { h.forest with } }

variable (W) in
/-- The tree after `Add`, without the preference cache. -/
def inserted (ts : Topological U B) (parentNode : SnowmanBlock U B) (id : ID) : Topological U B :=
  (ts.setBlock (W.parent id) (addChild F params parentNode id)).setBlock id ⟨true, false, none, []⟩

theorem Inv.insert {parentNode : SnowmanBlock U B}
    (hproc : ts.processing id = false) (hparent : ts.blocks (W.parent id) = some parentNode)
    (hheight : W.height id = W.height (W.parent id) + 1) :
    Inv W root (added ++ [id]) (inserted W F params ts parentNode id) := by
  obtain ⟨hnew, hlast, hnone⟩ := h.fresh hproc (by simp [hparent]) hheight
  have hne : W.parent id ≠ id := by
    intro heq
    rw [heq] at hheight
    omega
  have hkids := childrenOf_eq hparent
  have hnotChild : ∀ x, id ∉ ts.childrenOf x := by
    intro x hx
    have := h.forest.child_mem x id hx
    rw [hnone] at this
    cases this
  have hchildren' : (addChild F params parentNode id).children = parentNode.children ++ [id] := by
    have : id ∉ parentNode.children := by
      rw [← hkids]
      exact hnotChild _
    simp [addChild, this]
  set ts' := inserted W F params ts parentNode id with hts'
  have hblocks : ∀ x, ts'.blocks x = if x = id then some ⟨true, false, none, []⟩ else
      if x = W.parent id then some (addChild F params parentNode id) else ts.blocks x := by
    intro x
    simp only [hts', inserted, setBlock, Function.update_apply]
  have hsome : ∀ x, (ts'.blocks x).isSome ↔ x = id ∨ (ts.blocks x).isSome := by
    intro x
    rw [hblocks]
    by_cases hx : x = id
    · simp [hx]
    · by_cases hxp : x = W.parent id
      · simp [hxp, hparent, hne]
      · simp [hx, hxp]
  have hchildrenOf : ∀ x, ts'.childrenOf x = if x = id then [] else
      if x = W.parent id then ts.childrenOf x ++ [id] else ts.childrenOf x := by
    intro x
    unfold childrenOf
    rw [hblocks]
    by_cases hx : x = id
    · simp [hx]
    · by_cases hxp : x = W.parent id
      · simp [hxp, hne, hparent, hchildren']
      · simp [hx, hxp]
  have hmem : ∀ x c, c ∈ ts'.childrenOf x →
      c ∈ ts.childrenOf x ∨ (c = id ∧ x = W.parent id) := by
    intro x c hc
    rw [hchildrenOf] at hc
    split at hc
    · cases hc
    · split at hc
      · rcases List.mem_append.mp hc with hold | hself
        · exact Or.inl hold
        · exact Or.inr ⟨by simpa using hself, ‹_›⟩
      · exact Or.inl hc
  have hkey : W.parent id ∈ ts.keys := (h.forest.mem_keys _).mpr (by simp [hparent])
  have hidKey : id ∉ ts.keys := by
    intro hk
    have := (h.forest.mem_keys id).mp hk
    rw [hnone] at this
    cases this
  have hkeys : ts'.keys = ts.keys ++ [id] := by
    simp [hts', inserted, setBlock, hkey, hidKey]
  have hnone' : ∀ x, ts.blocks x = none → x ≠ id → ts'.blocks x = none := by
    intro x hx hxid
    have := (hsome x).not.mpr (by simp [hx, hxid])
    simpa using this
  have hundecided : id ∉ root :: (acceptedIDs ts.log ++ rejectedIDs ts.log) := by
    intro hmem
    rcases List.mem_cons.mp hmem with hroot | hdecided
    · exact hnew (hroot ▸ List.mem_cons_self)
    · exact hnew (List.mem_cons_of_mem _ (h.decided_added id hdecided))
  refine ⟨⟨?_, ?_, ?_, ?_, ?_⟩, ?_, h.last_height, ?_, ?_, ?_, ?_, ?_, ?_, ?_, ?_,
    h.decided_nodup, ?_, ?_, h.chain, h.last_chain, h.conflict⟩
  · rw [hkeys, ← List.concat_eq_append]
    exact List.Nodup.concat hidKey h.forest.keys_nodup
  · intro x
    rw [hkeys, hsome, List.mem_append, h.forest.mem_keys]
    simp only [List.mem_singleton]
    tauto
  · intro x c hc
    rw [hsome]
    rcases hmem x c hc with hold | ⟨rfl, -⟩
    · exact Or.inr (h.forest.child_mem x c hold)
    · exact Or.inl rfl
  · intro x c hc
    rcases hmem x c hc with hold | ⟨rfl, rfl⟩
    · exact h.forest.child_parent x c hold
    · rfl
  · intro x
    rw [hchildrenOf]
    split
    · exact List.nodup_nil
    · split
      · rw [← List.concat_eq_append]
        exact List.Nodup.concat (hnotChild x) (h.forest.children_nodup x)
      · exact h.forest.children_nodup x
  · exact (hsome _).mpr (Or.inr h.last_mem)
  · intro x hx
    rcases hmem x _ hx with hold | ⟨heq, -⟩
    · exact h.last_root x hold
    · exact hlast heq.symm
  · intro x hx hxne
    rw [hchildrenOf]
    rcases (hsome x).mp hx with rfl | hold
    · simp [hne]
    · have hold' := h.parent_mem x hold hxne
      have hxp : W.parent x ≠ id := by
        intro heq
        rw [heq] at hold'
        simp [childrenOf, hnone] at hold'
      rw [if_neg hxp]
      split
      · exact List.mem_append_left _ hold'
      · exact hold'
  · intro x n hn hxne
    rw [hblocks] at hn
    split at hn
    · rw [← Option.some.inj hn]
    · split at hn
      · rename_i hxp
        rw [← Option.some.inj hn]
        exact h.has_blk _ parentNode hparent (hxp ▸ hxne)
      · exact h.has_blk x n hn hxne
  · intro x n hn
    rw [hblocks] at hn
    split at hn
    · rw [← Option.some.inj hn]
      exact rfl
    · split at hn
      · rw [← Option.some.inj hn]
        exact addChild_ok F params (h.node_ok _ parentNode hparent) id
      · exact h.node_ok x n hn
  · intro x hx
    rcases List.mem_append.mp hx with hold | hself
    · exact h.added_height x hold
    · obtain rfl : x = id := by simpa using hself
      exact hheight
  · intro x hx hxne
    rcases (hsome x).mp hx with rfl | hold
    · simp
    · exact List.mem_append_left _ (h.processing_added x hold hxne)
  · intro x hx
    exact List.mem_append_left _ (h.decided_added x hx)
  · intro x hx
    rcases List.mem_append.mp hx with hold | hself
    · rcases h.added_cases x hold with hd | ⟨hs, hl⟩
      · exact Or.inl hd
      · exact Or.inr ⟨(hsome x).mpr (Or.inr hs), hl⟩
    · obtain rfl : x = id := by simpa using hself
      exact Or.inr ⟨(hsome x).mpr (Or.inl rfl), hlast⟩
  · intro x hx hxne
    exact hnone' x (h.decided_gone x hx hxne) fun heq => hundecided (heq ▸ hx)
  · -- a decided block keeps a parent that left the tree: the new block is not it
    intro x hx
    exact hnone' _ (h.parent_gone x hx) fun heq => hundecided (heq ▸ h.decided_parent hx)

/-! ## Accepting a block -/

variable (W) in
/-- Accepting the child `pref` of the last accepted block: that block leaves the
tree, and so do the blocks `D`, which are the subtrees of the other children. -/
structure Prune (ts : Topological U B) (pref : ID) (D : List ID) (ts' : Topological U B) : Prop where
  pref_child : pref ∈ ts.childrenOf ts.lastAcceptedID
  last : ts'.lastAcceptedID = pref
  last_height : ts'.lastAcceptedHeight = W.height pref
  blocks : ∀ x, ts'.blocks x = if x = ts.lastAcceptedID ∨ x ∈ D then none else ts.blocks x
  keys : ts'.keys = ts.keys.filter fun x => x ≠ ts.lastAcceptedID ∧ x ∉ D
  log : ∃ rejected : List ID, rejected.Perm D ∧
    ts'.log = ts.log ++ .accepted pref :: rejected.map .rejected
  nodup : D.Nodup
  known : ∀ x ∈ D, (ts.blocks x).isSome ∧ x ≠ ts.lastAcceptedID ∧ x ≠ pref
  origin : ∀ x ∈ D, W.parent x = ts.lastAcceptedID ∨ W.parent x ∈ D
  siblings : ∀ x ∈ ts.childrenOf ts.lastAcceptedID, x ≠ pref → x ∈ D
  closed : ∀ d ∈ D, ∀ c ∈ ts.childrenOf d, c ∈ D
  preferredIDs : ts'.preferredIDs = ts.preferredIDs.filter (· ≠ pref)
  preferredHeights :
    ts'.preferredHeights = Function.update ts.preferredHeights (W.height pref) none
  preference : ts'.preference = ts.preference

/-- `acceptPreferredChild` returns, and with the deletion of the old last accepted
block it is a pruning. -/
theorem acceptPreferredChild_prune {sb : Tree U B}
    (hn : ts.blocks ts.lastAcceptedID = some n) (hsb : n.sb = some sb) (ord : ℕ → List ID → List ID)
    (hord : ∀ k l, (ord k l).Perm l) :
    ∃ ts₁ D, acceptPreferredChild W F ts ord n = some ts₁ ∧
      Prune W ts (sb.preference F) D (ts₁.deleteBlock ts.lastAcceptedID) := by
  set p := ts.lastAcceptedID with hp
  set pref := sb.preference F with hpref
  have hkids := childrenOf_eq hn
  have hmem : pref ∈ n.children := by
    have hok := h.node_ok p n hn
    rw [SnowmanBlock.Ok, hsb] at hok
    exact Tree.preference_mem F hok
  set rejects := (ord ts.keys.length n.children).filter (· ≠ pref) with hrejects
  have hmemRejects : ∀ x, x ∈ rejects ↔ x ∈ ts.childrenOf p ∧ x ≠ pref := by
    intro x
    rw [hrejects, List.mem_filter, (hord _ _).mem_iff, hkids]
    simp
  have hnodup : rejects.Nodup :=
    (((hord _ _).nodup_iff).mpr (hkids ▸ h.forest.children_nodup p)).filter _
  set ts₀ : Topological U B :=
    { ts with
      lastAcceptedID := pref
      lastAcceptedHeight := W.height pref
      preferredIDs := ts.preferredIDs.filter (· ≠ pref)
      preferredHeights := Function.update ts.preferredHeights (W.height pref) none
      log := ts.log ++ .accepted pref :: rejects.map .rejected } with hts₀
  have hforest : Forest W ts₀ := { h.forest with }
  have hparent : ∀ x ∈ rejects, W.parent x = p := by
    intro x hx
    exact h.forest.child_parent p x ((hmemRejects x).mp hx).1
  have hknown : ∀ x ∈ rejects, (ts₀.blocks x).isSome ∧ x ≠ p := by
    intro x hx
    have hchild := ((hmemRejects x).mp hx).1
    refine ⟨h.forest.child_mem p x hchild, ?_⟩
    rintro rfl
    exact h.last_root _ hchild
  obtain ⟨ts₁, D, hrun, hinv⟩ := rejectTransitively_spec ord hord hforest h.last_root hparent
    ts.keys.length rejects [] ts₀ (RejectInv.init hnodup hknown) (Nat.le_refl _)
  have hprefD : pref ∉ D := by
    intro hD
    rcases hinv.origin pref (by simpa using hD) with hstart | hdeleted
    · exact ((hmemRejects pref).mp hstart).2 rfl
    · rw [h.forest.child_parent p pref (hkids ▸ hmem)] at hdeleted
      exact (hinv.known p (by simpa using hdeleted)).2 rfl
  have hknownD : ∀ x ∈ D, (ts.blocks x).isSome ∧ x ≠ p := by
    intro x hx
    exact hinv.known x (by simpa using hx)
  have hclosed : ∀ d ∈ D, ∀ c ∈ ts.childrenOf d, c ∈ D := by
    intro d hd c hc
    simpa using hinv.closed d hd c hc
  have hstartD : ∀ x ∈ rejects, x ∈ D := by
    intro x hx
    simpa using hinv.start x hx
  have hnodupD : D.Nodup := by simpa using hinv.nodup
  refine ⟨ts₁, D, ?_, ?_⟩
  · rw [acceptPreferredChild, hsb]
    simp only [← hpref, hmem, not_true, if_false, ← hrejects]
    exact hrun
  · have hfields := hinv.fields
    refine ⟨hkids ▸ hmem, ?_, ?_, ?_, ?_, ?_, hnodupD, ?_, ?_, ?_, hclosed, ?_, ?_, ?_⟩
    · rw [deleteBlock, hfields]
    · rw [deleteBlock, hfields]
    · intro x
      simp only [deleteBlock, hinv.blocks, Function.update_apply, ← hp]
      by_cases hx : x = p
      · simp [hx]
      · simp [hx, hts₀]
    · simp only [deleteBlock, hinv.keys, List.filter_filter]
      congr 1
      funext x
      simp [← hp]
    · -- the rejected blocks are the siblings and the children of deleted blocks
      obtain ⟨l, hlog, hperm⟩ := hinv.log
      refine ⟨rejects ++ l, ?_, ?_⟩
      · have hmemL : ∀ x, x ∈ l ↔ ∃ d ∈ D, x ∈ ts.childrenOf d := by
          intro x
          rw [hperm.mem_iff, List.mem_flatMap]
          rfl
        have hnodupL : l.Nodup := by
          rw [hperm.nodup_iff, List.nodup_flatMap]
          refine ⟨fun d _ => h.forest.children_nodup d, ?_⟩
          refine List.Pairwise.imp ?_ hnodupD
          intro a b hab x hxa hxb
          exact hab (by rw [← h.forest.child_parent a x hxa, h.forest.child_parent b x hxb])
        have hnodupAll : (rejects ++ l).Nodup := by
          rw [List.nodup_append]
          refine ⟨hnodup, hnodupL, ?_⟩
          rintro a ha b hb rfl
          obtain ⟨d, hd, hchild⟩ := (hmemL a).mp hb
          have : d = p := by rw [← h.forest.child_parent d a hchild, hparent a ha]
          exact (hknownD d hd).2 this
        rw [List.perm_ext_iff_of_nodup hnodupAll hnodupD]
        intro x
        rw [List.mem_append, hmemL]
        constructor
        · rintro (hx | ⟨d, hd, hx⟩)
          · exact hstartD x hx
          · exact hclosed d hd x hx
        · intro hx
          rcases hinv.origin x (by simpa using hx) with hstart | hdeleted
          · exact Or.inl hstart
          · exact Or.inr ⟨W.parent x, hdeleted, h.parent_mem x (hknownD x hx).1 (hknownD x hx).2⟩
      · simp [deleteBlock, hlog, hts₀]
    · intro x hx
      refine ⟨(hknownD x hx).1, (hknownD x hx).2, ?_⟩
      rintro rfl
      exact hprefD hx
    · intro x hx
      rcases hinv.origin x (by simpa using hx) with hstart | hdeleted
      · exact Or.inl (hparent x hstart)
      · exact Or.inr hdeleted
    · intro x hx hne
      exact hstartD x ((hmemRejects x).mpr ⟨hx, hne⟩)
    · rw [deleteBlock, hfields]
    · rw [deleteBlock, hfields]
    · rw [deleteBlock, hfields]

end

variable {ts' : Topological U B} {pref : ID}

variable (hpr : Prune W ts pref D ts')
include hpr

theorem Prune.isSome_iff (x : ID) :
    (ts'.blocks x).isSome ↔ (ts.blocks x).isSome ∧ x ≠ ts.lastAcceptedID ∧ x ∉ D := by
  rw [hpr.blocks]
  split
  · rename_i hx
    tauto
  · rename_i hx
    tauto

/-- A block that stays keeps its node. -/
theorem Prune.blocks_eq (hn : ts'.blocks x = some n) :
    ts.blocks x = some n ∧ x ≠ ts.lastAcceptedID := by
  have hx := (hpr.isSome_iff x).mp (by simp [hn])
  refine ⟨?_, hx.2.1⟩
  rwa [hpr.blocks, if_neg (by tauto)] at hn

theorem Prune.mem_childrenOf (x c : ID) :
    c ∈ ts'.childrenOf x ↔ c ∈ ts.childrenOf x ∧ x ≠ ts.lastAcceptedID ∧ x ∉ D := by
  unfold childrenOf
  rw [hpr.blocks]
  split
  · rename_i n hn
    split at hn
    · cases hn
    · rename_i hx
      simp only [hn]
      tauto
  · rename_i hn
    split at hn
    · rename_i hx
      tauto
    · simp [hn]

theorem Prune.pref_notMem : pref ∉ D := fun hD => (hpr.known pref hD).2.2 rfl

/-- The decisions after a pruning: one more accepted block, and `D` rejected. -/
theorem Prune.decisions :
    acceptedIDs ts'.log = acceptedIDs ts.log ++ [pref] ∧
      ∃ rejected : List ID, rejected.Perm D ∧
        rejectedIDs ts'.log = rejectedIDs ts.log ++ rejected := by
  obtain ⟨rejected, hperm, hlog⟩ := hpr.log
  have hcons : ts'.log = ts.log ++ ([.accepted pref] ++ rejected.map .rejected) := hlog
  rw [hcons]
  refine ⟨?_, rejected, hperm, ?_⟩
  · simp [acceptedIDs]
  · rw [rejectedIDs_append, rejectedIDs_append, rejectedIDs_rejected]
    simp [rejectedIDs]

theorem Inv.prune (h : Inv W root added ts) : Inv W root added ts' := by
  obtain ⟨hacc, rejected, hperm, hrej⟩ := hpr.decisions
  have hprefTree : (ts.blocks pref).isSome := h.forest.child_mem _ _ hpr.pref_child
  have hprefLast : pref ≠ ts.lastAcceptedID := by
    rintro heq
    exact h.last_root _ (heq ▸ hpr.pref_child)
  have hprefParent : W.parent pref = ts.lastAcceptedID := h.forest.child_parent _ _ hpr.pref_child
  have hmemRej : ∀ x, x ∈ rejectedIDs ts'.log ↔ x ∈ rejectedIDs ts.log ∨ x ∈ D := by
    intro x
    rw [hrej, List.mem_append, hperm.mem_iff]
  have hmemAcc : ∀ x, x ∈ acceptedIDs ts'.log ↔ x ∈ acceptedIDs ts.log ∨ x = pref := by
    intro x
    rw [hacc, List.mem_append, List.mem_singleton]
  have hmemDec : ∀ x, x ∈ acceptedIDs ts'.log ++ rejectedIDs ts'.log ↔
      x ∈ acceptedIDs ts.log ++ rejectedIDs ts.log ∨ x = pref ∨ x ∈ D := by
    intro x
    simp only [List.mem_append, hmemAcc, hmemRej]
    tauto
  have hsome := hpr.isSome_iff
  have hnone : ∀ x, ts'.blocks x = none ↔ ts.blocks x = none ∨ x = ts.lastAcceptedID ∨ x ∈ D := by
    intro x
    have := hsome x
    rw [← Option.not_isSome_iff_eq_none, ← Option.not_isSome_iff_eq_none, this]
    tauto
  refine ⟨⟨?_, ?_, ?_, ?_, ?_⟩, ?_, ?_, ?_, ?_, ?_, ?_, h.added_height, ?_, ?_, ?_, ?_, ?_, ?_, ?_,
    ?_, ?_⟩
  · rw [hpr.keys]
    exact h.forest.keys_nodup.filter _
  · intro x
    rw [hpr.keys, List.mem_filter, h.forest.mem_keys, hsome]
    simp
  · -- a child of a block that stays, stays: only children of deleted blocks are deleted
    intro x c hc
    obtain ⟨hchild, hxlast, hxD⟩ := (hpr.mem_childrenOf x c).mp hc
    have hparent := h.forest.child_parent x c hchild
    refine (hsome c).mpr ⟨h.forest.child_mem x c hchild, ?_, ?_⟩
    · rintro rfl
      exact h.last_root x hchild
    · intro hcD
      rcases hpr.origin c hcD with hlast | hdeleted
      · exact hxlast (hparent ▸ hlast)
      · exact hxD (hparent ▸ hdeleted)
  · intro x c hc
    exact h.forest.child_parent x c ((hpr.mem_childrenOf x c).mp hc).1
  · intro x
    unfold childrenOf
    split
    · rename_i n hn
      have := h.forest.children_nodup x
      rwa [childrenOf, (hpr.blocks_eq hn).1] at this
    · exact List.nodup_nil
  · rw [hpr.last]
    exact (hsome pref).mpr ⟨hprefTree, hprefLast, hpr.pref_notMem⟩
  · rw [hpr.last, hpr.last_height]
  · intro x hx
    rw [hpr.last] at hx
    obtain ⟨hchild, hxlast, -⟩ := (hpr.mem_childrenOf x pref).mp hx
    exact hxlast (by rw [← hprefParent, h.forest.child_parent x pref hchild])
  · intro x hx hne
    rw [hpr.last] at hne
    obtain ⟨hold, hxlast, hxD⟩ := (hsome x).mp hx
    have hchild := h.parent_mem x hold hxlast
    refine (hpr.mem_childrenOf _ x).mpr ⟨hchild, ?_, ?_⟩
    · intro heq
      exact hxD (hpr.siblings x (heq ▸ hchild) hne)
    · intro hD
      exact hxD (hpr.closed _ hD x hchild)
  · intro x n hn hne
    obtain ⟨hold, hxlast⟩ := hpr.blocks_eq hn
    exact h.has_blk x n hold hxlast
  · intro x n hn
    exact h.node_ok x n (hpr.blocks_eq hn).1
  · intro x hx hne
    obtain ⟨hold, hxlast, -⟩ := (hsome x).mp hx
    exact h.processing_added x hold hxlast
  · intro x hx
    rcases (hmemDec x).mp hx with hold | rfl | hD
    · exact h.decided_added x hold
    · exact h.processing_added _ hprefTree hprefLast
    · exact h.processing_added x (hpr.known x hD).1 (hpr.known x hD).2.1
  · intro x hx
    rw [hpr.last, hmemDec, hsome]
    rcases h.added_cases x hx with hold | ⟨htree, hlast⟩
    · exact Or.inl (Or.inl hold)
    · by_cases hpref : x = pref
      · exact Or.inl (Or.inr (Or.inl hpref))
      · by_cases hD : x ∈ D
        · exact Or.inl (Or.inr (Or.inr hD))
        · exact Or.inr ⟨⟨htree, hlast, hD⟩, hpref⟩
  · -- the newly decided blocks were in the tree, above the last accepted one
    have hfresh : ∀ x, x = pref ∨ x ∈ D → x ∉ acceptedIDs ts.log ++ rejectedIDs ts.log := by
      intro x hx hold
      have hx' : (ts.blocks x).isSome ∧ x ≠ ts.lastAcceptedID := by
        rcases hx with rfl | hD
        · exact ⟨hprefTree, hprefLast⟩
        · exact ⟨(hpr.known x hD).1, (hpr.known x hD).2.1⟩
      have := h.decided_gone x (List.mem_cons_of_mem _ hold) hx'.2
      rw [this] at hx'
      exact absurd hx'.1 (by simp)
    have hshuffle : (acceptedIDs ts'.log ++ rejectedIDs ts'.log).Perm
        ((acceptedIDs ts.log ++ rejectedIDs ts.log) ++ (pref :: D)) := by
      rw [hacc, hrej, List.perm_iff_count]
      intro x
      have := hperm.count_eq x
      simp only [List.count_append, List.count_cons, List.count_nil]
      omega
    rw [hshuffle.nodup_iff, List.nodup_append]
    refine ⟨h.decided_nodup, List.nodup_cons.mpr ⟨hpr.pref_notMem, hpr.nodup⟩, ?_⟩
    rintro a ha b hb rfl
    exact hfresh a (List.mem_cons.mp hb) ha
  · intro x hx hne
    rw [hpr.last] at hne
    rw [hnone]
    have hx' : x = root ∨ (x ∈ acceptedIDs ts.log ++ rejectedIDs ts.log ∨ x = pref ∨ x ∈ D) := by
      rcases List.mem_cons.mp hx with hroot | hdecided
      · exact Or.inl hroot
      · exact Or.inr ((hmemDec x).mp hdecided)
    by_cases hlast : x = ts.lastAcceptedID
    · exact Or.inr (Or.inl hlast)
    · rcases hx' with hroot | hold | hpref | hD
      · exact Or.inl (h.decided_gone x (hroot ▸ List.mem_cons_self) hlast)
      · exact Or.inl (h.decided_gone x (List.mem_cons_of_mem _ hold) hlast)
      · exact absurd hpref hne
      · exact Or.inr (Or.inr hD)
  · intro x hx
    rw [hnone]
    rcases (hmemDec x).mp hx with hold | rfl | hD
    · exact Or.inl (h.parent_gone x hold)
    · exact Or.inr (Or.inl hprefParent)
    · exact Or.inr (hpr.origin x hD)
  · have hext : Extends W ts.lastAcceptedID pref := by
      refine ⟨hprefParent, ?_⟩
      have := h.added_height pref (h.processing_added pref hprefTree hprefLast)
      rwa [hprefParent] at this
    rw [hacc]
    exact chain_append h.chain h.last_chain (List.isChain_pair.mpr hext)
  · rw [hacc, hpr.last, getLast?_cons_concat]
  · intro x hx
    rcases (hmemRej x).mp hx with hold | hD
    · rcases h.conflict x hold with hparent | ⟨a, ha, hne, hparent⟩
      · exact Or.inl ((hmemRej _).mpr (Or.inl hparent))
      · exact Or.inr ⟨a, (hmemAcc a).mpr (Or.inl ha), hne, hparent⟩
    · rcases hpr.origin x hD with hlast | hdeleted
      · exact Or.inr ⟨pref, (hmemAcc pref).mpr (Or.inr rfl), fun heq => (hpr.known x hD).2.2 heq.symm,
          by rw [hprefParent, hlast]⟩
      · exact Or.inl ((hmemRej _).mpr (Or.inr hdeleted))

end Topological

end Titan.Snow
