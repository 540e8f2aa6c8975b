import Titan.Snowman.Voting

/-!
# Titan.Snowman.Bubbling — a vote goes to the nearest processing ancestor

`Sound` ties the record of unverified blocks to consensus: a recorded block was never in
consensus, and its parent is recorded or is a block of consensus. Every job keeps it. A poll
keeps it because a block leaves consensus only by being rejected, or by being accepted and
then followed by an accepted child; `memoryBlock` prunes the record in both cases.
-/

namespace Titan.Snowman

open Relation Snow Topological

variable {U B NodeID : Type} {F : Factory U B} {params : Parameters} {vm : VM} {root : ID}
  {added : List ID} {ts ts' : Topological U B} {e e' : Engine U B NodeID}

/-- `a` is the parent of the block `b`. -/
def VM.ParentOf (vm : VM) (b a : ID) : Prop := b ∈ vm.blocks ∧ vm.parent b = a

/-- Accepted or rejected in this run, or not above the last accepted block: then it was
accepted before, or conflicts with an accepted block. -/
def Decided (vm : VM) (ts : Topological U B) (b : ID) : Prop :=
  b ∈ acceptedIDs ts.log ++ rejectedIDs ts.log ∨ ¬ TransGen vm.ParentOf b ts.lastAcceptedID

/-- `a` is the parent of the block `b`, which is not processing. -/
def Climbs (vm : VM) (ts : Topological U B) (b a : ID) : Prop :=
  ts.processing b = false ∧ vm.ParentOf b a

/-- `r` is processing, and no block on the way from `v` to it is. -/
def NearestProcessing (vm : VM) (ts : Topological U B) (v r : ID) : Prop :=
  ts.processing r ∧ ReflTransGen (Climbs vm ts) v r

variable {b a : ID}

theorem rank_lt_of_transGen (h : TransGen vm.ParentOf b a) : vm.rank a < vm.rank b := by
  induction h with
  | single h => exact h.2 ▸ vm.rank_parent _ h.1
  | tail _ h ih => exact Nat.lt_trans (h.2 ▸ vm.rank_parent _ h.1) ih

/-! ## Blocks of consensus -/

section Consensus

variable (h : Inv vm.toUniverse root added ts)

include h

theorem last_mem_added : ts.lastAcceptedID ∈ root :: added := by
  rcases List.mem_cons.mp (List.mem_of_getLast? h.last_chain) with hroot | hacc
  · exact hroot ▸ List.mem_cons_self
  · exact List.mem_cons_of_mem _ (h.decided_added _ (List.mem_append_left _ hacc))

theorem mem_added_of_isSome (hb : (ts.blocks b).isSome) : b ∈ root :: added := by
  by_cases hlast : b = ts.lastAcceptedID
  · exact hlast ▸ last_mem_added h
  · exact List.mem_cons_of_mem _ (h.processing_added b hb hlast)

theorem parent_isSome (hb : (ts.blocks b).isSome) (hlast : b ≠ ts.lastAcceptedID) :
    (ts.blocks (vm.parent b)).isSome := by
  have hchild := h.parent_mem b hb hlast
  rcases hnode : ts.blocks (vm.parent b) with _ | n
  · simp [childrenOf, hnode] at hchild
  · rfl

theorem parent_mem_added (hb : b ∈ added) : vm.parent b ∈ root :: added := by
  rcases h.added_cases b hb with hdecided | ⟨hsome, hlast⟩
  · rcases List.mem_cons.mp (h.decided_parent hdecided) with hroot | hparent
    · exact hroot ▸ List.mem_cons_self
    · exact List.mem_cons_of_mem _ (h.decided_added _ hparent)
  · exact mem_added_of_isSome h (parent_isSome h hsome hlast)

variable (hblocks : ∀ b ∈ root :: added, b ∈ vm.blocks)

include hblocks

theorem rank_root_le (hb : b ∈ root :: added) : vm.rank root ≤ vm.rank b := by
  induction hn : vm.rank b using Nat.strong_induction_on generalizing b with
  | _ n ih =>
    rcases List.mem_cons.mp hb with rfl | hadded
    · exact Nat.le_of_eq hn
    · have hlt := vm.rank_parent b (hblocks b hb)
      have := ih _ (hn ▸ hlt) (parent_mem_added h hadded) rfl
      omega

/-- A processing block is above the last accepted one. -/
theorem transGen_last (hb : ts.processing b) : TransGen vm.ParentOf b ts.lastAcceptedID := by
  induction hn : vm.rank b using Nat.strong_induction_on generalizing b with
  | _ n ih =>
    simp only [processing, ne_eq, decide_not, Bool.and_eq_true, Bool.not_eq_eq_eq_not, Bool.not_true,
      decide_eq_false_iff_not] at hb
    have hmem := hblocks b (mem_added_of_isSome h hb.2)
    have hparent := parent_isSome h hb.2 hb.1
    by_cases hlast : vm.parent b = ts.lastAcceptedID
    · exact .single ⟨hmem, hlast⟩
    · exact .head ⟨hmem, rfl⟩
        (ih _ (hn ▸ vm.rank_parent b hmem) (by simp [processing, hlast, hparent]) rfl)

end Consensus

/-- A block of the chain is the last one, or the parent of a later one. -/
theorem exists_next {W : Universe} {x last : ID} {l : List ID} (h : (a :: l).IsChain (Extends W))
    (hlast : (a :: l).getLast? = some last) (hx : x ∈ a :: l) :
    x = last ∨ ∃ y ∈ l, W.parent y = x := by
  induction l generalizing a with
  | nil =>
    simp only [List.getLast?_singleton, Option.some.injEq, List.mem_singleton] at hlast hx
    exact Or.inl (hx.trans hlast)
  | cons b l ih =>
    rw [List.isChain_cons_cons] at h
    rcases List.mem_cons.mp hx with rfl | hx
    · exact Or.inr ⟨b, List.mem_cons_self, h.1.1⟩
    · rw [List.getLast?_cons_cons] at hlast
      refine (ih h.2 hlast hx).imp_right ?_
      rintro ⟨y, hy, hparent⟩
      exact ⟨y, List.mem_cons_of_mem _ hy, hparent⟩

/-- A block that leaves consensus in a poll is pruned from the record. -/
theorem isSome_or_pruned (h : Inv vm.toUniverse root added ts)
    (h' : Inv vm.toUniverse root added ts') {ds : List Decision} (hlog : ts'.log = ts.log ++ ds)
    (ha : (ts.blocks a).isSome) : (ts'.blocks a).isSome ∨ ∃ d ∈ ds, prunes vm.toUniverse d = a := by
  have haccepted : acceptedIDs ts'.log = acceptedIDs ts.log ++ acceptedIDs ds := by simp [hlog]
  have hrejected : rejectedIDs ts'.log = rejectedIDs ts.log ++ rejectedIDs ds := by simp [hlog]
  by_cases hchain : a ∈ root :: acceptedIDs ts'.log
  · rcases exists_next h'.chain h'.last_chain hchain with rfl | ⟨x, hx, rfl⟩
    · exact Or.inl h'.last_mem
    · -- the child was accepted in this poll: `a` was still there before it
      rw [haccepted, List.mem_append] at hx
      rcases hx with hold | hnew
      · simp [h.parent_gone x (List.mem_append_left _ hold)] at ha
      · obtain ⟨d, hd, hdx⟩ := List.mem_filterMap.mp hnew
        cases d with
        | accepted y => exact Or.inr ⟨_, hd, congrArg vm.parent (Option.some.inj hdx)⟩
        | rejected y => cases hdx
  · have hadded : a ∈ added := by
      refine (List.mem_cons.mp (mem_added_of_isSome h ha)).resolve_left ?_
      rintro rfl
      exact hchain List.mem_cons_self
    rcases h'.added_cases a hadded with hdecided | ⟨hsome, -⟩
    · have hrej := (List.mem_append.mp hdecided).resolve_left fun hacc =>
        hchain (List.mem_cons_of_mem _ hacc)
      rw [hrejected, List.mem_append] at hrej
      rcases hrej with hold | hnew
      · have hlast : a ≠ ts.lastAcceptedID := by
          rintro rfl
          refine hchain (List.mem_cons.mpr ?_)
          rw [haccepted, List.mem_append]
          exact (List.mem_cons.mp (List.mem_of_getLast? h.last_chain)).imp_right Or.inl
        simp [h.decided_gone a (by simp [hold]) hlast] at ha
      · obtain ⟨d, hd, hda⟩ := List.mem_filterMap.mp hnew
        cases d with
        | accepted y => cases hda
        | rejected y => exact Or.inr ⟨_, hd, Option.some.inj hda⟩
    · exact Or.inl hsome

variable {order : Finset ID → List ID}

theorem prune_spec {rank : ID → ℕ} (horder : ∀ s, (order s : Multiset ID) = s.val) {W : Universe}
    (ds : List Decision) {t : AncestorTree ID} (h : t.WellFormed rank) :
    ∃ t', prune W order ds t = some t' ∧ t'.WellFormed rank ∧
      AncestorTree.Pruned (fun a => ∃ d ∈ ds, prunes W d = a) t t' := by
  induction ds generalizing t with
  | nil => exact ⟨t, rfl, h, fun _ _ hp => hp, fun _ _ _ => ⟨by simp, fun hp => hp⟩⟩
  | cons d ds ih =>
    obtain ⟨t₁, hrun₁, h₁, hpruned₁⟩ := AncestorTree.removeDescendants_spec horder h (prunes W d)
    obtain ⟨t₂, hrun₂, h₂, hpruned₂⟩ := ih h₁
    refine ⟨t₂, by rw [prune, hrun₁]; exact hrun₂, h₂, ?_, ?_⟩
    · intro x p hp
      exact hpruned₁.sub x p (hpruned₂.sub x p hp)
    · intro x p hp
      obtain ⟨hnot₁, hkeep₁⟩ := hpruned₁.closed x p (hpruned₂.sub x p hp)
      obtain ⟨hnot₂, hkeep₂⟩ := hpruned₂.closed x p hp
      refine ⟨?_, fun hold => hkeep₂ (hkeep₁ hold)⟩
      rintro ⟨d', hd', rfl⟩
      rcases List.mem_cons.mp hd' with rfl | hd'
      · exact hnot₁ rfl
      · exact hnot₂ ⟨d', hd', rfl⟩

/-! ## The invariant -/

/-- The record of unverified blocks fits consensus, where `added` were added. -/
structure Sound (F : Factory U B) (params : Parameters) (vm : VM) (root : ID) (added : List ID)
    (e : Engine U B NodeID) : Prop where
  consensus : Topological.Reachable vm.toUniverse F params (fun _ => True) root added e.consensus
  blocks : ∀ b ∈ root :: added, b ∈ vm.blocks
  tree : e.unverifiedIDToAncestor.WellFormed vm.rank
  link : ∀ b a, e.unverifiedIDToAncestor.childToParent b = some a →
    vm.ParentOf b a ∧ b ∉ root :: added ∧
      (e.unverifiedIDToAncestor.has a ∨ (e.consensus.blocks a).isSome)
  cached : ∀ b, e.unverifiedBlockCache b → b ∈ vm.blocks

namespace Sound

variable (h : Sound F params vm root added e)
include h

theorem inv : Inv vm.toUniverse root added e.consensus :=
  h.consensus.inv.1

omit h in
theorem processing_or_last (ha : (e.consensus.blocks a).isSome) :
    e.consensus.processing a ∨ a = e.consensus.lastAcceptedID := by
  by_cases hlast : a = e.consensus.lastAcceptedID
  · exact Or.inr hlast
  · exact Or.inl (by simp [processing, hlast, ha])

/-- A recorded block is above the last accepted one. -/
theorem recorded_transGen (hb : e.unverifiedIDToAncestor.has b) :
    TransGen vm.ParentOf b e.consensus.lastAcceptedID := by
  induction hn : vm.rank b using Nat.strong_induction_on generalizing b with
  | _ n ih =>
    obtain ⟨a, ha⟩ := AncestorTree.has_iff.mp hb
    obtain ⟨hparent, -, hrecorded | hsome⟩ := h.link b a ha
    · exact .head hparent (ih _ (hn ▸ h.tree.rank_lt b a ha) hrecorded rfl)
    · rcases processing_or_last hsome with hproc | rfl
      · exact .head hparent (transGen_last h.inv h.blocks hproc)
      · exact .single hparent

theorem not_processing (hb : e.unverifiedIDToAncestor.has b) :
    e.consensus.processing b = false := by
  obtain ⟨a, ha⟩ := AncestorTree.has_iff.mp hb
  rw [Bool.eq_false_iff]
  intro hproc
  simp only [processing, Bool.and_eq_true] at hproc
  exact (h.link b a ha).2.1 (mem_added_of_isSome h.inv hproc.2)

/-- A block that is about to be recorded was never in consensus. -/
theorem fresh (hb : b ∈ vm.blocks) (hproc : e.consensus.processing b = false)
    (hparent : e.unverifiedIDToAncestor.has (vm.parent b) ∨ e.consensus.processing (vm.parent b)) :
    b ∉ root :: added := by
  have habove : vm.rank e.consensus.lastAcceptedID < vm.rank (vm.parent b) := by
    rcases hparent with hhas | hp
    · exact rank_lt_of_transGen (h.recorded_transGen hhas)
    · exact rank_lt_of_transGen (transGen_last h.inv h.blocks hp)
  intro hmem
  rcases List.mem_cons.mp hmem with rfl | hadded
  · -- the first block would be above its own descendants
    have hle := rank_root_le h.inv h.blocks (last_mem_added h.inv)
    have hlt := vm.rank_parent b hb
    omega
  · rcases hparent with hhas | hp
    · obtain ⟨a, ha⟩ := AncestorTree.has_iff.mp hhas
      exact (h.link _ a ha).2.1 (parent_mem_added h.inv hadded)
    · simp only [processing, Bool.and_eq_true] at hp
      rcases h.inv.added_cases b hadded with hdecided | ⟨hsome, hlast⟩
      · simp [h.inv.parent_gone b hdecided] at hp
      · simp [processing, hsome, hlast] at hproc

omit h in
theorem start (hroot : root ∈ vm.blocks) :
    Sound F params vm root [] (Engine.start vm.toUniverse root : Engine U B NodeID) := by
  refine ⟨.init, by simpa using hroot, AncestorTree.wellFormed_new, ?_, ?_⟩
  · intro b a hb
    cases hb
  · intro b hb
    cases hb

/-! ## Jobs -/

theorem markAsUnverified (hb : b ∈ vm.blocks) :
    Sound F params vm root added (e.markAsUnverified vm.toUniverse b) := by
  unfold Engine.markAsUnverified
  split
  · exact h
  rename_i hproc
  simp only
  split
  · rename_i hparent
    rw [Bool.or_eq_true] at hparent
    have hfresh := h.fresh hb (by simpa using hproc) hparent
    refine ⟨h.consensus, h.blocks, h.tree.add (vm.rank_parent b hb) ?_, ?_, ?_⟩
    · intro a ha
      exact (h.link b a ha).1.2.symm
    · intro x a hx
      have hgrow : ∀ y, e.unverifiedIDToAncestor.has y →
          (e.unverifiedIDToAncestor.add b (vm.parent b)).has y := by
        intro y hy
        by_cases hyb : y = b <;> simp_all [AncestorTree.add, AncestorTree.has]
      by_cases hxb : x = b
      · subst hxb
        obtain rfl : vm.parent x = a := by simpa [AncestorTree.add] using hx
        refine ⟨⟨hb, rfl⟩, hfresh, hparent.imp (hgrow _) ?_⟩
        intro hp
        simp only [processing, Bool.and_eq_true] at hp
        exact hp.2
      · obtain ⟨hpar, hnew, hstatus⟩ := h.link x a (by simpa [AncestorTree.add, hxb] using hx)
        exact ⟨hpar, hnew, hstatus.imp_left (hgrow a)⟩
    · intro x hx
      by_cases hxb : x = b
      · exact hxb ▸ hb
      · exact h.cached x (by simpa [hxb] using hx)
  · exact h

theorem addUnverifiedBlockToConsensus {blk : ID × Bool} (hblk : vm.Verifies blk) {blkAdded : Bool}
    (hrun : e.addUnverifiedBlockToConsensus vm.toUniverse F params blk = .ok (blkAdded, e')) :
    ∃ added', Sound F params vm root added' e' := by
  unfold Engine.addUnverifiedBlockToConsensus at hrun
  by_cases hverified : blk.2
  · rw [if_pos hverified] at hrun
    rcases hadd : e.consensus.add vm.toUniverse F params blk.1 with err | ts
    · simp [hadd] at hrun
    simp only [hadd, Except.ok.injEq, Prod.mk.injEq] at hrun
    obtain ⟨-, rfl⟩ := hrun
    have hheight := hblk.2 hverified
    have hsome : ∀ x, x = blk.1 ∨ (e.consensus.blocks x).isSome → (ts.blocks x).isSome := by
      intro x hx
      obtain ⟨-, parentNode, -, ⟨-, rfl⟩ | ⟨-, rfl⟩⟩ := add_cases hadd <;>
        rw [inserted_blocks] <;> split_ifs <;> simp_all
    refine ⟨added ++ [blk.1], .add h.consensus hheight hadd, ?_, h.tree.remove _, ?_, ?_⟩
    · intro b hb
      rw [← List.cons_append, List.mem_append, List.mem_singleton] at hb
      rcases hb with hold | rfl
      · exact h.blocks b hold
      · exact hblk.1
    · intro b a hb
      obtain ⟨hne, hb⟩ := AncestorTree.remove_some.mp hb
      obtain ⟨hparent, hnew, hstatus⟩ := h.link b a hb
      refine ⟨hparent, ?_, ?_⟩
      · rw [← List.cons_append, List.mem_append, List.mem_singleton]
        exact not_or.mpr ⟨hnew, hne⟩
      · by_cases hab : a = blk.1
        · exact Or.inr (hsome a (Or.inl hab))
        · refine hstatus.imp ?_ fun hold => hsome a (Or.inr hold)
          intro hold
          simpa [AncestorTree.has, hab] using hold
    · intro b hb
      by_cases hbb : b = blk.1
      · exact hbb ▸ hblk.1
      · exact h.cached b (by simpa [hbb] using hb)
  · rw [if_neg hverified] at hrun
    cases hrun
    exact ⟨added, h.markAsUnverified hblk.1⟩

variable {options : List (ID × Bool)}

theorem addOptions (hblks : ∀ b ∈ options, vm.Verifies b)
    (hrun : e.addOptions vm.toUniverse F params options = .ok e') :
    ∃ added', Sound F params vm root added' e' := by
  induction options generalizing added e with
  | nil =>
    cases hrun
    exact ⟨added, h⟩
  | cons blk rest ih =>
    rw [Engine.addOptions] at hrun
    split at hrun
    · cases hrun
    · rename_i hadd
      obtain ⟨added₁, h₁⟩ := h.addUnverifiedBlockToConsensus (hblks blk List.mem_cons_self) hadd
      exact ih h₁ (fun b hb => hblks b (List.mem_cons_of_mem _ hb)) hrun

theorem issue {abandoned : Bool} {blk : ID × Bool} (hblks : ∀ b ∈ blk :: options, vm.Verifies b)
    (hrun : e.issue vm.toUniverse F params abandoned blk options = .ok e') :
    ∃ added', Sound F params vm root added' e' := by
  have hblk := hblks blk List.mem_cons_self
  unfold Engine.issue at hrun
  split at hrun
  · cases hrun
    exact ⟨added, h.markAsUnverified hblk.1⟩
  unfold Engine.deliver at hrun
  split at hrun
  · cases hrun
    exact ⟨added, h⟩
  split at hrun
  · cases hrun
  rename_i hadd
  obtain ⟨added₁, h₁⟩ := h.addUnverifiedBlockToConsensus hblk hadd
  split at hrun
  · exact h₁.addOptions (fun b hb => hblks b (List.mem_cons_of_mem _ hb)) hrun
  · cases hrun
    exact ⟨added₁, h₁⟩

/-- Finished polls are recorded without a failure. -/
theorem recordPolls {ord : ℕ → PollOrder}
    (horder : ∀ s, (order s : Multiset ID) = s.val) (hord : ∀ n, (ord n).Lawful)
    (results : List (Bag ID)) :
    ∃ e', e.recordPolls vm.toUniverse F params order ord results = some e' ∧
      Sound F params vm root added e' ∧ e'.responses = e.responses := by
  induction results generalizing e with
  | nil => exact ⟨e, rfl, h, rfl⟩
  | cons result rest ih =>
    obtain ⟨-, -, l, hcached, -⟩ := h.consensus.inv
    obtain ⟨ts, -, hpoll, hinv, ⟨ds, hlog⟩, -⟩ :=
      recordPoll_spec F params h.inv hcached (hord rest.length) result
    obtain ⟨t, hprune, htree, hpruned⟩ := prune_spec horder (W := vm.toUniverse) ds h.tree
    have hnext : Sound F params vm root added
        { e with consensus := ts, unverifiedIDToAncestor := t } := by
      refine ⟨.poll h.consensus (hord _) trivial hpoll, h.blocks, htree, ?_, h.cached⟩
      intro b a hb
      obtain ⟨hparent, hnew, hstatus⟩ := h.link b a (hpruned.sub b a hb)
      obtain ⟨hnot, hkeep⟩ := hpruned.closed b a hb
      refine ⟨hparent, hnew, hstatus.imp hkeep ?_⟩
      intro hsome
      exact (isSome_or_pruned h.inv hinv hlog.symm hsome).resolve_right hnot
    obtain ⟨e', hrun, h', hresponses⟩ := ih hnext
    refine ⟨e', ?_, h', hresponses⟩
    rw [Engine.recordPolls, hpoll, Option.bind_some, ← hlog, List.drop_left, hprune]
    exact hrun

/-! ## Votes -/

/-- The loop returns, and climbs only over blocks that are not processing. -/
theorem bubble_spec (v : ID) :
    ∃ o, e.bubble vm.toUniverse v = some o ∧ (e.consensus.processing v → o = some v) ∧
      ∀ r ∈ o, NearestProcessing vm e.consensus v r := by
  induction hn : vm.rank v using Nat.strong_induction_on generalizing v with
  | _ n ih =>
    rw [Engine.bubble]
    by_cases hproc : e.consensus.processing v
    · rw [if_pos hproc]
      refine ⟨some v, rfl, fun _ => rfl, ?_⟩
      rintro r ⟨⟩
      exact ⟨hproc, .refl⟩
    rw [if_neg hproc]
    by_cases hcached : e.unverifiedBlockCache v
    · have hblock := h.cached v hcached
      obtain ⟨o, hrun, -, hnearest⟩ := ih _ (hn ▸ vm.rank_parent v hblock) (vm.parent v) rfl
      simp only [hcached, Bool.not_true, Bool.false_eq_true, if_false]
      split
      · exact ⟨none, rfl, fun hp => absurd hp hproc, by simp⟩
      · refine ⟨o, hrun, fun hp => absurd hp hproc, ?_⟩
        intro r hr
        obtain ⟨hr, hpath⟩ := hnearest r hr
        exact ⟨hr, .head ⟨by simpa using hproc, hblock, rfl⟩ hpath⟩
    · exact ⟨none, by simp [hcached], fun hp => absurd hp hproc, by simp⟩

/-- The end of the recorded chain. -/
theorem getAncestor_spec (v : ID) :
    ∃ r, e.unverifiedIDToAncestor.getAncestor v = some r ∧
      e.unverifiedIDToAncestor.has r = false ∧
      ReflTransGen (fun b a => e.unverifiedIDToAncestor.childToParent b = some a) v r ∧
      (r = v ∨ e.consensus.processing r ∨ r = e.consensus.lastAcceptedID) := by
  obtain ⟨r, hrun, hend, hchain⟩ := AncestorTree.getAncestor_spec h.tree v
  refine ⟨r, hrun, hend, hchain, ?_⟩
  rcases hchain.cases_tail with rfl | ⟨b, -, hb⟩
  · exact Or.inl rfl
  · obtain ⟨-, -, hhas | hsome⟩ := h.link b r hb
    · simp [hend] at hhas
    · exact Or.inr (processing_or_last hsome)

theorem climbs {v r : ID}
    (hchain : ReflTransGen (fun b a => e.unverifiedIDToAncestor.childToParent b = some a) v r) :
    ReflTransGen (Climbs vm e.consensus) v r := by
  refine ReflTransGen.mono ?_ _ _ hchain
  intro b a hb
  exact ⟨h.not_processing (AncestorTree.has_iff.mpr ⟨a, hb⟩), (h.link b a hb).1⟩

/-- A recorded block with a processing ancestor is recorded below one. -/
theorem processing_of_ancestor {v r : ID} (hchain : ReflTransGen (Climbs vm e.consensus) v r)
    (hend : e.consensus.processing r ∨ r = e.consensus.lastAcceptedID)
    (ha : e.consensus.processing a) (hva : TransGen vm.ParentOf v a) :
    e.consensus.processing r := by
  refine hend.resolve_right ?_
  rintro rfl
  -- `a` is above the last accepted block, so the chain passes through it
  have hup := transGen_last h.inv h.blocks ha
  induction hchain using ReflTransGen.head_induction_on with
  | refl => exact absurd (rank_lt_of_transGen hva) (Nat.lt_asymm (rank_lt_of_transGen hup))
  | head hstep hrest ih =>
    obtain ⟨x, hx, hxa⟩ := TransGen.head'_iff.mp hva
    obtain rfl := hx.2.symm.trans hstep.2.2
    rcases hxa.cases_head with rfl | ⟨y, hy, hya⟩
    · rcases hrest.cases_head with rfl | ⟨y, hy, -⟩
      · simp [processing] at ha
      · simp [hy.1] at ha
    · exact ih (TransGen.head' hy hya)

theorem getProcessingAncestor_spec (v : ID) :
    ∃ o, e.getProcessingAncestor vm.toUniverse v = some o ∧
      (∀ r ∈ o, NearestProcessing vm e.consensus v r) ∧
      (e.consensus.processing v ∨ e.unverifiedIDToAncestor.has v ∧
        (∃ a, e.consensus.processing a ∧ TransGen vm.ParentOf v a) → o.isSome) := by
  obtain ⟨r, hrun, hnot, hchain, hend⟩ := h.getAncestor_spec v
  have hclimbs := h.climbs hchain
  obtain ⟨o, hbubble, hself, hnearest⟩ := h.bubble_spec r
  refine ⟨o, by rw [Engine.getProcessingAncestor, hrun]; exact hbubble, ?_, ?_⟩
  · intro x hx
    obtain ⟨hproc, hpath⟩ := hnearest x hx
    exact ⟨hproc, hclimbs.trans hpath⟩
  · intro hv
    have hproc : e.consensus.processing r := by
      rcases hv with hproc | ⟨hhas, a, ha, hva⟩
      · rcases hclimbs.cases_head with rfl | ⟨y, hy, -⟩
        · exact hproc
        · simp [hy.1] at hproc
      · refine h.processing_of_ancestor hclimbs (hend.resolve_left ?_) ha hva
        rintro rfl
        simp [hnot] at hhas
    simp [hself hproc]

end Sound

/-- The response to `options`: the block found for the first option for which there is one. -/
def Selects (vm : VM) (e : Engine U B NodeID) (options : List ID) : Option ID → Prop
  | some r => ∃ before option after, options = before ++ option :: after ∧
      (∀ x ∈ before, e.getProcessingAncestor vm.toUniverse x = some none) ∧
      e.getProcessingAncestor vm.toUniverse option = some (some r)
  | none => ∀ x ∈ options, e.getProcessingAncestor vm.toUniverse x = some none

theorem Sound.selectVote_spec (h : Sound F params vm root added e) (options : List ID) :
    ∃ vote, e.selectVote vm.toUniverse options = some vote ∧ Selects vm e options vote := by
  induction options with
  | nil => exact ⟨none, rfl, by simp [Selects]⟩
  | cons option rest ih =>
    obtain ⟨o, ho, -⟩ := h.getProcessingAncestor_spec option
    rw [Engine.selectVote, ho]
    cases o with
    | some r => exact ⟨some r, rfl, [], option, rest, rfl, by simp, ho⟩
    | none =>
      obtain ⟨vote, hrun, hselects⟩ := ih
      refine ⟨vote, hrun, ?_⟩
      cases vote with
      | none => exact List.forall_mem_cons.mpr ⟨ho, hselects⟩
      | some r =>
        obtain ⟨before, x, after, rfl, hbefore, hx⟩ := hselects
        exact ⟨option :: before, x, after, rfl, List.forall_mem_cons.mpr ⟨ho, hbefore⟩, hx⟩

/-- A voter responds once, and finishes. -/
theorem Sound.vote_spec (h : Sound F params vm root added e) {ord : ℕ → PollOrder}
    (horder : ∀ s, (order s : Multiset ID) = s.val) (hord : ∀ n, (ord n).Lawful)
    (polls : Response NodeID → List (Bag ID)) (requestID : ℕ) (nodeID : NodeID) (options : List ID) :
    ∃ e' vote, e.vote vm.toUniverse F params order ord polls requestID nodeID options = some e' ∧
      e'.responses = e.responses ++ [⟨requestID, nodeID, vote⟩] ∧ Selects vm e options vote ∧
      Sound F params vm root added e' := by
  obtain ⟨vote, hselect, hselects⟩ := h.selectVote_spec options
  have hresponded : Sound F params vm root added
      { e with responses := e.responses ++ [⟨requestID, nodeID, vote⟩] } :=
    ⟨h.consensus, h.blocks, h.tree, h.link, h.cached⟩
  obtain ⟨e', hrun, h', hresponses⟩ :=
    hresponded.recordPolls horder hord (polls ⟨requestID, nodeID, vote⟩)
  refine ⟨e', vote, ?_, hresponses, hselects, h'⟩
  rw [Engine.vote, hselect]
  exact hrun

theorem Engine.Reachable.sound (hr : Engine.Reachable F params vm root e) :
    ∃ added, Sound F params vm root added e := by
  induction hr with
  | start hroot => exact ⟨[], Sound.start hroot⟩
  | issue _ hblks hissue ih =>
    obtain ⟨added, h⟩ := ih
    exact h.issue hblks hissue
  | vote _ horder hord hvote ih =>
    obtain ⟨added, h⟩ := ih
    obtain ⟨e₁, -, hrun, -, -, h₁⟩ := h.vote_spec horder hord _ _ _ _
    obtain rfl := Option.some.inj (hrun.symm.trans hvote)
    exact ⟨added, h₁⟩
  | evict _ keep ih =>
    obtain ⟨added, h⟩ := ih
    refine ⟨added, h.consensus, h.blocks, h.tree, h.link, ?_⟩
    intro b hb
    exact h.cached b (Bool.and_eq_true _ _ ▸ hb).1

/-- In every reachable state: recorded links lead to the parents, from blocks that are neither
processing nor decided, and the recorded chain of a block ends in a processing block or in the
last accepted one; `getProcessingAncestor` returns, finds nothing but the nearest processing
ancestor, and finds it for each processing block and each recorded one that has it; and a voter
gives one response, to the first option for which it finds a block. -/
theorem votes_reach_nearest_processing (hr : Engine.Reachable F params vm root e) :
    (∀ b a, e.unverifiedIDToAncestor.childToParent b = some a → vm.ParentOf b a ∧
      e.consensus.processing b = false ∧ ¬ Decided vm e.consensus b) ∧
    (∀ b, e.unverifiedIDToAncestor.has b →
      ∃ r, e.unverifiedIDToAncestor.getAncestor b = some r ∧
        ReflTransGen (fun b a => e.unverifiedIDToAncestor.childToParent b = some a) b r ∧
        (e.consensus.processing r ∨ r = e.consensus.lastAcceptedID)) ∧
    (∀ v, ∃ o, e.getProcessingAncestor vm.toUniverse v = some o ∧
      (∀ r ∈ o, NearestProcessing vm e.consensus v r) ∧
      (e.consensus.processing v ∨ e.unverifiedIDToAncestor.has v ∧
        (∃ a, e.consensus.processing a ∧ TransGen vm.ParentOf v a) → o.isSome)) ∧
    ∀ (order : Finset ID → List ID) (ord : ℕ → PollOrder)
      (polls : Response NodeID → List (Bag ID)) (requestID : ℕ) (nodeID : NodeID)
      (options : List ID), (∀ s, (order s : Multiset ID) = s.val) → (∀ n, (ord n).Lawful) →
      ∃ e' vote, e.vote vm.toUniverse F params order ord polls requestID nodeID options = some e' ∧
        e'.responses = e.responses ++ [⟨requestID, nodeID, vote⟩] ∧ Selects vm e options vote := by
  obtain ⟨added, h⟩ := hr.sound
  refine ⟨?_, ?_, h.getProcessingAncestor_spec, ?_⟩
  · intro b a hb
    have hhas := AncestorTree.has_iff.mpr ⟨a, hb⟩
    obtain ⟨hparent, hnew, -⟩ := h.link b a hb
    refine ⟨hparent, h.not_processing hhas, ?_⟩
    rintro (hdecided | hnot)
    · exact hnew (List.mem_cons_of_mem _ (h.inv.decided_added b hdecided))
    · exact hnot (h.recorded_transGen hhas)
  · intro b hb
    obtain ⟨r, hrun, hnot, hchain, rfl | hend⟩ := h.getAncestor_spec b
    · simp [hnot] at hb
    · exact ⟨r, hrun, hchain, hend⟩
  · intro order ord polls requestID nodeID options horder hord
    obtain ⟨e', vote, hrun, hresponses, hselects, -⟩ :=
      h.vote_spec horder hord polls requestID nodeID options
    exact ⟨e', vote, hrun, hresponses, hselects⟩

/-- The blocks 0, 1 and 2 in a row. -/
def row : VM where
  parent b := if b = 0 then 3 else b - 1
  height b := b.toNat
  blocks := {0, 1, 2}
  rank b := if b = 3 then 0 else b.toNat + 1
  rank_parent := by
    rintro b (rfl | rfl | rfl) <;> decide

/-- Block 1 is verified and block 2 is not: a vote for it is applied. -/
theorem votes_reach_nearest_processing_row :
    ∃ e : Engine UnarySnowflake BinarySnowflake ℕ,
      Engine.Reachable snowflakeFactory ⟨1, 1, 1, 2⟩ row 0 e ∧
      e.unverifiedIDToAncestor.childToParent 2 = some 1 ∧
      ∃ r, e.getProcessingAncestor row.toUniverse 2 = some (some r) ∧
        NearestProcessing row e.consensus 2 r := by
  have hblks : ∀ b ∈ [((1 : ID), true), (2, false)], row.Verifies b := by
    rintro b hb
    rcases List.mem_pair.mp hb with rfl | rfl
    · exact ⟨by simp [row], by decide⟩
    · exact ⟨by simp [row], by decide⟩
  have hrun : ∀ e : Engine UnarySnowflake BinarySnowflake ℕ,
      (Engine.start row.toUniverse 0).issue row.toUniverse snowflakeFactory ⟨1, 1, 1, 2⟩ false
        (1, true) [(2, false)] = .ok e → Engine.Reachable snowflakeFactory ⟨1, 1, 1, 2⟩ row 0 e :=
    fun e he => .issue (.start (by simp [row])) hblks he
  refine ⟨_, hrun _ rfl, rfl, ?_⟩
  obtain ⟨-, -, hancestor, -⟩ := votes_reach_nearest_processing (hrun _ rfl)
  obtain ⟨o, ho, hnearest, hfound⟩ := hancestor 2
  obtain ⟨r, rfl⟩ := Option.isSome_iff_exists.mp (hfound (Or.inr ⟨rfl, 1, rfl,
    .single ⟨by simp [row], rfl⟩⟩))
  exact ⟨r, ho, hnearest r rfl⟩

end Titan.Snowman
