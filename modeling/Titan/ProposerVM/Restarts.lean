import Titan.ProposerVM.Retained

/-!
# Titan.ProposerVM.Restarts — every start finds the chain again

A start rolls back, loads and prunes whatever a crash has left; afterwards the VM is
consistent with the inner one. `Inv` holds along every run whose steps are careful.

A start fails if it rolls back to an option whose parent has been deleted, or if it prunes
while the last accepted block is before the fork. An option whose parent was accepted
before the start reports the time of another block.
-/

namespace Titan.ProposerVM

open Lib

variable {chain : Chain}

/-! ## Starting -/

/-- What a start leaves in its commits. -/
def Leaves (chain : Chain) (n height top : ℕ) (db : State) (vm : VM) : Prop :=
  ∀ db' ∈ vm.commits, Stored chain db' height top ∧ Keeps chain n height db db'

variable {n : ℕ} {db : State}

variable {last : ℕ}

theorem Keeps.refl : Keeps chain n last db db := fun _ hx hx' => absurd hx hx'

theorem Keeps.of_heights {db₁ db' : State} (h : Keeps chain n last db₁ db')
    (heq : db₁.heights = db.heights) : Keeps chain n last db db' := by
  intro x hx hx'
  refine h x ?_ hx'
  unfold Node.Retains at hx ⊢
  rw [heq]
  exact hx

variable {vm : VM}

/-- Before the fork nothing is pruned. -/
theorem pruneOldBlocks_before (h : vm.numHistoricalBlocks = 0 ∨ vm.state.heights.keys = []) :
    vm.pruneOldBlocks = (vm, none) := by
  unfold VM.pruneOldBlocks
  by_cases hn : vm.numHistoricalBlocks = 0
  · rw [if_pos hn]
  · rw [if_neg hn]
    have hceil : ceil vm.state.heights 0 = none := by
      rw [ceil_eq_none]
      intro x id hx
      have hmem : x ∈ vm.state.heights.keys := AList.lookup_isSome.mp (by rw [hx]; rfl)
      rw [h.resolve_left hn] at hmem
      cases hmem
    rw [hceil]

variable {lo : ℕ}

/-- Pruning at the last accepted wrapper. -/
theorem pruneOldBlocks_after {startHeight : ℕ} (vm : VM) (hat : At chain vm.state lo last)
    (hloaded : Loaded chain vm startHeight last) (hhead : vm.commits.head? = some vm.state) :
    ∃ vm', vm.pruneOldBlocks = (vm', none) ∧ vm'.numHistoricalBlocks = vm.numHistoricalBlocks ∧
      vm'.commits.head? = some vm'.state ∧ Ready chain vm' startHeight last ∧
      ∀ db ∈ vm'.commits, db ∈ vm.commits ∨ Pruned chain vm.numHistoricalBlocks lo last vm.state db := by
  unfold VM.pruneOldBlocks
  by_cases hn : vm.numHistoricalBlocks = 0
  · rw [if_pos hn]
    exact ⟨vm, rfl, rfl, hhead, .after hat hloaded fun h => absurd hn h, fun db hdb => .inl hdb⟩
  · rw [if_neg hn, hat.ceil_eq]
    rcases pruneLoop_spec vm hat hloaded.height hn (hat.length_keys.trans (Nat.lt_succ_self _)) with
      ⟨vm', hloop, hnum, hheight, htime, hhead', hcommits, lo', hat', hle⟩
    refine ⟨vm', hloop, hnum, hhead', .after hat' ⟨?_, ?_, ?_⟩ fun _ => ?_, hcommits⟩
    · rw [hheight]
      exact hloaded.height
    · rw [htime]
      exact hloaded.time_option
    · rw [htime]
      exact hloaded.time_signed
    · rw [hnum]
      exact hle

/-- Loading what is kept about the last accepted wrapper. -/
theorem setLastAcceptedMetadata_after (hat : At chain vm.state lo last) :
    ∃ time, vm.setLastAcceptedMetadata = ({ vm with lastAcceptedHeight := last, lastAcceptedTime := time }, none) ∧
      Loaded chain { vm with lastAcceptedHeight := last, lastAcceptedTime := time } last last := by
  have hblock := hat.block hat.le (le_refl _)
  have hheight := chain.height_outer hat.fork_le_last
  unfold VM.setLastAcceptedMetadata VM.getPostForkBlock
  rw [hat.accepted]
  dsimp only
  rw [hblock]
  dsimp only
  rw [hheight]
  rcases htimestamp : (chain.outer last).timestamp with _ | t
  · rcases chain.option_parent last hat.fork_le_last htimestamp with ⟨hlt, hparentID, hsigned⟩
    have hlo := hat.parent htimestamp
    have hparent := hat.block (x := last - 1) (by omega) (by omega)
    rcases Option.isSome_iff_exists.mp hsigned with ⟨t, ht⟩
    refine ⟨t, ?_, rfl, fun _ => ht, fun h => absurd h (lt_irrefl _)⟩
    rw [hparentID, hparent]
    dsimp only
    rw [ht]
    rfl
  · refine ⟨vm.lastAcceptedTime, rfl, rfl, fun h => ?_, fun h => absurd h (lt_irrefl _)⟩
    rw [htimestamp] at h
    cases h

variable {node : Node} {numHistoricalBlocks height : ℕ} {crashAt : Option ℕ}

/-- What a start finds. -/
def Starts (chain : Chain) (node : Node) (numHistoricalBlocks height : ℕ) (vm : VM) : Prop :=
  vm.numHistoricalBlocks = numHistoricalBlocks ∧ vm.commits.head? = some vm.state ∧
    Ready chain vm height height ∧ Leaves chain numHistoricalBlocks height node.outerHeight node.db vm

/-- What is left to do at a start when the last accepted block is at the inner height. -/
theorem load_after (vm : VM) (hat : At chain vm.state lo last) (htop : last ≤ node.outerHeight)
    (hheights : vm.state.heights = node.db.heights) (hhead : vm.commits.head? = some vm.state)
    (hleaves : Leaves chain vm.numHistoricalBlocks last node.outerHeight node.db vm) :
    ∃ vm', VM.andThen vm.setLastAcceptedMetadata (fun vm => vm.pruneOldBlocks) = (vm', none) ∧
      Starts chain node vm.numHistoricalBlocks last vm' := by
  rcases setLastAcceptedMetadata_after hat with ⟨time, hset, hloaded⟩
  rcases pruneOldBlocks_after { vm with lastAcceptedHeight := last, lastAcceptedTime := time } hat hloaded
    hhead with ⟨vm', hprune, hnum, hhead', hready, hcommits⟩
  refine ⟨vm', ?_, hnum, hhead', hready, fun db' hdb' => ?_⟩
  · rw [hset]
    exact hprune
  · rcases hcommits db' hdb' with hold | hpruned
    · exact hleaves db' hold
    · rcases hpruned.stored with ⟨lo', hat', -⟩
      exact ⟨.after hat' (le_refl _) htop, hpruned.keeps.of_heights hheights⟩

theorem load_before (vm : VM) (hbefore : Before chain vm.state height)
    (hnothing : vm.numHistoricalBlocks = 0 ∨ vm.state.heights.keys = [])
    (hhead : vm.commits.head? = some vm.state)
    (hleaves : Leaves chain vm.numHistoricalBlocks height node.outerHeight node.db vm) :
    ∃ vm', VM.andThen vm.setLastAcceptedMetadata (fun vm => vm.pruneOldBlocks) = (vm', none) ∧
      Starts chain node vm.numHistoricalBlocks height vm' := by
  refine ⟨{ vm with lastAcceptedHeight := 0, lastAcceptedTime := zeroTime }, ?_, rfl, hhead, .before hbefore, hleaves⟩
  unfold VM.setLastAcceptedMetadata
  rw [hbefore.accepted]
  exact pruneOldBlocks_before hnothing

variable {top : ℕ}

/-- A commit more. -/
theorem Leaves.commit {db₁ : State} (h : Leaves chain n height top db vm)
    (hstored : Stored chain db₁ height top) (hkeeps : Keeps chain n height db db₁) :
    Leaves chain n height top db (VM.commit { vm with state := db₁ }) := by
  intro db' hdb'
  rcases List.mem_cons.mp hdb' with rfl | hold
  · exact ⟨hstored, hkeeps⟩
  · exact h db' hold

theorem Before.mono {height' : ℕ} (h : Before chain db height) (hle : height' ≤ height) :
    Before chain db height' := ⟨h.sound, h.fork, h.accepted, hle.trans_lt h.lt⟩

/-- The height of the last accepted wrapper. -/
theorem At.outerHeight_eq (h : At chain node.db lo last) :
    node.outerHeight = last := by
  unfold Node.outerHeight
  rw [h.accepted]
  dsimp only
  rw [h.block h.le (le_refl _)]
  exact chain.height_outer h.fork_le_last

theorem Before.outerHeight_eq (h : Before chain node.db height) :
    node.outerHeight = node.innerHeight := by
  unfold Node.outerHeight
  rw [h.accepted]

/-- `repairAcceptedChainByHeight` sets the last accepted wrapper back to the inner block, before the fork it
forgets it. -/
theorem repairAcceptedChainByHeight_eq (vm : VM) (hat : At chain vm.state lo last) (hle : height ≤ last)
    (hretained : chain.forkHeight ≤ height → lo ≤ height) :
    vm.repairAcceptedChainByHeight (chain.innerVM height) =
      (if height = last then vm else VM.commit { vm with state := { vm.state with
        lastAccepted := if height < chain.forkHeight then none else some (chain.outer height).id } }, none) := by
  have hinner : (chain.innerVM height).lastAccepted.height = height := chain.height_inner height
  unfold VM.repairAcceptedChainByHeight VM.getPostForkBlock
  rw [hat.accepted]
  dsimp only
  rw [hat.block hat.le (le_refl _)]
  dsimp only
  rw [chain.height_outer hat.fork_le_last, hinner, if_neg (not_lt.mpr hle), hat.fork]
  rcases hle.eq_or_lt with rfl | hlt
  · rw [if_pos rfl, if_pos rfl]
  · rw [if_neg hlt.ne', if_neg hlt.ne]
    dsimp only
    by_cases hfork : height < chain.forkHeight
    · rw [if_pos hfork, if_pos hfork]
    · rw [if_neg hfork, if_neg hfork, hat.present height (hretained (not_lt.mp hfork)) hlt.le]

/-! ## One start -/

theorem leaves_new (h : Stored chain db height top) :
    Leaves chain n height top db (VM.new n db) := by
  intro db' hdb'
  rw [List.mem_singleton.mp hdb']
  exact ⟨h, .refl⟩

section Start

variable (hrestarts : node.Restarts chain numHistoricalBlocks height)
  (hcareful : node.Careful chain (.start numHistoricalBlocks height crashAt))
include hrestarts hcareful

/-- A start below the last accepted wrapper. -/
theorem initializeVM_lt (hat : At chain node.db lo last) (hlt : height < last) :
    ∃ vm, (VM.new numHistoricalBlocks node.db).initializeVM (chain.innerVM height) = (vm, none) ∧
      Starts chain node numHistoricalBlocks height vm := by
  have htop := hat.outerHeight_eq
  have hretained : chain.forkHeight ≤ height → lo ≤ height := by
    intro hfork
    exact (hat.retains_iff hlt.le).mp (hrestarts.retained hfork)
  have hleaves := leaves_new (n := numHistoricalBlocks) (Stored.after hat hlt.le htop.ge)
  unfold VM.initializeVM
  rw [repairAcceptedChainByHeight_eq (VM.new numHistoricalBlocks node.db) hat hlt.le hretained, if_neg hlt.ne]
  by_cases hfork : height < chain.forkHeight
  · rw [if_pos hfork]
    have hbefore : Before chain { node.db with lastAccepted := none } height :=
      ⟨hat.sound, .inr hat.fork, rfl, hfork⟩
    have hleaves' := hleaves.commit (.before hbefore) (Keeps.refl.of_heights rfl)
    exact load_before _ hbefore (hcareful.2 hfork) rfl hleaves'
  · rw [if_neg hfork]
    have hfork' := not_lt.mp hfork
    have hat' := hat.rollback (hretained hfork') hlt.le fun hoption => by
      have hparent := hcareful.1 hfork' (hlt.trans_eq htop.symm) hoption
      have hpos := (chain.option_parent height hfork' hoption).1
      have hlo := (hat.retains_iff (by omega)).mp hparent
      omega
    have hleaves' := hleaves.commit (.after hat' (le_refl _) hrestarts.le) (Keeps.refl.of_heights rfl)
    exact load_after _ hat' hrestarts.le rfl rfl hleaves'

/-- A careful start succeeds, and each of its commits is a state to start from again. -/
theorem initializeVM_spec (hstored : Stored chain node.db node.innerHeight node.outerHeight) :
    ∃ vm, (VM.new numHistoricalBlocks node.db).initializeVM (chain.innerVM height) = (vm, none) ∧
      Starts chain node numHistoricalBlocks height vm := by
  have hle := hrestarts.le
  cases hstored with
  | before hbefore =>
    have hbefore' : Before chain node.db height := hbefore.mono (hle.trans_eq hbefore.outerHeight_eq)
    unfold VM.initializeVM VM.repairAcceptedChainByHeight
    rw [show (VM.new numHistoricalBlocks node.db).state.lastAccepted = none from hbefore.accepted]
    exact load_before _ hbefore' (hcareful.2 hbefore'.lt) rfl (leaves_new (.before hbefore'))
  | @after lo last hat hlast htop =>
    rcases (hle.trans_eq hat.outerHeight_eq).lt_or_eq with hlt | rfl
    · exact initializeVM_lt hrestarts hcareful hat hlt
    · unfold VM.initializeVM
      rw [repairAcceptedChainByHeight_eq (VM.new numHistoricalBlocks node.db) hat (le_refl _) fun _ => hat.le,
        if_pos rfl]
      exact load_after _ hat htop rfl rfl (leaves_new (.after hat (le_refl _) htop))

end Start

/-! ## Steps and runs -/

/-- What every careful run keeps. -/
structure Inv (chain : Chain) (node : Node) : Prop where
  stored : Stored chain node.db node.innerHeight node.outerHeight
  running : ∀ vm, node.vm = some vm → vm.state = node.db ∧ Ready chain vm node.startHeight node.innerHeight

/-- What a step may delete, and that it adds at most the next block. -/
structure Kept (chain : Chain) (event : Event) (node node' : Node) : Prop where
  deleted : ∀ x, Node.Retains node.db x → ¬ Node.Retains node'.db x →
    node.setting event ≠ 0 ∧ x + node.setting event < node'.outerHeight
  added : ∀ x, chain.forkHeight ≤ x → x ≤ node'.outerHeight → ¬ Node.Retains node'.db x → x ≤ node.outerHeight

theorem inv_new : Inv chain Node.new := by
  refine ⟨.before ⟨fun x id hx => ?_, .inl rfl, rfl, chain.forkHeight_pos⟩, fun vm hvm => ?_⟩
  · cases hx
  · cases hvm

theorem Stored.outerHeight (h : Stored chain node.db node.innerHeight top) :
    Stored chain node.db node.innerHeight node.outerHeight ∧
      (chain.forkHeight ≤ node.outerHeight → node.outerHeight ≤ top) := by
  cases h with
  | before h =>
    refine ⟨.before h, fun hfork => ?_⟩
    have := h.outerHeight_eq
    have := h.lt
    omega
  | after h hle htop =>
    have heq := h.outerHeight_eq
    exact ⟨.after h hle heq.ge, fun _ => heq.trans_le htop⟩

variable {node' : Node}

theorem Keeps.deleted (h : Keeps chain n last db node'.db) {x : ℕ} (hx : Node.Retains db x)
    (hx' : ¬ Node.Retains node'.db x) : n ≠ 0 ∧ x + n < node'.outerHeight := by
  rcases h x hx hx' with ⟨hfar, lo, hat⟩
  rw [hat.outerHeight_eq]
  exact hfar

variable {event : Event}

/-- Nothing changes but what is in memory. -/
theorem Kept.of_db (hdb : node'.db = node.db)
    (hheight : chain.forkHeight ≤ node'.outerHeight → node'.outerHeight ≤ node.outerHeight) :
    Kept chain event node node' := by
  constructor
  · intro x hx hx'
    rw [hdb] at hx'
    exact absurd hx hx'
  · intro x hfork hx _
    exact hx.trans (hheight (hfork.trans hx))

/-- A state that a start leaves. -/
theorem Leaves.step (h : Leaves chain numHistoricalBlocks height node.outerHeight node.db vm)
    (node' : Node) (hmem : node'.db ∈ vm.commits) (hheight : node'.innerHeight = height) :
    Stored chain node'.db node'.innerHeight node'.outerHeight ∧
      Kept chain (.start numHistoricalBlocks height crashAt) node node' := by
  rcases h _ hmem with ⟨hstored, hkeeps⟩
  rw [← hheight] at hstored
  have houter := hstored.outerHeight
  refine ⟨houter.1, fun x => hkeeps.deleted, fun x hfork hx _ => ?_⟩
  exact hx.trans (houter.2 (hfork.trans hx))

section

variable (hinv : Inv chain node)
include hinv

theorem step_start (hrestarts : node.Restarts chain numHistoricalBlocks height)
    (hcareful : node.Careful chain (.start numHistoricalBlocks height crashAt))
    (hstep : node.step chain (.start numHistoricalBlocks height crashAt) = some node') :
    Inv chain node' ∧ Kept chain (.start numHistoricalBlocks height crashAt) node node' := by
  rcases initializeVM_spec hrestarts hcareful hinv.stored with ⟨vm, hinit, -, hhead, hready, hleaves⟩
  unfold Node.step at hstep
  dsimp only at hstep
  rw [hinit] at hstep
  rcases hvm : node.vm with _ | vm'
  · rw [hvm] at hstep
    rcases crashAt with _ | n
    · cases hstep
      have hcommitted : vm.committed = vm.state := by
        unfold VM.committed
        rw [hhead]
        rfl
      have hmem : vm.committed ∈ vm.commits := by
        rw [hcommitted]
        exact List.mem_of_head? hhead
      rcases hleaves.step ⟨vm.committed, height, height, some vm⟩ hmem rfl with ⟨hstored, hkept⟩
      refine ⟨⟨hstored, fun vm' hvm' => ?_⟩, hkept⟩
      cases hvm'
      exact ⟨hcommitted.symm, hready⟩
    · rcases Option.map_eq_some_iff.mp hstep with ⟨db, hdb, rfl⟩
      rcases hleaves.step ⟨db, height, node.startHeight, none⟩ (List.mem_of_getElem? hdb) rfl with ⟨hstored, hkept⟩
      refine ⟨⟨hstored, fun vm' hvm' => ?_⟩, hkept⟩
      cases hvm'
  · rw [hvm] at hstep
    cases hstep

section

variable (hvm : node.vm = some vm)
include hvm

theorem Inv.outerHeight_eq : node.outerHeight = node.innerHeight := by
  rcases hinv.running vm hvm with ⟨hdb, hready⟩
  cases hready with
  | before h =>
    rw [hdb] at h
    exact h.outerHeight_eq
  | after h =>
    rw [hdb] at h
    exact h.outerHeight_eq

omit hinv in
theorem setting_eq (h : event = .accept ∨ event = .crashInAccept) :
    node.setting event = vm.numHistoricalBlocks := by
  unfold Node.setting
  rw [hvm]
  rcases h with rfl | rfl <;> rfl

/-- The next wrapper is committed. -/
theorem Inv.accepts (hsetting : node.setting event = vm.numHistoricalBlocks)
    (hlt : ¬ 2 ^ 64 ≤ node.innerHeight + 1) (hnext : ¬ node.innerHeight + 1 < chain.forkHeight) :
    ∃ lo db, vm.acceptPostForkBlock (chain.outer (node.innerHeight + 1)) =
        { vm with
          state := db
          commits := db :: vm.commits
          lastAcceptedHeight := node.innerHeight + 1
          lastAcceptedTime := (chain.outer (node.innerHeight + 1)).timestamp.getD vm.lastAcceptedTime } ∧
      At chain db lo (node.innerHeight + 1) ∧
      (vm.numHistoricalBlocks ≠ 0 → node.innerHeight + 1 ≤ lo + vm.numHistoricalBlocks) ∧
      ∀ innerHeight start vm', innerHeight ≤ node.innerHeight + 1 →
        Stored chain db innerHeight (Node.mk db innerHeight start vm').outerHeight ∧
          Kept chain event node ⟨db, innerHeight, start, vm'⟩ := by
  rcases hinv.running vm hvm with ⟨hdb, hready⟩
  rcases acceptPostForkBlock_spec hready (not_lt.mp hnext) (not_le.mp hlt) with
    ⟨lo, db, haccept, hat, hpruned, hkeeps⟩
  rw [hdb] at hkeeps
  refine ⟨lo, db, haccept, hat, hpruned, fun innerHeight start vm' hle => ?_⟩
  have houter : (Node.mk db innerHeight start vm').outerHeight = node.innerHeight + 1 := At.outerHeight_eq hat
  refine ⟨.after hat hle houter.ge, fun x hx hx' => ?_, fun x _ hx hx' => ?_⟩
  · rw [hsetting]
    exact hkeeps.deleted hx hx'
  · rw [hinv.outerHeight_eq hvm]
    rw [houter] at hx
    rcases Nat.le_or_eq_of_le_succ hx with hle' | rfl
    · exact hle'
    · exact absurd ((hat.retains_iff (le_refl _)).mpr hat.le) hx'

/-- Accepting a block before the fork. -/
theorem step_accept_before (hlt : node.innerHeight + 1 < chain.forkHeight) :
    Inv chain { node with innerHeight := node.innerHeight + 1 } ∧
      Kept chain .accept node { node with innerHeight := node.innerHeight + 1 } := by
  rcases hinv.running vm hvm with ⟨hdb, hready⟩
  cases hready with
  | before h =>
    have hbefore : Before chain node.db (node.innerHeight + 1) := by
      rw [← hdb]
      exact ⟨h.sound, h.fork, h.accepted, hlt⟩
    refine ⟨⟨.before hbefore, fun vm' hvm' => ?_⟩, .of_db rfl fun hfork => ?_⟩
    · rw [hvm] at hvm'
      cases hvm'
      exact ⟨hdb, .before (hdb.symm ▸ hbefore)⟩
    · have houter : Node.outerHeight { node with innerHeight := node.innerHeight + 1 } = node.innerHeight + 1 :=
        Before.outerHeight_eq hbefore
      rw [houter] at hfork
      exact absurd hfork (not_le.mpr hlt)
  | after h =>
    have := h.fork_le_last
    omega

end

omit hinv in
/-- What is in memory after the next block was accepted. -/
theorem loaded_next {startHeight : ℕ} (hready : Ready chain vm startHeight last)
    (hnext : chain.forkHeight ≤ last + 1)
    (hcareful : (chain.outer (last + 1)).timestamp = none → startHeight < last) {vm' : VM}
    (hheight : vm'.lastAcceptedHeight = last + 1)
    (htime : vm'.lastAcceptedTime = (chain.outer (last + 1)).timestamp.getD vm.lastAcceptedTime) :
    Loaded chain vm' startHeight (last + 1) := by
  refine ⟨hheight, fun hoption => ?_, fun _ t ht => ?_⟩
  · rcases chain.option_parent _ hnext hoption with ⟨hlt, -, hsigned⟩
    rcases Option.isSome_iff_exists.mp hsigned with ⟨t, ht⟩
    rw [htime, hoption]
    -- the parent of the option was accepted in this session, so its time is in memory
    cases hready with
    | before h =>
      have := h.lt
      omega
    | after _ hloaded =>
      rw [ht]
      exact congrArg some (hloaded.time_signed (hcareful hoption) t ht).symm
  · rw [htime, ht]
    rfl

theorem step_accept (hcareful : node.Careful chain .accept)
    (hstep : node.step chain .accept = some node') :
    Inv chain node' ∧ Kept chain .accept node node' := by
  unfold Node.step at hstep
  rcases hvm : node.vm with _ | vm
  · rw [hvm] at hstep
    cases hstep
  · rw [hvm] at hstep
    dsimp only at hstep
    split at hstep
    next => cases hstep
    next hlt =>
      split at hstep
      next hbefore =>
        cases hstep
        have h := step_accept_before hinv hvm hbefore
        rw [hvm] at h
        exact h
      next hnext =>
        cases hstep
        rcases hinv.accepts hvm (setting_eq hvm (.inl rfl)) hlt hnext with ⟨lo, db, haccept, hat, hpruned, hnode⟩
        rw [haccept]
        rcases hnode _ _ _ (le_refl _) with ⟨hstored, hkept⟩
        refine ⟨⟨hstored, fun vm' hvm' => ?_⟩, hkept⟩
        cases hvm'
        have hready := (hinv.running vm hvm).2
        exact ⟨rfl, .after hat (loaded_next hready (not_lt.mp hnext) (hcareful (not_lt.mp hnext)) rfl rfl) hpruned⟩

theorem step_crashInAccept (hstep : node.step chain .crashInAccept = some node') :
    Inv chain node' ∧ Kept chain .crashInAccept node node' := by
  unfold Node.step at hstep
  rcases hvm : node.vm with _ | vm
  · rw [hvm] at hstep
    cases hstep
  · rw [hvm] at hstep
    dsimp only at hstep
    split at hstep
    next => cases hstep
    next hlt =>
      split at hstep
      next => cases hstep
      next hnext =>
        cases hstep
        rcases hinv.accepts hvm (setting_eq hvm (.inr rfl)) hlt hnext with ⟨lo, db, haccept, -, -, hnode⟩
        rw [haccept]
        rcases hnode _ _ _ (Nat.le_succ _) with ⟨hstored, hkept⟩
        refine ⟨⟨hstored, fun vm' hvm' => ?_⟩, hkept⟩
        cases hvm'

theorem Inv.step (hallowed : Node.Allowed chain node event)
    (hstep : node.step chain event = some node') :
    Inv chain node' ∧ Kept chain event node node' := by
  cases event with
  | accept => exact step_accept hinv hallowed.2 hstep
  | crashInAccept => exact step_crashInAccept hinv hstep
  | crash =>
    cases hstep
    refine ⟨⟨hinv.stored, fun vm hvm => ?_⟩, .of_db rfl fun _ => le_refl _⟩
    cases hvm
  | start n h crashAt => exact step_start hinv hallowed.1 hallowed.2 hstep

omit hinv in
theorem Inv.run (h : Node.Leads chain (Node.Allowed chain) Node.new node) : Inv chain node := by
  induction h with
  | refl => exact inv_new
  | tail _ hstep ih =>
    rcases hstep with ⟨event, hallowed, hstep⟩
    exact (ih.step hallowed hstep).1

omit hinv in
/-- A block that is missing was deleted on the way, when it was far enough below. -/
theorem deleted_on_the_way (h : Node.Leads chain (Node.Allowed chain) Node.new node) {x : ℕ} (hfork : chain.forkHeight ≤ x)
    (hx : x ≤ node.outerHeight) (hdeleted : ¬ Node.Retains node.db x) :
    ∃ before event after, Node.Leads chain (Node.Allowed chain) Node.new before ∧ Node.Allowed chain before event ∧
      before.step chain event = some after ∧ Node.Leads chain (Node.Allowed chain) after node ∧
      Node.Retains before.db x ∧ ¬ Node.Retains after.db x ∧
      before.setting event ≠ 0 ∧ x + before.setting event < after.outerHeight := by
  induction h with
  | refl => exact absurd (hfork.trans hx) (not_le.mpr chain.forkHeight_pos)
  | @tail before after hbefore hstep ih =>
    rcases hstep with ⟨event, hallowed, hstep⟩
    have hkept := ((Inv.run hbefore).step hallowed hstep).2
    by_cases hretained : Node.Retains before.db x
    · exact ⟨before, event, after, hbefore, hallowed, hstep, .refl, hretained, hdeleted,
        hkept.deleted x hretained hdeleted⟩
    · rcases ih (hkept.added x hfork hx hdeleted) hretained with
        ⟨node₁, event₁, node₂, hnode₁, hallowed₁, hstep₁, hnode₂, hrest⟩
      exact ⟨node₁, event₁, node₂, hnode₁, hallowed₁, hstep₁, hnode₂.tail ⟨event, hallowed, hstep⟩, hrest⟩

/-! ## Consistency with the inner VM -/

/-- What a running node answers. -/
structure Consistent (chain : Chain) (node : Node) (vm : VM) : Prop where
  /-- Before the fork the last accepted block is that of the inner VM. -/
  lastAccepted_inner : node.innerHeight < chain.forkHeight →
    vm.getLastAccepted (chain.innerVM node.innerHeight) = (chain.innerVM node.innerHeight).lastAccepted.id
  /-- From the fork on it wraps it. -/
  lastAccepted_outer : chain.forkHeight ≤ node.innerHeight →
    ∃ blk, vm.getPostForkBlock (vm.getLastAccepted (chain.innerVM node.innerHeight)) = some blk ∧
      blk.inner = (chain.innerVM node.innerHeight).lastAccepted ∧
      -- an option reports the timestamp of its parent
      (blk.timestamp = none →
        (chain.outer (node.innerHeight - 1)).id = blk.parentID ∧
        (chain.outer (node.innerHeight - 1)).timestamp = some (vm.optionTimestamp blk))
  indexed_inner : ∀ x, x ≤ node.innerHeight → x < chain.forkHeight →
    vm.getBlockIDAtHeight (chain.innerVM node.innerHeight) x = some (chain.inner x).id
  indexed_outer : ∀ x, x ≤ node.innerHeight → chain.forkHeight ≤ x → Node.Retains node.db x →
    vm.getBlockIDAtHeight (chain.innerVM node.innerHeight) x = some (chain.outer x).id

omit hinv in
/-- `GetBlockIDAtHeight` before the fork asks the inner VM. -/
theorem getBlockIDAtHeight_inner {x : ℕ}
    (hfork : vm.state.forkHeight = none ∨ vm.state.forkHeight = some chain.forkHeight)
    (hx : x ≤ height) (hlt : x < chain.forkHeight) :
    vm.getBlockIDAtHeight (chain.innerVM height) x = some (chain.inner x).id := by
  have hinner : (chain.innerVM height).getBlockIDAtHeight x = some (chain.inner x).id := if_pos hx
  unfold VM.getBlockIDAtHeight
  rcases hfork with hnone | hsome
  · rw [hnone]
    exact hinner
  · rw [hsome]
    dsimp only
    rw [if_pos hlt]
    exact hinner

theorem Inv.consistent (hvm : node.vm = some vm) : Consistent chain node vm := by
  rcases hinv.running vm hvm with ⟨hdb, hready⟩
  cases hready with
  | before h =>
    have hlt := h.lt
    refine ⟨fun _ => ?_, fun hfork => ?_, fun x hx hxlt => ?_, fun x hx hfork => ?_⟩
    · unfold VM.getLastAccepted
      rw [h.accepted]
      rfl
    · exact absurd hfork (not_le.mpr hlt)
    · exact getBlockIDAtHeight_inner h.fork hx hxlt
    · exact absurd (hfork.trans hx) (not_le.mpr hlt)
  | after h hloaded =>
    have hfork := h.fork_le_last
    refine ⟨fun hlt => ?_, fun _ => ⟨chain.outer node.innerHeight, ?_, ?_, fun hoption => ⟨?_, ?_⟩⟩,
      fun x hx hxlt => ?_, fun x hx hxfork hretained => ?_⟩
    · exact absurd hfork (not_le.mpr hlt)
    · unfold VM.getPostForkBlock VM.getLastAccepted
      rw [h.accepted]
      exact h.block h.le (le_refl _)
    · exact chain.inner_outer _ hfork
    · exact (chain.option_parent _ hfork hoption).2.1.symm
    · unfold VM.optionTimestamp
      rw [hloaded.height, chain.height_outer hfork, if_pos (le_refl _)]
      exact hloaded.time_option hoption
    · exact getBlockIDAtHeight_inner (.inr h.fork) hx hxlt
    · unfold VM.getBlockIDAtHeight
      rw [h.fork]
      dsimp only
      rw [if_neg (not_lt.mpr hxfork)]
      rw [← hdb] at hretained
      exact h.present x ((h.retains_iff hx).mp hretained) hx

/-- A careful start ends with a running node. -/
theorem Inv.starts (hvm : node.vm = none)
    (hallowed : Node.Allowed chain node (.start numHistoricalBlocks height none)) :
    ∃ node' vm, node.step chain (.start numHistoricalBlocks height none) = some node' ∧ node'.vm = some vm ∧
      node'.innerHeight = height ∧ Consistent chain node' vm := by
  rcases initializeVM_spec hallowed.1 hallowed.2 hinv.stored with ⟨vm, hinit, -⟩
  have hstep : node.step chain (.start numHistoricalBlocks height none) =
      some ⟨vm.committed, height, height, some vm⟩ := by
    unfold Node.step
    dsimp only
    rw [hvm, hinit]
  exact ⟨_, vm, hstep, rfl, rfl, (hinv.step hallowed hstep).1.consistent rfl⟩

end

/-- A chain that forks at its first block, and whose second one is an option. -/
def optionChain : Chain where
  forkHeight := 1
  inner n := ⟨Fin.ofNat _ n, n⟩
  outer n := ⟨Fin.ofNat _ (2 ^ 64 + n), Fin.ofNat _ (2 ^ 64 + (n - 1)), ⟨Fin.ofNat _ n, n⟩,
    if n = 2 then none else some (1000 + n)⟩
  forkHeight_pos := Nat.one_pos
  height_inner _ := rfl
  inner_outer _ _ := rfl
  id_inj n m _ hn _ hm h := by
    have hmod : (2 ^ 64 + n) % 2 ^ 256 = (2 ^ 64 + m) % 2 ^ 256 := congrArg Fin.val h
    omega
  option_parent n _ h := by
    have hn : n = 2 := by
      by_contra hne
      simp only [hne, if_false] at h
      cases h
    subst hn
    exact ⟨by decide, rfl, rfl⟩

/-- On every run of accepted blocks, crashes and starts whose steps are careful, every start
succeeds, a running VM is consistent with its inner VM, and a wrapper that is missing was deleted
when it was more than `NumHistoricalBlocks` below the last accepted one. -/
theorem restarts_consistently (chain : Chain) (node : Node)
    (h : Node.Leads chain (Node.Allowed chain) Node.new node) :
    (∀ numHistoricalBlocks innerHeight, node.vm = none →
      Node.Allowed chain node (.start numHistoricalBlocks innerHeight none) →
      ∃ node' vm, node.step chain (.start numHistoricalBlocks innerHeight none) = some node' ∧
        node'.vm = some vm ∧ node'.innerHeight = innerHeight ∧ Consistent chain node' vm) ∧
    (∀ vm, node.vm = some vm → Consistent chain node vm) ∧
    ∀ x, chain.forkHeight ≤ x → x ≤ node.outerHeight → ¬ Node.Retains node.db x →
      ∃ before event after, Node.Leads chain (Node.Allowed chain) Node.new before ∧ Node.Allowed chain before event ∧
        before.step chain event = some after ∧ Node.Leads chain (Node.Allowed chain) after node ∧
        Node.Retains before.db x ∧ ¬ Node.Retains after.db x ∧
        before.setting event ≠ 0 ∧ x + before.setting event < after.outerHeight := by
  have hinv := Inv.run h
  refine ⟨fun n height hvm hallowed => ?_, fun vm hvm => ?_, fun x hfork hx hdeleted => ?_⟩
  · exact hinv.starts hvm hallowed
  · exact hinv.consistent hvm
  · exact deleted_on_the_way h hfork hx hdeleted

theorem restarts_consistently_at_option :
    ∃ node ∈ Node.run optionChain (Node.Allowed optionChain) Node.new
        [.start 2 0 none, .accept, .accept, .crashInAccept],
      ∃ node' vm, node.step optionChain (.start 2 2 none) = some node' ∧ node'.vm = some vm ∧
        node'.innerHeight = 2 ∧ Consistent optionChain node' vm := by
  have hrun : ∃ node ∈ Node.run optionChain (Node.Allowed optionChain) Node.new
      [.start 2 0 none, .accept, .accept, .crashInAccept],
      node.vm.isNone ∧ node.Allowed optionChain (.start 2 2 none) := by decide +kernel
  rcases hrun with ⟨node, hnode, hvm, hallowed⟩
  have hleads := Node.leads_of_mem_run optionChain hnode
  exact ⟨node, hnode, (restarts_consistently optionChain node hleads).1 2 2 (Option.isNone_iff_eq_none.mp hvm) hallowed⟩

/-- Three runs that start as assumed. One block is kept below the last accepted one, and a crash
before the inner VM accepts the block after an option leaves the option without its parent: the
start fails. A start that prunes when the inner VM is before the fork deletes what was kept and
fails. An option that is accepted after a start at its parent reports no time. -/
theorem restarts_inconsistently :
    (∃ node ∈ Node.run optionChain (Node.Assumed optionChain) Node.new
        [.start 1 0 none, .accept, .accept, .crashInAccept],
      node.Restarts optionChain 1 2 ∧
        ((VM.new 1 node.db).initializeVM (optionChain.innerVM 2)).2 = some .notFound) ∧
    (∃ node ∈ Node.run optionChain (Node.Assumed optionChain) Node.new [.start 0 0 none, .accept, .crash],
      node.Restarts optionChain 1 0 ∧
        ((VM.new 1 node.db).initializeVM (optionChain.innerVM 0)).2 = some .notFound) ∧
    ∃ node ∈ Node.run optionChain (Node.Assumed optionChain) Node.new
        [.start 0 0 none, .accept, .crash, .start 0 1 none, .accept],
      ∃ vm ∈ node.vm, vm.getLastAccepted (optionChain.innerVM 2) = (optionChain.outer 2).id ∧
        vm.optionTimestamp (optionChain.outer 2) = zeroTime ∧ (optionChain.outer 1).timestamp = some 1001 := by
  decide +kernel

end Titan.ProposerVM
