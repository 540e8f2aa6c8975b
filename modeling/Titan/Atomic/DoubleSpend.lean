import Titan.Atomic.Blocks

/-!
# Titan.Atomic.DoubleSpend — no imported UTXO is spent twice

Three mechanisms keep imports of one UTXO apart: within a block `verifyTxs`
compares the transactions, against ancestors that are processing `conflicts` walks
down to the last accepted height, and against accepted blocks the UTXO has to be in
shared memory. Their windows meet if the blocks that are processing all descend
from the last accepted one (`VM.Connected`): the walk then ends at the last
accepted block.
-/

namespace Titan.Atomic

open Lib
open PChain (ID Bytes GoMap)

/-- The UTXOs that a transaction imports, with the chains they come from. -/
def Tx.imports (inputID : UTXOID → ID) (tx : Tx) : List (ID × ID) :=
  match tx.unsigned with
  | .importTx utx => utx.importedInputs.map (fun i => (utx.sourceChain, inputID i.utxoID))
  | .exportTx _ => []

def Block.imports (inputID : UTXOID → ID) (blk : Block) : List (ID × ID) :=
  blk.txs.flatMap (Tx.imports inputID)

theorem Tx.mem_inputUTXOs_of_imports {inputID : UTXOID → ID} {tx : Tx} {x : ID × ID}
    (h : x ∈ tx.imports inputID) : x.2 ∈ tx.inputUTXOs inputID := by
  unfold Tx.imports at h
  unfold Tx.inputUTXOs
  split at h
  next utx hutx =>
    rcases List.mem_map.mp h with ⟨i, hi, rfl⟩
    simp only [hutx, List.mem_dedup]
    exact List.mem_map.mpr ⟨i, hi, rfl⟩
  next => cases h

namespace VM

/-! ## Chains -/

/-- A chain of verified and accepted blocks, newest first. -/
inductive Chain (vm : VM) : List Block → Prop
  | accepted (newer : List Block) {l : List Block} : newer ++ l = vm.acceptedChain → Chain vm l
  | processing {blk p : Block} {l : List Block} : vm.processing.lookup blk.id = some blk →
      blk.parentID = p.id → Chain vm (p :: l) → Chain vm (blk :: p :: l)

/-- The block is processing and descends from the last accepted one. -/
inductive Rooted (vm : VM) : Block → Prop
  | child {blk : Block} : vm.processing.lookup blk.id = some blk →
      blk.parentID = vm.lastAccepted.id → Rooted vm blk
  | step {blk p : Block} : vm.processing.lookup blk.id = some blk → blk.parentID = p.id →
      Rooted vm p → Rooted vm blk

/-- Every block that is processing has its parent, which is processing or the last accepted
block. -/
def Connected (vm : VM) : Prop :=
  ∀ id blk, vm.processing.lookup id = some blk →
    blk.parentID = vm.lastAccepted.id ∨ (vm.processing.lookup blk.parentID).isSome

variable {blk : Block}

theorem Rooted.processing {vm : VM} (h : vm.Rooted blk) :
    vm.processing.lookup blk.id = some blk := by
  cases h <;> assumption

/-! ## The invariant -/

/-- What holds in every run. `U` are the blocks that occur and `added` the elements that
were ever in shared memory for this chain. -/
structure Inv (cfg : Config) (U : Set Block) (vm : VM) (added : Set (ID × ID)) : Prop where
  processing : ∀ id blk, vm.processing.lookup id = some blk → blk.id = id ∧ blk ∈ U ∧
    ∃ st, vm.verifiedRoots.lookup id = some st ∧ mergeAtomicOps cfg blk.txs = .ok st.atomicOps
  accepted : ∀ blk ∈ vm.acceptedChain, blk ∈ U ∧ blk.height ≤ vm.lastAccepted.height ∧
    vm.processing.lookup blk.id = none
  height : ∀ id blk p, vm.processing.lookup id = some blk →
    vm.processing.lookup p.id = some p ∨ p ∈ vm.acceptedChain → blk.parentID = p.id →
    p.height + 1 = blk.height
  nodup : ∀ l, vm.Chain l → (l.flatMap (Block.imports cfg.backend.inputID)).Nodup
  spent : ∀ blk ∈ vm.acceptedChain, ∀ x ∈ blk.imports cfg.backend.inputID,
    ¬ (vm.sharedMemory.inbound x.1).Present x.2 ∧ x ∈ added
  unspent : ∀ blk, vm.Rooted blk → ∀ x ∈ blk.imports cfg.backend.inputID,
    (vm.sharedMemory.inbound x.1).Present x.2
  added : ∀ x : ID × ID, (vm.sharedMemory.inbound x.1).Present x.2 → x ∈ added

namespace Inv

variable {cfg : Config} {U : Set Block} (hU : U.InjOn Block.id) {vm : VM} {added : Set (ID × ID)}
  (h : Inv cfg U vm added)
include h

theorem rooted_height (hr : vm.Rooted blk) : vm.lastAccepted.height < blk.height := by
  induction hr with
  | child hblk hparent =>
    have := h.height _ _ vm.lastAccepted hblk (.inr List.mem_cons_self) hparent
    omega
  | step hblk hparent hp ih =>
    have := h.height _ _ _ hblk (.inl hp.processing) hparent
    omega

/-- In a connected state every block that is processing is rooted. -/
theorem rooted_of_connected (hconn : vm.Connected) (hblk : vm.processing.lookup blk.id = some blk) :
    vm.Rooted blk := by
  -- by induction on the height, which falls from a block to its parent
  induction hn : blk.height using Nat.strong_induction_on generalizing blk with
  | _ n ih =>
    rcases hconn _ blk hblk with hparent | hparent
    · exact .child hblk hparent
    · rcases Option.isSome_iff_exists.mp hparent with ⟨p, hp⟩
      have hid := (h.processing _ p hp).1
      rw [← hid] at hp
      have hheight := h.height _ blk p hblk (.inl hp) hid.symm
      exact .step hblk hid.symm (ih p.height (by omega) hp rfl)

variable {p : Block}

section

variable (hp : vm.processing.lookup p.id = some p ∨ p ∈ vm.acceptedChain)
include hp

/-- The blocks that are processing or accepted occur. -/
theorem mem_of_known : p ∈ U := by
  rcases hp with hp | hp
  · exact (h.processing _ p hp).2.1
  · exact (h.accepted p hp).1

include hU in
/-- A block that is processing or accepted is found under its ID. -/
theorem getExtendedBlock :
    vm.getExtendedBlock p.id = some p := by
  unfold VM.getExtendedBlock
  rcases hp with hp | hp
  · rw [hp]
  · rw [(h.accepted p hp).2.2]
    rcases hfind : vm.acceptedChain.find? (fun blk => blk.id = p.id) with _ | p'
    · have := List.find?_eq_none.mp hfind p hp
      simp at this
    · have hid := List.find?_some hfind
      have hmem := List.mem_of_find?_eq_some hfind
      simp only [decide_eq_true_eq] at hid
      rw [hfind, hU (h.accepted p' hmem).1 (h.accepted p hp).1 hid]

end

variable {l : List Block}

omit h in
/-- The blocks of a chain are processing or accepted, and below an accepted one all are
accepted. -/
theorem chain_cases (hl : vm.Chain (p :: l)) :
    vm.processing.lookup p.id = some p ∨ ∀ q ∈ p :: l, q ∈ vm.acceptedChain := by
  cases hl with
  | accepted newer heq =>
    right
    intro q hq
    rw [← heq]
    exact List.mem_append_right _ hq
  | processing hblk _ _ => exact .inl hblk

omit h in
theorem chain_known (hl : vm.Chain (p :: l)) :
    vm.processing.lookup p.id = some p ∨ p ∈ vm.acceptedChain := by
  rcases chain_cases hl with hlook | hall
  · exact .inl hlook
  · exact .inr (hall p List.mem_cons_self)

omit h in
theorem chain_mem (hl : vm.Chain l) :
    ∀ q ∈ l, vm.processing.lookup q.id = some q ∨ q ∈ vm.acceptedChain := by
  induction hl with
  | accepted newer heq => exact fun q hq => .inr (heq ▸ List.mem_append_right _ hq)
  | processing hblk _ _ ih =>
    intro q hq
    rcases List.mem_cons.mp hq with rfl | hq
    · exact .inl hblk
    · exact ih q hq

include hU in
/-- The walk of `conflicts` compares the inputs with all ancestors that are processing. -/
theorem conflicts_ok {inputs : List ID} {fuel : ℕ} {p : Block}
    (hp : vm.Rooted p ∨ p = vm.lastAccepted) (hl : vm.Chain (p :: l))
    (hok : conflicts vm.fetcher cfg.backend.inputID inputs fuel p = .ok ()) :
    ∀ q ∈ p :: l, vm.processing.lookup q.id = some q →
      ∀ tx ∈ q.txs, ¬ overlaps inputs (tx.inputUTXOs cfg.backend.inputID) := by
  have haccepted : ∀ q ∈ vm.acceptedChain, vm.processing.lookup q.id ≠ some q := by
    intro q hq hlook
    rw [(h.accepted q hq).2.2] at hlook
    cases hlook
  have habove : ∀ {p : Block}, vm.Rooted p → ¬ p.height ≤ vm.fetcher.lastAccepted.height :=
    fun hp => Nat.not_le.mpr (h.rooted_height hp)
  induction fuel generalizing p l with
  | zero =>
    rcases hp with hp | rfl
    · -- above the last accepted height the walk needs fuel
      unfold conflicts at hok
      rw [if_neg (habove hp)] at hok
      cases hok
    · rcases chain_cases hl with hlook | hall
      · exact absurd hlook (haccepted _ List.mem_cons_self)
      · exact fun q hq hlook => absurd hlook (haccepted q (hall q hq))
  | succ fuel ih =>
    rcases hp with hp | rfl
    · unfold conflicts at hok
      rw [if_neg (habove hp)] at hok
      rcases bind_ok hok with ⟨_, htxs, hok⟩
      have htxs := forM_ok htxs
      cases hl with
      | accepted newer heq =>
        exact absurd hp.processing (haccepted p (heq ▸ List.mem_append_right _ List.mem_cons_self))
      | @processing _ p' l' hblk hparent hl' =>
        have hfetch : vm.fetcher.getExtendedBlock p.parentID = some p' := by
          rw [hparent]
          exact h.getExtendedBlock hU (chain_known hl')
        rw [hfetch] at hok
        -- the parent of a rooted block is rooted or the last accepted block
        have hp' : vm.Rooted p' ∨ p' = vm.lastAccepted := by
          have hmem := h.mem_of_known (chain_known hl')
          cases hp with
          | child _ hparent' =>
            right
            exact hU hmem (h.accepted _ List.mem_cons_self).1 (hparent.symm.trans hparent')
          | @step _ q _ hparent' hq =>
            left
            rw [hU hmem (h.mem_of_known (.inl hq.processing)) (hparent.symm.trans hparent')]
            exact hq
        intro q hq hlook tx htx
        rcases List.mem_cons.mp hq with rfl | hq
        · exact ensure_ok (htxs tx htx)
        · exact ih hp' hl' hok q hq hlook tx htx
    · rcases chain_cases hl with hlook | hall
      · exact absurd hlook (haccepted _ List.mem_cons_self)
      · exact fun q hq hlook => absurd hlook (haccepted q (hall q hq))

end Inv

/-! ## Verification -/

/-- A block whose transactions verify imports what is in shared memory, each UTXO once, and
nothing that an ancestor above the last accepted height takes as input. -/
structure TxsVerified (backend : VerifierBackend) (vm : VM) (ancestor : Block) (txs : List Tx) :
    Prop where
  nodup : (txs.flatMap (Tx.imports backend.inputID)).Nodup
  present : ∀ x ∈ txs.flatMap (Tx.imports backend.inputID),
    (vm.sharedMemory.inbound x.1).Present x.2
  conflicts : ∀ tx ∈ txs, tx.imports backend.inputID ≠ [] →
    conflicts vm.fetcher backend.inputID (tx.inputUTXOs backend.inputID) ancestor.height ancestor =
      .ok ()

/-- One transaction that verifies. -/
theorem semanticVerify_imports {backend : VerifierBackend} {sm : SharedMemory} {fetcher : BlockFetcher}
    {tx : Tx} {ancestor : Block} {baseFee : Option ℤ} (hboot : backend.bootstrapped = true)
    (hid : Set.InjOn backend.inputID tx.namedUTXOs)
    (h : semanticVerify backend sm fetcher tx ancestor baseFee = .ok ()) :
    (tx.imports backend.inputID).Nodup ∧
      (∀ x ∈ tx.imports backend.inputID, (sm.inbound x.1).Present x.2) ∧
      (tx.imports backend.inputID ≠ [] → conflicts fetcher backend.inputID
        (tx.inputUTXOs backend.inputID) ancestor.height ancestor = .ok ()) := by
  unfold semanticVerify at h
  unfold Tx.namedUTXOs at hid
  unfold Tx.imports
  split at h
  next utx hutx =>
    simp only [hutx] at hid ⊢
    have hv := verifyImportTx_ok hboot h
    refine ⟨?_, ?_, fun _ => hv.conflicts⟩
    · have hnodup := UnsignedImportTx.nodup_inputIDs hid hv.verify
      have hsnd : (utx.importedInputs.map (fun i => (utx.sourceChain, backend.inputID i.utxoID))).map
          Prod.snd = utx.importedInputs.map (fun i => backend.inputID i.utxoID) := by
        rw [List.map_map]
        rfl
      rw [← hsnd] at hnodup
      exact hnodup.of_map
    · intro x hx
      rcases List.mem_map.mp hx with ⟨i, hi, rfl⟩
      rcases hv.utxos with ⟨allUTXOBytes, hget, -⟩
      exact SharedMemory.present_of_get hget (List.mem_map.mpr ⟨i, hi, rfl⟩)
  next utx hutx => simp [hutx]

theorem verifyTxsFrom_ok (backend : VerifierBackend) {vm : VM} {ancestor : Block}
    {baseFee : Option ℤ} {txs : List Tx} {inputs : List ID} (hboot : backend.bootstrapped = true)
    (hid : ∀ tx ∈ txs, Set.InjOn backend.inputID tx.namedUTXOs)
    (h : verifyTxsFrom backend vm ancestor baseFee txs inputs = .ok ()) :
    TxsVerified backend vm ancestor txs ∧
      ∀ x ∈ txs.flatMap (Tx.imports backend.inputID), x.2 ∉ inputs := by
  induction txs generalizing inputs with
  | nil => exact ⟨⟨by simp, by simp, by simp⟩, by simp⟩
  | cons tx rest ih =>
    rcases bind_ok h with ⟨_, hone, h⟩
    rcases bind_ok h with ⟨_, hover, h⟩
    have hover := ensure_ok hover
    rcases semanticVerify_imports hboot (hid tx List.mem_cons_self) hone with
      ⟨hnodup, hpresent, hconf⟩
    rcases ih (fun tx htx => hid tx (List.mem_cons_of_mem _ htx)) h with ⟨hrest, houtside⟩
    simp only [List.flatMap_cons, List.mem_append, not_or] at houtside ⊢
    refine ⟨⟨?_, ?_, ?_⟩, ?_⟩
    · rw [List.flatMap_cons, List.nodup_append']
      refine ⟨hnodup, hrest.nodup, fun x hx hx' => ?_⟩
      exact (houtside x hx').2 (Tx.mem_inputUTXOs_of_imports hx)
    · intro x hx
      rcases List.mem_append.mp hx with hx | hx
      · exact hpresent x hx
      · exact hrest.present x hx
    · intro tx' htx' hne
      rcases List.mem_cons.mp htx' with rfl | htx'
      · exact hconf hne
      · exact hrest.conflicts tx' htx' hne
    · rintro x (hx | hx)
      · exact fun hmem => hover ⟨x.2, hmem, Tx.mem_inputUTXOs_of_imports hx⟩
      · exact (houtside x hx).1

/-- What a verification does: nothing to the blocks unless the transactions verify. -/
theorem verify_cases (cfg : Config) (vm : VM) (blk : Block) (rest : Except TxError Unit) :
    (vm.verify cfg blk rest).1 = vm ∨
    (vm.processing.lookup blk.id = none ∧ ∃ roots,
      (vm.verify cfg blk rest).1 = { vm with verifiedRoots := roots } ∧
      ∀ id, id ≠ blk.id → roots.lookup id = vm.verifiedRoots.lookup id) ∨
    (vm.processing.lookup blk.id = none ∧ vm.verifyTxs cfg blk = .ok () ∧
      ∃ ops, mergeAtomicOps cfg blk.txs = .ok ops ∧
      (vm.verify cfg blk rest).1 = { vm with
        processing := vm.processing.insert blk.id blk
        verifiedRoots := vm.verifiedRoots.insert blk.id ⟨blk.id, blk.height, blk.txs, ops⟩ }) := by
  unfold verify
  split
  next => exact .inl rfl
  split
  next => exact .inl rfl
  next hnone =>
    have hnone : vm.processing.lookup blk.id = none := by simpa using hnone
    have hcleanup : ∀ id, id ≠ blk.id →
        (vm.verifiedRoots.erase blk.id).lookup id = vm.verifiedRoots.lookup id :=
      fun id hid => AList.lookup_erase_ne hid
    right
    split
    next => exact .inl ⟨hnone, _, rfl, hcleanup⟩
    next htxs =>
      split
      next => exact .inl ⟨hnone, _, rfl, hcleanup⟩
      next vm₁ hinsert =>
        rcases bind_ok hinsert with ⟨_, -, hinsert⟩
        rcases bind_ok hinsert with ⟨ops, hops, hinsert⟩
        cases hinsert
        split
        next =>
          refine .inl ⟨hnone, _, rfl, fun id hid => ?_⟩
          rw [AList.lookup_erase_ne hid, AList.lookup_insert_ne hid]
        next => exact .inr ⟨hnone, htxs, ops, hops, rfl⟩

/-- A block whose transactions verify on top of `p`, and that is not there yet. -/
structure Fresh (cfg : Config) (U : Set Block) (vm : VM) (blk p : Block) : Prop where
  mem : blk ∈ U
  absent : vm.processing.lookup blk.id = none
  unaccepted : ∀ q ∈ vm.acceptedChain, q.id ≠ blk.id
  childless : ∀ id q, vm.processing.lookup id = some q → q.parentID ≠ blk.id
  parent : p.id = blk.parentID
  parent_rooted : vm.Rooted p ∨ p = vm.lastAccepted
  height : p.height + 1 = blk.height
  nodup : (blk.imports cfg.backend.inputID).Nodup
  present : ∀ x ∈ blk.imports cfg.backend.inputID, (vm.sharedMemory.inbound x.1).Present x.2
  conflicts : ∀ tx ∈ blk.txs, tx.imports cfg.backend.inputID ≠ [] →
    conflicts vm.fetcher cfg.backend.inputID (tx.inputUTXOs cfg.backend.inputID) p.height p = .ok ()

namespace Inv

variable {cfg : Config} {U : Set Block} (hU : U.InjOn Block.id) {vm : VM} {added : Set (ID × ID)}
  (h : Inv cfg U vm added)
include h

/-- Changes to the requests of blocks that are not processing do not matter. -/
theorem of_roots {roots : GoMap ID AtomicState} (hnone : vm.processing.lookup blk.id = none)
    (hroots : ∀ id, id ≠ blk.id → roots.lookup id = vm.verifiedRoots.lookup id) :
    Inv cfg U { vm with verifiedRoots := roots } added where
  processing id blk' hblk' := by
    rcases h.processing id blk' hblk' with ⟨hid, hmem, st, hst, hops⟩
    refine ⟨hid, hmem, st, ?_, hops⟩
    have hne : id ≠ blk.id := by
      rintro rfl
      rw [hnone] at hblk'
      cases hblk'
    rw [hroots id hne]
    exact hst
  accepted := h.accepted
  height := h.height
  nodup l hl := by
    refine h.nodup l ?_
    induction hl with
    | accepted newer heq => exact .accepted newer heq
    | processing hblk hparent _ ih => exact .processing hblk hparent ih
  spent := h.spent
  unspent blk' hr := by
    refine h.unspent blk' ?_
    induction hr with
    | child hblk hparent => exact .child hblk hparent
    | step hblk hparent _ ih => exact .step hblk hparent ih
  added := h.added

include hU in
/-- What is known about a block that is about to be inserted on top of a connected state. -/
theorem fresh (hboot : cfg.backend.bootstrapped = true) (hconn : vm.Connected) (hblk : blk ∈ U)
    (hid : ∀ tx ∈ blk.txs, Set.InjOn cfg.backend.inputID tx.namedUTXOs)
    (hparent : (vm.processing.lookup blk.parentID).isSome ∨ blk.parentID = vm.lastAccepted.id)
    (hnone : vm.processing.lookup blk.id = none) (htxs : vm.verifyTxs cfg blk = .ok ()) :
    ∃ p, Fresh cfg U vm blk p := by
  -- the parent `p` is rooted or the last accepted block
  have hp : ∃ p, p.id = blk.parentID ∧ (vm.Rooted p ∨ p = vm.lastAccepted) := by
    rcases hparent with hsome | heq
    · rcases Option.isSome_iff_exists.mp hsome with ⟨p, hlook⟩
      have hpid := (h.processing _ p hlook).1
      rw [← hpid] at hlook
      exact ⟨p, hpid, .inl (h.rooted_of_connected hconn hlook)⟩
    · exact ⟨_, heq.symm, .inr rfl⟩
  rcases hp with ⟨p, hpid, hp⟩
  have hknown : vm.processing.lookup p.id = some p ∨ p ∈ vm.acceptedChain := by
    rcases hp with hr | rfl
    · exact .inl hr.processing
    · exact .inr List.mem_cons_self
  unfold verifyTxs at htxs
  rw [← hpid, h.getExtendedBlock hU hknown] at htxs
  rcases bind_ok htxs with ⟨_, hheight, htxs⟩
  have hheight := ensure_ok hheight
  have hverified : TxsVerified { cfg.backend with rules := blk.rules } vm p blk.txs :=
    (verifyTxsFrom_ok { cfg.backend with rules := blk.rules } hboot hid htxs).1
  have habove : vm.lastAccepted.height < blk.height := by
    rcases hp with hr | rfl
    · have := h.rooted_height hr
      omega
    · omega
  have hnew : ∀ q ∈ vm.acceptedChain, q.id ≠ blk.id := by
    intro q hq heq
    have := (h.accepted q hq).2.1
    rw [hU (h.accepted q hq).1 hblk heq] at this
    omega
  refine ⟨p, hblk, hnone, hnew, ?_, hpid, hp, hheight, hverified.nodup, hverified.present,
    hverified.conflicts⟩
  intro id q hq heq
  rcases hconn id q hq with hla | hsome
  · exact hnew _ List.mem_cons_self (hla.symm.trans heq)
  · rw [heq, hnone] at hsome
    cases hsome

end Inv

theorem lookup_insert_cases {m : GoMap ID Block} {q : Block}
    (h : (m.insert blk.id blk).lookup q.id = some q) :
    q = blk ∨ q.id ≠ blk.id ∧ m.lookup q.id = some q := by
  by_cases hqb : q.id = blk.id
  · rw [hqb, AList.lookup_insert] at h
    exact .inl (Option.some.inj h).symm
  · rw [AList.lookup_insert_ne hqb] at h
    exact .inr ⟨hqb, h⟩

namespace Fresh

variable {cfg : Config} {U : Set Block} (hU : U.InjOn Block.id) {vm : VM} {added : Set (ID × ID)}
  (h : Inv cfg U vm added) {blk p : Block} (hf : Fresh cfg U vm blk p)
include hf

theorem known : vm.processing.lookup p.id = some p ∨ p ∈ vm.acceptedChain := by
  rcases hf.parent_rooted with hr | rfl
  · exact .inl hr.processing
  · exact .inr List.mem_cons_self

/-- The block is not its own parent. -/
theorem parent_ne : blk.parentID ≠ blk.id := by
  rw [← hf.parent]
  rcases hf.parent_rooted with hr | rfl
  · intro heq
    have := hr.processing
    rw [heq, hf.absent] at this
    cases this
  · exact hf.unaccepted _ List.mem_cons_self

variable {roots : GoMap ID AtomicState}

/-- The chains after the insertion. -/
theorem chain {l : List Block}
    (hl : Chain { vm with processing := vm.processing.insert blk.id blk, verifiedRoots := roots } l) :
    vm.Chain l ∨ ∃ p' l', l = blk :: p' :: l' ∧ blk.parentID = p'.id ∧ vm.Chain (p' :: l') := by
  induction hl with
  | accepted newer heq => exact .inl (.accepted newer heq)
  | @processing q p' l hq hparent _ ih =>
    rcases lookup_insert_cases hq with rfl | ⟨-, hq⟩
    · rcases ih with hold | ⟨_, _, heq, -, -⟩
      · exact .inr ⟨p', l, rfl, hparent, hold⟩
      · cases heq
        exact absurd hparent hf.parent_ne
    · rcases ih with hold | ⟨_, _, heq, -, -⟩
      · exact .inl (.processing hq hparent hold)
      · cases heq
        exact absurd hparent (hf.childless _ q hq)

/-- The rooted blocks after the insertion. -/
theorem rooted {q : Block}
    (hr : Rooted { vm with processing := vm.processing.insert blk.id blk, verifiedRoots := roots } q) :
    q = blk ∨ vm.Rooted q := by
  induction hr with
  | child hq hparent =>
    rcases lookup_insert_cases hq with rfl | ⟨-, hq⟩
    · exact .inl rfl
    · exact .inr (.child hq hparent)
  | step hq hparent _ ih =>
    rcases lookup_insert_cases hq with rfl | ⟨-, hold⟩
    · exact .inl rfl
    · rcases ih with rfl | hr
      · exact absurd hparent (hf.childless _ _ hold)
      · exact .inr (.step hold hparent hr)

include hU h

/-- What the new block imports is not imported below it. -/
theorem disjoint {l : List Block} (hl : vm.Chain (p :: l)) {x : ID × ID}
    (hx : x ∈ blk.imports cfg.backend.inputID) :
    x ∉ (p :: l).flatMap (Block.imports cfg.backend.inputID) := by
  intro hx'
  rcases List.mem_flatMap.mp hx' with ⟨q, hq, hxq⟩
  rcases List.mem_flatMap.mp hx with ⟨tx, htx, hxtx⟩
  rcases List.mem_flatMap.mp hxq with ⟨tx', htx', hxtx'⟩
  -- a processing ancestor was compared, an accepted one has removed the UTXO
  rcases Inv.chain_mem hl q hq with hlook | hacc
  · have hok := hf.conflicts tx htx (List.ne_nil_of_mem hxtx)
    refine h.conflicts_ok hU hf.parent_rooted hl hok q hq hlook tx' htx' ?_
    exact ⟨x.2, Tx.mem_inputUTXOs_of_imports hxtx, Tx.mem_inputUTXOs_of_imports hxtx'⟩
  · exact (h.spent q hacc x hxq).1 (hf.present x hx)

/-- A block is inserted on top of a connected state. -/
theorem insert {ops : GoMap ID Requests} (hops : mergeAtomicOps cfg blk.txs = .ok ops) :
    Inv cfg U { vm with
      processing := vm.processing.insert blk.id blk
      verifiedRoots := vm.verifiedRoots.insert blk.id ⟨blk.id, blk.height, blk.txs, ops⟩ } added where
  processing id q hq := by
    by_cases hid : id = blk.id
    · subst hid
      rw [AList.lookup_insert] at hq
      cases hq
      exact ⟨rfl, hf.mem, _, AList.lookup_insert _, hops⟩
    · rw [AList.lookup_insert_ne hid] at hq
      rw [AList.lookup_insert_ne hid]
      exact h.processing id q hq
  accepted q hq := by
    rw [AList.lookup_insert_ne (hf.unaccepted q hq)]
    exact h.accepted q hq
  height id q p' hq hp' hparent := by
    by_cases hid : id = blk.id
    · subst hid
      rw [AList.lookup_insert] at hq
      cases hq
      have hne : p'.id ≠ blk.id := fun heq => hf.parent_ne (hparent.trans heq)
      rw [AList.lookup_insert_ne hne] at hp'
      have heq : p' = p :=
        hU (h.mem_of_known hp') (h.mem_of_known hf.known) (hparent.symm.trans hf.parent.symm)
      rw [heq]
      exact hf.height
    · rw [AList.lookup_insert_ne hid] at hq
      have hne : p'.id ≠ blk.id := fun heq => hf.childless id q hq (hparent.trans heq)
      rw [AList.lookup_insert_ne hne] at hp'
      exact h.height id q p' hq hp' hparent
  nodup l hl := by
    rcases hf.chain hl with hold | ⟨p', l', rfl, hparent, hold⟩
    · exact h.nodup l hold
    · have heq : p' = p := hU (h.mem_of_known (Inv.chain_known hold)) (h.mem_of_known hf.known)
        (hparent.symm.trans hf.parent.symm)
      subst heq
      rw [List.flatMap_cons, List.nodup_append']
      exact ⟨hf.nodup, h.nodup _ hold, fun x hx hx' => hf.disjoint hU h hold hx hx'⟩
  spent := h.spent
  unspent q hr := by
    rcases hf.rooted hr with rfl | hr
    · exact hf.present
    · exact h.unspent q hr
  added := h.added

end Fresh

end VM

end Titan.Atomic
