import Titan.Atomic.DoubleSpend

/-!
# Titan.Atomic.BlockRuns — runs of verifications, acceptances and rejections

Accepting a block applies its requests: it removes from shared memory exactly the
UTXOs that the block imports, each of which is present. `VM.Inv` is kept by every
operation of an orderly run, in which the blocks that conflict with an accepted one
are rejected before the next block is verified or accepted, and peers add each
element once.
-/

namespace Titan.Atomic

open Lib
open PChain (ID Bytes GoMap)

/-! ## The requests of a block -/

/-- The removals that are requested from a chain. -/
def removesOf (ops : GoMap ID Requests) (c : ID) : List ID :=
  ((ops.lookup c).map (·.removeRequests)).getD []

/-- The imports from one chain. -/
def importsFrom (c : ID) (l : List (ID × ID)) : List ID := (l.filter (fun x => x.1 = c)).map (·.2)

theorem mem_importsFrom {c k : ID} {l : List (ID × ID)} : k ∈ importsFrom c l ↔ (c, k) ∈ l := by
  unfold importsFrom
  simp only [List.mem_map, List.mem_filter, decide_eq_true_eq]
  constructor
  · rintro ⟨⟨c', k'⟩, ⟨hmem, rfl⟩, rfl⟩
    exact hmem
  · exact fun hmem => ⟨(c, k), ⟨hmem, rfl⟩, rfl⟩

theorem nodup_importsFrom {c : ID} {l : List (ID × ID)} (h : l.Nodup) : (importsFrom c l).Nodup := by
  refine (h.filter _).map_on ?_
  rintro ⟨c₁, k₁⟩ h₁ ⟨c₂, k₂⟩ h₂ heq
  simp only [List.mem_filter, decide_eq_true_eq] at h₁ h₂ heq
  rw [h₁.2, h₂.2, heq]

theorem removesOf_merge (output : GoMap ID Requests) (chainID c : ID) (requests : Requests) :
    removesOf (mergeAtomicOpsToMap output chainID requests) c =
      removesOf output c ++ if c = chainID then requests.removeRequests else [] := by
  unfold removesOf mergeAtomicOpsToMap
  by_cases hc : c = chainID
  · subst hc
    split
    next request hreq => simp [hreq]
    next hnone => simp [hnone]
  · split
    next => simp [AList.lookup_insert_ne hc, hc]
    next => simp [AList.lookup_insert_ne hc, hc]

/-- The requests of a transaction remove what it imports. -/
theorem Tx.atomicOps_removes {tx : Tx} {codec : Codec} {inputID : UTXOID → ID}
    {addressBytes : CChain.Address → Bytes} {chainID : ID} {requests : Requests}
    (h : tx.atomicOps codec inputID addressBytes = .ok (chainID, requests)) (c : ID) :
    (if c = chainID then requests.removeRequests else []) = importsFrom c (tx.imports inputID) := by
  unfold Tx.atomicOps at h
  unfold Tx.imports importsFrom
  split at h
  next utx hutx =>
    cases h
    simp only [hutx]
    by_cases hc : c = utx.sourceChain
    · subst hc
      rw [if_pos rfl, List.filter_eq_self.mpr, List.map_map]
      · rfl
      · intro x hx
        rcases List.mem_map.mp hx with ⟨i, -, rfl⟩
        simp
    · rw [if_neg hc, List.filter_eq_nil_iff.mpr]
      · rfl
      · intro x hx
        rcases List.mem_map.mp hx with ⟨i, -, rfl⟩
        simpa using fun heq => hc heq.symm
  next utx hutx =>
    rcases bind_ok h with ⟨elems, -, h⟩
    cases h
    simp [hutx]

variable {cfg : Config}

theorem mergeOps_removes {txs : List Tx} {output ops : GoMap ID Requests}
    (h : mergeOps cfg txs output = .ok ops) (c : ID) :
    removesOf ops c =
      removesOf output c ++ importsFrom c (txs.flatMap (Tx.imports cfg.backend.inputID)) := by
  induction txs generalizing output with
  | nil =>
    cases h
    simp [importsFrom]
  | cons tx rest ih =>
    rcases bind_ok h with ⟨⟨chainID, requests⟩, hops, h⟩
    rw [ih h, removesOf_merge, Tx.atomicOps_removes hops, List.append_assoc]
    simp [importsFrom]

variable {blk : Block}

/-- The requests of a block remove what it imports, in some order. -/
theorem mergeAtomicOps_removes {ops : GoMap ID Requests} (h : mergeAtomicOps cfg blk.txs = .ok ops)
    (c : ID) : (removesOf ops c).Perm (importsFrom c (blk.imports cfg.backend.inputID)) := by
  rw [mergeOps_removes h c]
  have hsort := List.mergeSort_perm blk.txs (fun a b => decide (a.id ≤ b.id))
  exact ((hsort.flatMap_right (Tx.imports cfg.backend.inputID)).filter _).map _

theorem lookup_erase_cases {m : GoMap ID Block} {key id : ID} {q : Block}
    (h : (m.erase key).lookup id = some q) : id ≠ key ∧ m.lookup id = some q := by
  by_cases hid : id = key
  · rw [hid, AList.lookup_erase] at h
    cases h
  · rw [AList.lookup_erase_ne hid] at h
    exact ⟨hid, h⟩

namespace VM.Inv

variable {cfg : Config} {U : Set Block} {vm : VM} {added : Set (ID × ID)}
  (h : VM.Inv cfg U vm added)
include h

/-! ## Acceptance -/

/-- When a child of the last accepted block is accepted, every removal it requests meets an
element that is present. -/
theorem removesPresent {st : AtomicState} (hblk : vm.processing.lookup blk.id = some blk)
    (hparent : blk.parentID = vm.lastAccepted.id) (hst : vm.verifiedRoots.lookup blk.id = some st)
    (c : ID) (req : Requests) (hreq : st.atomicOps.lookup c = some req) :
    (vm.sharedMemory.inbound c).RemovesPresent req.removeRequests := by
  rcases h.processing _ blk hblk with ⟨-, -, st', hst', hops⟩
  rw [hst] at hst'
  cases hst'
  have hperm := mergeAtomicOps_removes hops c
  have hreq' : removesOf st.atomicOps c = req.removeRequests := by
    unfold removesOf
    rw [hreq]
    rfl
  rw [hreq'] at hperm
  have hchain : vm.Chain (blk :: vm.acceptedChain) := .processing hblk hparent (.accepted [] rfl)
  have hnodup := h.nodup _ hchain
  rw [List.flatMap_cons, List.nodup_append'] at hnodup
  refine ValueDB.removesPresent_of_nodup (hperm.nodup_iff.mpr (nodup_importsFrom hnodup.1)) ?_
  intro k hk
  exact h.unspent blk (.child hblk hparent) (c, k) (mem_importsFrom.mp (hperm.mem_iff.mp hk))

theorem accept {order : List ID} {vm' : VM} (hblk : vm.processing.lookup blk.id = some blk)
    (hparent : blk.parentID = vm.lastAccepted.id)
    (horder : ∀ st, vm.verifiedRoots.lookup blk.id = some st → order.Perm st.atomicOps.keys)
    (hok : vm.accept blk order = .ok vm') : VM.Inv cfg U vm' added := by
  rcases h.processing _ blk hblk with ⟨-, hmem, st, hst, hops⟩
  unfold VM.accept at hok
  rw [hst] at hok
  rcases bind_ok hok with ⟨sm', happly, hok⟩
  cases hok
  have horder := horder st hst
  -- shared memory loses exactly what the block imports
  have hpresent : ∀ c k, (sm'.inbound c).Present k ↔
      (vm.sharedMemory.inbound c).Present k ∧ (c, k) ∉ blk.imports cfg.backend.inputID := by
    intro c k
    have happlied := SharedMemory.apply_present (horder.nodup_iff.mpr st.atomicOps.keys_nodup) happly
      (fun c _ req hreq => h.removesPresent hblk hparent hst c req hreq) c k
    rw [happlied, ← mem_importsFrom, ← (mergeAtomicOps_removes hops c).mem_iff]
    refine and_congr_right (fun _ => not_congr ?_)
    rw [horder.mem_iff, ← AList.mem_keys, ← AList.lookup_isSome]
    unfold removesOf
    rcases st.atomicOps.lookup c with _ | req <;> simp
  have hheight := h.height _ blk vm.lastAccepted hblk (.inr List.mem_cons_self) hparent
  -- every chain of the new state was one of the old state
  have hchain : ∀ l, VM.Chain ⟨blk, vm.lastAccepted :: vm.older, vm.processing.erase blk.id,
      vm.verifiedRoots.erase blk.id, sm'⟩ l → vm.Chain l := by
    intro l hl
    induction hl with
    | accepted newer heq =>
      cases newer with
      | nil =>
        cases heq
        exact .processing hblk hparent (.accepted [] rfl)
      | cons b newer =>
        refine .accepted newer ?_
        exact (List.cons.inj heq).2
    | processing hq hp _ ih => exact .processing (lookup_erase_cases hq).2 hp ih
  refine ⟨?_, ?_, ?_, fun l hl => h.nodup l (hchain l hl), ?_, ?_, ?_⟩
  · intro id q hq
    rcases lookup_erase_cases hq with ⟨hid, hq⟩
    rcases h.processing id q hq with ⟨hqid, hqmem, st', hst', hops'⟩
    exact ⟨hqid, hqmem, st', by rw [← hst']; exact AList.lookup_erase_ne hid, hops'⟩
  · intro q hq
    rcases List.mem_cons.mp hq with rfl | hq
    · exact ⟨hmem, le_refl _, AList.lookup_erase _ _⟩
    · rcases h.accepted q hq with ⟨hqmem, hqheight, hqnone⟩
      have hne : q.id ≠ blk.id := by
        intro heq
        rw [heq, hblk] at hqnone
        cases hqnone
      refine ⟨hqmem, ?_, by rw [← hqnone]; exact AList.lookup_erase_ne hne⟩
      show q.height ≤ blk.height
      omega
  · intro id q p hq hp hqp
    refine h.height id q p (lookup_erase_cases hq).2 ?_ hqp
    rcases hp with hp | hp
    · exact .inl (lookup_erase_cases hp).2
    · rcases List.mem_cons.mp hp with rfl | hp
      · exact .inl hblk
      · exact .inr hp
  · intro q hq x hx
    rcases List.mem_cons.mp hq with rfl | hq
    · exact ⟨fun hp => ((hpresent x.1 x.2).mp hp).2 hx,
        h.added x (h.unspent q (.child hblk hparent) x hx)⟩
    · rcases h.spent q hq x hx with ⟨hnot, hadded⟩
      exact ⟨fun hp => hnot ((hpresent x.1 x.2).mp hp).1, hadded⟩
  · intro q hr x hx
    -- `q` descends from the block, so it imports nothing of what the block imports
    have hdesc : ∀ {q : Block}, VM.Rooted ⟨blk, vm.lastAccepted :: vm.older,
        vm.processing.erase blk.id, vm.verifiedRoots.erase blk.id, sm'⟩ q →
        vm.Rooted q ∧ ∃ l, vm.Chain (q :: l) ∧ blk ∈ l := by
      intro q hr
      induction hr with
      | child hq hp =>
        exact ⟨.step (lookup_erase_cases hq).2 hp (.child hblk hparent), _,
          .processing (lookup_erase_cases hq).2 hp (.processing hblk hparent (.accepted [] rfl)),
          List.mem_cons_self⟩
      | step hq hp _ ih =>
        rcases ih with ⟨hr, l, hl, hmem⟩
        exact ⟨.step (lookup_erase_cases hq).2 hp hr, _, .processing (lookup_erase_cases hq).2 hp hl,
          List.mem_cons_of_mem _ hmem⟩
    rcases hdesc hr with ⟨hold, l, hl, hmem⟩
    have hnodup := h.nodup _ hl
    rw [List.flatMap_cons, List.nodup_append'] at hnodup
    refine (hpresent x.1 x.2).mpr ⟨h.unspent q hold x hx, fun hx' => ?_⟩
    exact hnodup.2.2 hx (List.mem_flatMap.mpr ⟨blk, hmem, hx'⟩)
  · exact fun x hx => h.added x ((hpresent x.1 x.2).mp hx).1

/-! ## Rejection and peers -/

theorem reject {vm' : VM} (hok : vm.reject blk = .ok vm') : VM.Inv cfg U vm' added := by
  unfold VM.reject at hok
  split at hok
  next => cases hok
  next =>
    cases hok
    refine ⟨?_, ?_, ?_, ?_, h.spent, ?_, h.added⟩
    · intro id q hq
      rcases lookup_erase_cases hq with ⟨hid, hq⟩
      rcases h.processing id q hq with ⟨hqid, hqmem, st, hst, hops⟩
      exact ⟨hqid, hqmem, st, by rw [← hst]; exact AList.lookup_erase_ne hid, hops⟩
    · intro q hq
      rcases h.accepted q hq with ⟨hqmem, hqheight, hqnone⟩
      refine ⟨hqmem, hqheight, ?_⟩
      rcases hsome : (vm.processing.erase blk.id).lookup q.id with _ | q'
      · rfl
      · rw [(lookup_erase_cases hsome).2] at hqnone
        cases hqnone
    · intro id q p hq hp hqp
      exact h.height id q p (lookup_erase_cases hq).2 (hp.imp_left (fun hp => (lookup_erase_cases hp).2)) hqp
    · intro l hl
      refine h.nodup l ?_
      induction hl with
      | accepted newer heq => exact .accepted newer heq
      | processing hq hp _ ih => exact .processing (lookup_erase_cases hq).2 hp ih
    · intro q hr
      refine h.unspent q ?_
      induction hr with
      | child hq hp => exact .child (lookup_erase_cases hq).2 hp
      | step hq hp _ ih => exact .step (lookup_erase_cases hq).2 hp ih

/-- A peer adds an element that was never there. -/
theorem peerPut {c : ID} {e : Element} {sm' : SharedMemory} (hnew : (c, e.key) ∉ added)
    (hok : vm.sharedMemory.peerPut c e = .ok sm') :
    VM.Inv cfg U { vm with sharedMemory := sm' } (insert (c, e.key) added) := by
  rcases bind_ok hok with ⟨db, hset, hok⟩
  cases hok
  have hset := ValueDB.present_setValue hset
  -- nothing is taken away, and only the new element is added
  have hkeep : ∀ c' k, (vm.sharedMemory.inbound c').Present k →
      (Function.update vm.sharedMemory.inbound c db c').Present k := by
    intro c' k hp
    by_cases hc : c' = c
    · subst hc
      rw [Function.update_self]
      exact (hset k).1 hp
    · rw [Function.update_of_ne hc]
      exact hp
  have honly : ∀ c' k, (Function.update vm.sharedMemory.inbound c db c').Present k →
      (vm.sharedMemory.inbound c').Present k ∨ (c', k) = (c, e.key) := by
    intro c' k hp
    by_cases hc : c' = c
    · subst hc
      rw [Function.update_self] at hp
      by_cases hk : k = e.key
      · exact .inr (by rw [hk])
      · exact .inl ((hset k).2 hk hp)
    · rw [Function.update_of_ne hc] at hp
      exact .inl hp
  have hchain : ∀ {sm : SharedMemory} {l : List Block},
      VM.Chain { vm with sharedMemory := sm } l → vm.Chain l := by
    intro sm l hl
    induction hl with
    | accepted newer heq => exact .accepted newer heq
    | processing hq hp _ ih => exact .processing hq hp ih
  have hrooted : ∀ {sm : SharedMemory} {q : Block},
      VM.Rooted { vm with sharedMemory := sm } q → vm.Rooted q := by
    intro sm q hr
    induction hr with
    | child hq hp => exact .child hq hp
    | step hq hp _ ih => exact .step hq hp ih
  refine ⟨h.processing, h.accepted, h.height, fun l hl => h.nodup l (hchain hl), ?_, ?_, ?_⟩
  · intro q hq x hx
    rcases h.spent q hq x hx with ⟨hnot, hadded⟩
    refine ⟨fun hp => ?_, Set.mem_insert_of_mem _ hadded⟩
    rcases honly x.1 x.2 hp with hp | heq
    · exact hnot hp
    · exact hnew (heq ▸ hadded)
  · exact fun q hr x hx => hkeep _ _ (h.unspent q (hrooted hr) x hx)
  · intro x hp
    rcases honly x.1 x.2 hp with hp | heq
    · exact Set.mem_insert_of_mem _ (h.added x hp)
    · exact .inl heq

end VM.Inv

/-! ## Runs -/

inductive BlockOp
  /-- Verify a block; `rest` is the outcome of the checks outside the model. -/
  | verify (blk : Block) (rest : Except TxError Unit)
  /-- Accept a block; `order` is the order of the peer chains. -/
  | accept (blk : Block) (order : List ID)
  | reject (blk : Block)
  | peerPut (peerChainID : ID) (e : Element)

namespace BlockOp

/-- An operation that fails leaves the VM as it was. -/
def run (cfg : Config) (vm : VM) : BlockOp → VM
  | verify blk rest => (vm.verify cfg blk rest).1
  | accept blk order => (vm.accept blk order).toOption.getD vm
  | reject blk => (vm.reject blk).toOption.getD vm
  | peerPut peerChainID e =>
    match vm.sharedMemory.peerPut peerChainID e with
    | .ok sm => { vm with sharedMemory := sm }
    | .error _ => vm

/-- The elements that peers have added. -/
def adds (added : Set (ID × ID)) : BlockOp → Set (ID × ID)
  | peerPut peerChainID e => insert (peerChainID, e.key) added
  | _ => added

/-- A block is verified on a parent that is processing or last accepted, and a child of the
last accepted block is accepted. -/
def Admissible (U : Set Block) (vm : VM) : BlockOp → Prop
  | verify blk _ => blk ∈ U ∧
      ((vm.processing.lookup blk.parentID).isSome ∨ blk.parentID = vm.lastAccepted.id)
  | accept blk order => vm.processing.lookup blk.id = some blk ∧ blk.parentID = vm.lastAccepted.id ∧
      ∀ st, vm.verifiedRoots.lookup blk.id = some st → order.Perm st.atomicOps.keys
  | reject blk => vm.processing.lookup blk.id = some blk
  | peerPut _ _ => True

/-- No rejection is due when a block is verified or accepted, and peers add an element once. -/
def Orderly (vm : VM) (added : Set (ID × ID)) : BlockOp → Prop
  | verify _ _ | accept _ _ => vm.Connected
  | reject _ => True
  | peerPut peerChainID e => (peerChainID, e.key) ∉ added

end BlockOp

/-- The VM after its start on the block `g`. -/
def VM.start (g : Block) (sm : SharedMemory) : VM := ⟨g, [], ∅, ∅, sm⟩

/-- The states reached from a start on a block without imports, by operations that satisfy
`ok`, with the elements that were ever in shared memory. -/
inductive VM.Reachable (cfg : Config) (U : Set Block) (ok : VM → Set (ID × ID) → BlockOp → Prop) :
    VM → Set (ID × ID) → Prop
  | start {g : Block} {sm : SharedMemory} : g ∈ U → g.imports cfg.backend.inputID = [] →
      Reachable cfg U ok (VM.start g sm) {x | (sm.inbound x.1).Present x.2}
  | step {vm : VM} {added : Set (ID × ID)} {op : BlockOp} : Reachable cfg U ok vm added →
      op.Admissible U vm → ok vm added op → Reachable cfg U ok (op.run cfg vm) (op.adds added)

namespace VM.Inv

theorem start {U : Set Block} {g : Block} {sm : SharedMemory} (hg : g ∈ U)
    (hempty : g.imports cfg.backend.inputID = []) :
    VM.Inv cfg U (VM.start g sm) {x | (sm.inbound x.1).Present x.2} := by
  have hlook : ∀ (id : ID) (q : Block), (VM.start g sm).processing.lookup id ≠ some q := by
    intro id q
    simp [VM.start]
  refine ⟨fun id q hq => absurd hq (hlook id q), ?_, fun id q _ hq => absurd hq (hlook id q), ?_, ?_, ?_,
    fun x hx => hx⟩
  · intro q hq
    rw [List.mem_singleton.mp hq]
    exact ⟨hg, le_refl _, by simp [VM.start]⟩
  · intro l hl
    cases hl with
    | accepted newer heq =>
      have hsub : ∀ q ∈ l, q = g := by
        intro q hq
        exact List.mem_singleton.mp (show q ∈ (VM.start g sm).acceptedChain from
          heq ▸ List.mem_append_right _ hq)
      rw [List.flatMap_eq_nil_iff.mpr (fun q hq => by rw [hsub q hq, hempty])]
      exact List.nodup_nil
    | processing hq => exact absurd hq (hlook _ _)
  · intro q hq x hx
    have hq : q = g := List.mem_singleton.mp hq
    rw [hq, hempty] at hx
    cases hx
  · exact fun q hr => absurd hr.processing (hlook _ _)

end VM.Inv

section Orderly

variable {U : Set Block} (hU : U.InjOn Block.id) (hboot : cfg.backend.bootstrapped = true)
  (hid : ∀ blk ∈ U, ∀ tx ∈ blk.txs, Set.InjOn cfg.backend.inputID tx.namedUTXOs) {vm : VM} {added : Set (ID × ID)}

include hU hboot hid

theorem VM.Inv.step (h : VM.Inv cfg U vm added) (op : BlockOp) (hop : op.Admissible U vm)
    (horderly : op.Orderly vm added) : VM.Inv cfg U (op.run cfg vm) (op.adds added) := by
  cases op with
  | verify blk rest =>
    show VM.Inv cfg U (vm.verify cfg blk rest).1 added
    rcases VM.verify_cases cfg vm blk rest with heq | ⟨hnone, roots, heq, hroots⟩ |
      ⟨hnone, htxs, ops, hops, heq⟩
    · rw [heq]
      exact h
    · rw [heq]
      exact h.of_roots hnone hroots
    · rw [heq]
      rcases h.fresh hU hboot horderly hop.1 (hid blk hop.1) hop.2 hnone htxs with ⟨p, hf⟩
      exact hf.insert hU h hops
  | accept blk order =>
    show VM.Inv cfg U ((vm.accept blk order).toOption.getD vm) added
    rcases hok : vm.accept blk order with e | vm'
    · exact h
    · exact h.accept hop.1 hop.2.1 hop.2.2 hok
  | reject blk =>
    show VM.Inv cfg U ((vm.reject blk).toOption.getD vm) added
    rcases hok : vm.reject blk with e | vm'
    · exact h
    · exact h.reject hok
  | peerPut c e =>
    unfold BlockOp.run BlockOp.adds
    dsimp only
    split
    next hok => exact h.peerPut horderly hok
    next => exact { h with
      spent := fun q hq x hx => (h.spent q hq x hx).imp_right (Set.mem_insert_of_mem _)
      added := fun x hx => Set.mem_insert_of_mem _ (h.added x hx) }

theorem VM.Reachable.inv (h : VM.Reachable cfg U BlockOp.Orderly vm added) : VM.Inv cfg U vm added := by
  induction h with
  | start hg hempty => exact .start hg hempty
  | step _ hop horderly ih => exact ih.step hU hboot hid _ hop horderly

end Orderly

/-- In every orderly run on a bootstrapped node no UTXO is imported twice on a chain of
verified and accepted blocks, and accepting a block removes elements that are present. -/
theorem imported_utxos_spent_once {cfg : Config} {U : Set Block} (hU : U.InjOn Block.id)
    (hboot : cfg.backend.bootstrapped = true)
    (hid : ∀ blk ∈ U, ∀ tx ∈ blk.txs, Set.InjOn cfg.backend.inputID tx.namedUTXOs) {vm : VM}
    {added : Set (ID × ID)} (h : VM.Reachable cfg U BlockOp.Orderly vm added) :
    (∀ l, vm.Chain l → (l.flatMap (Block.imports cfg.backend.inputID)).Nodup) ∧
    ∀ blk st, vm.processing.lookup blk.id = some blk → blk.parentID = vm.lastAccepted.id →
      vm.verifiedRoots.lookup blk.id = some st → ∀ c req, st.atomicOps.lookup c = some req →
        (vm.sharedMemory.inbound c).RemovesPresent req.removeRequests := by
  have hinv := h.inv hU hboot hid
  exact ⟨hinv.nodup, fun blk st hblk hparent hst => hinv.removesPresent hblk hparent hst⟩

/-! ## Runs of the small network -/

def sampleConfig : Config := ⟨sampleBackend, fun _ => []⟩

/-- A block with the atomic transactions `txs`. -/
def sampleBlock (id parentID : ID) (height : ℕ) (txs : List Tx) : Block :=
  ⟨id, parentID, height, some 1, sampleBackend.rules, txs⟩

/-- The blocks of the runs below, told apart by their IDs. -/
def sampleBlocks : Set Block :=
  {genesis, sampleBlock 2 1 1 [], sampleBlock 3 1 1 [importBoth 1], sampleBlock 4 3 2 [importBoth 2]}

theorem sampleBlocks_injOn : sampleBlocks.InjOn Block.id := by
  rintro _ (rfl | rfl | rfl | rfl) _ (rfl | rfl | rfl | rfl) hid
  all_goals first | rfl | exact absurd hid (by decide +kernel)

theorem sampleBlocks_named : ∀ blk ∈ sampleBlocks, ∀ tx ∈ blk.txs,
    Set.InjOn sampleConfig.backend.inputID tx.namedUTXOs := by
  rintro _ (rfl | rfl | rfl | rfl) tx htx
  · cases htx
  · cases htx
  · rw [List.mem_singleton.mp htx]
    exact importBoth_named 1
  · rw [List.mem_singleton.mp htx]
    exact importBoth_named 2

/-- The state after some operations on shared memory with two UTXOs. -/
def sampleState (ops : List BlockOp) : VM :=
  ops.foldl (BlockOp.run sampleConfig) (VM.start genesis sampleMemory)

variable {ok : VM → Set (ID × ID) → BlockOp → Prop}

theorem sampleState_concat {added : Set (ID × ID)}
    (ops : List BlockOp) (op : BlockOp)
    (h : VM.Reachable sampleConfig sampleBlocks ok (sampleState ops) added)
    (hop : op.Admissible sampleBlocks (sampleState ops)) (hok : ok (sampleState ops) added op) :
    VM.Reachable sampleConfig sampleBlocks ok (sampleState (ops ++ [op])) (op.adds added) := by
  unfold sampleState at *
  rw [List.foldl_append]
  exact .step h hop hok

theorem sampleState_start :
    VM.Reachable sampleConfig sampleBlocks ok (sampleState [])
      {x | (sampleMemory.inbound x.1).Present x.2} :=
  .start (.inl rfl) rfl

/-- Block 3 imports both UTXOs: it is processing, no chain imports a UTXO twice, and its
acceptance removes UTXOs that are present. -/
theorem imported_utxos_spent_once_verified :
    let vm := sampleState [.verify (sampleBlock 3 1 1 [importBoth 1]) (.ok ())]
    vm.processing.lookup 3 = some (sampleBlock 3 1 1 [importBoth 1]) ∧
    (∀ l, vm.Chain l → (l.flatMap (Block.imports sampleBackend.inputID)).Nodup) ∧
    ∀ blk st, vm.processing.lookup blk.id = some blk → blk.parentID = vm.lastAccepted.id →
      vm.verifiedRoots.lookup blk.id = some st → ∀ c req, st.atomicOps.lookup c = some req →
        (vm.sharedMemory.inbound c).RemovesPresent req.removeRequests := by
  refine ⟨by decide +kernel, imported_utxos_spent_once sampleBlocks_injOn rfl sampleBlocks_named
    (sampleState_concat [] _ sampleState_start ⟨.inr (.inr (.inl rfl)), .inr rfl⟩ ?_)⟩
  intro id blk hblk
  cases hblk

/-- `Connected` by inspection of the blocks that are processing. -/
def VM.connected (vm : VM) : Bool :=
  vm.processing.keys.all (fun id => (vm.processing.lookup id).all (fun blk =>
    decide (blk.parentID = vm.lastAccepted.id) || (vm.processing.lookup blk.parentID).isSome))

theorem VM.Connected.of_connected {vm : VM} (h : vm.connected = true) : vm.Connected := by
  intro id blk hblk
  have hkey : id ∈ vm.processing.keys := by
    rw [← AList.mem_keys, ← AList.lookup_isSome, hblk]
    rfl
  have := List.all_eq_true.mp h id hkey
  simpa [hblk] using this

/-- The two runs below end with block 4, which imports the UTXOs that block 3 imports. -/
def lateRejection : List BlockOp :=
  [.verify (sampleBlock 2 1 1 []) (.ok ()), .verify (sampleBlock 3 1 1 [importBoth 1]) (.ok ()),
   .accept (sampleBlock 2 1 1 []) [], .verify (sampleBlock 4 3 2 [importBoth 2]) (.ok ())]

def addedTwice : List BlockOp :=
  [.verify (sampleBlock 3 1 1 [importBoth 1]) (.ok ()), .accept (sampleBlock 3 1 1 [importBoth 1]) [2],
   .peerPut 2 ⟨10, [7, 3], []⟩, .peerPut 2 ⟨11, [9, 2], []⟩,
   .verify (sampleBlock 4 3 2 [importBoth 2]) (.ok ())]

/-- Peers add an element once; rejections may be late. -/
def BlockOp.AddsOnce (_ : VM) (added : Set (ID × ID)) : BlockOp → Prop
  | .peerPut peerChainID e => (peerChainID, e.key) ∉ added
  | _ => True

/-- No rejection is late; peers may add an element again. -/
def BlockOp.RejectsInTime (vm : VM) (_ : Set (ID × ID)) : BlockOp → Prop
  | .verify _ _ | .accept _ _ => vm.Connected
  | _ => True

theorem accept_order {vm : VM} {id : ID} {order : List ID}
    (h : (vm.verifiedRoots.lookup id).all (fun st => st.atomicOps.keys == order) = true) :
    ∀ st, vm.verifiedRoots.lookup id = some st → order.Perm st.atomicOps.keys := by
  intro st hst
  rw [hst] at h
  rw [show st.atomicOps.keys = order by simpa using h]

theorem lateRejection_reachable : ∃ added,
    VM.Reachable sampleConfig sampleBlocks BlockOp.AddsOnce (sampleState lateRejection) added := by
  have hsibling := sampleState_concat [] (.verify (sampleBlock 2 1 1 []) (.ok ()))
    sampleState_start ⟨.inr (.inl rfl), .inr (by decide +kernel)⟩
    (show BlockOp.AddsOnce _ _ _ from trivial)
  have himport := sampleState_concat _ (.verify (sampleBlock 3 1 1 [importBoth 1]) (.ok ())) hsibling
    ⟨.inr (.inr (.inl rfl)), .inr (by decide +kernel)⟩ trivial
  have haccept := sampleState_concat _ (.accept (sampleBlock 2 1 1 []) []) himport
    ⟨by decide +kernel, by decide +kernel, accept_order (by decide +kernel)⟩ trivial
  exact ⟨_, sampleState_concat _ (.verify (sampleBlock 4 3 2 [importBoth 2]) (.ok ())) haccept
    ⟨.inr (.inr (.inr rfl)), .inl (by decide +kernel)⟩ trivial⟩

theorem addedTwice_reachable : ∃ added,
    VM.Reachable sampleConfig sampleBlocks BlockOp.RejectsInTime (sampleState addedTwice) added := by
  have himport := sampleState_concat [] (.verify (sampleBlock 3 1 1 [importBoth 1]) (.ok ()))
    sampleState_start ⟨.inr (.inr (.inl rfl)), .inr (by decide +kernel)⟩
    (show BlockOp.RejectsInTime _ _ _ from .of_connected (by decide +kernel))
  have haccept := sampleState_concat _ (.accept (sampleBlock 3 1 1 [importBoth 1]) [2]) himport
    ⟨by decide +kernel, by decide +kernel, accept_order (by decide +kernel)⟩
    (.of_connected (by decide +kernel))
  have hfirst := sampleState_concat _ (.peerPut 2 ⟨10, [7, 3], []⟩) haccept trivial trivial
  have hsecond := sampleState_concat _ (.peerPut 2 ⟨11, [9, 2], []⟩) hfirst trivial trivial
  exact ⟨_, sampleState_concat _ (.verify (sampleBlock 4 3 2 [importBoth 2]) (.ok ())) hsecond
    ⟨.inr (.inr (.inr rfl)), .inr (by decide +kernel)⟩ (.of_connected (by decide +kernel))⟩

/-- What the conditions of an orderly run exclude. Block 2 is accepted while its sibling 3
is processing, and 4 is verified on top of 3 before 3 is rejected: the walk of `conflicts`
ends at the height of 2. Or 3 is accepted and a peer adds the same UTXOs again. -/
theorem imported_utxos_spent_twice :
    (∃ vm added l, VM.Reachable sampleConfig sampleBlocks BlockOp.AddsOnce vm added ∧
      vm.Chain l ∧ ¬ (l.flatMap (Block.imports sampleBackend.inputID)).Nodup) ∧
    ∃ vm added l, VM.Reachable sampleConfig sampleBlocks BlockOp.RejectsInTime vm added ∧
      vm.Chain l ∧ ¬ (l.flatMap (Block.imports sampleBackend.inputID)).Nodup := by
  constructor
  · rcases lateRejection_reachable with ⟨added, h⟩
    refine ⟨_, added, [sampleBlock 4 3 2 [importBoth 2], sampleBlock 3 1 1 [importBoth 1], genesis], h,
      .processing (by decide +kernel) rfl (.processing (by decide +kernel) rfl
        (.accepted [sampleBlock 2 1 1 []] (by decide +kernel))), by decide +kernel⟩
  · rcases addedTwice_reachable with ⟨added, h⟩
    exact ⟨_, added, [sampleBlock 4 3 2 [importBoth 2], sampleBlock 3 1 1 [importBoth 1], genesis], h,
      .processing (by decide +kernel) rfl (.accepted [] (by decide +kernel)), by decide +kernel⟩

end Titan.Atomic
