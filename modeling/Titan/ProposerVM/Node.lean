import Titan.ProposerVM.State

/-!
# Titan.ProposerVM.Node — accepting blocks, crashing and starting again

A node runs the proposer VM over an inner VM. Both accept the blocks of one chain: the
proposer VM commits first, and a crash can come between the two. At a start the inner VM may
have fallen back to an earlier accepted block, and a start may crash after each commit.
-/

namespace Titan.ProposerVM

/-- The accepted chain. From the fork on its inner blocks are wrapped. -/
structure Chain where
  forkHeight : ℕ
  inner : ℕ → InnerBlock
  outer : ℕ → Block
  forkHeight_pos : 0 < forkHeight
  height_inner : ∀ n, (inner n).height = n
  inner_outer : ∀ n, forkHeight ≤ n → (outer n).inner = inner n
  id_inj : ∀ n m, forkHeight ≤ n → n < 2 ^ 64 → forkHeight ≤ m → m < 2 ^ 64 →
    (outer n).id = (outer m).id → n = m
  /-- The parent of an option is a signed block. -/
  option_parent : ∀ n, forkHeight ≤ n → (outer n).timestamp = none →
    forkHeight < n ∧ (outer n).parentID = (outer (n - 1)).id ∧ (outer (n - 1)).timestamp.isSome

namespace Chain

variable (chain : Chain)

theorem height_outer {n : ℕ} (h : chain.forkHeight ≤ n) : (chain.outer n).height = n := by
  unfold Block.height
  rw [chain.inner_outer n h, chain.height_inner]

/-- The inner VM after it has accepted the blocks up to a height. -/
def innerVM (height : ℕ) : InnerVM where
  lastAccepted := chain.inner height
  getBlockIDAtHeight n := if n ≤ height then some (chain.inner n).id else none

end Chain

/-- The databases of a node and, while it runs, its VM. -/
structure Node where
  db : State
  innerHeight : ℕ
  /-- The height at which the VM was started. -/
  startHeight : ℕ
  vm : Option VM

inductive Event
  /-- The next block is accepted by both. -/
  | accept
  /-- The node crashes when only the proposer VM has accepted the next block. -/
  | crashInAccept
  | crash
  /-- The node starts with an inner VM at a height, or crashes after some of the commits. -/
  | start (numHistoricalBlocks innerHeight : ℕ) (crashAt : Option ℕ)
deriving DecidableEq, Repr

/-- A new node, which has accepted the genesis. -/
def Node.new : Node := ⟨⟨none, ∅, ∅, none⟩, 0, 0, none⟩

/-- What was committed last. -/
def VM.committed (vm : VM) : State := vm.commits.head?.getD vm.state

namespace Node

variable (chain : Chain) (node : Node)

/-- The height of the last accepted block. -/
def outerHeight : ℕ :=
  match node.db.lastAccepted with
  | none => node.innerHeight
  | some id => ((node.db.blocks.lookup id).map Block.height).getD node.innerHeight

def step : Event → Option Node
  | .accept =>
    match node.vm with
    | none => none
    | some vm =>
      let next := node.innerHeight + 1
      if 2 ^ 64 ≤ next then none
      else if next < chain.forkHeight then some { node with innerHeight := next }
      else
        let vm := vm.acceptPostForkBlock (chain.outer next)
        some { node with db := vm.committed, innerHeight := next, vm := some vm }
  | .crashInAccept =>
    match node.vm with
    | none => none
    | some vm =>
      let next := node.innerHeight + 1
      if 2 ^ 64 ≤ next then none
      else if next < chain.forkHeight then none
      else some { node with db := (vm.acceptPostForkBlock (chain.outer next)).committed, vm := none }
  | .crash => some { node with vm := none }
  | .start numHistoricalBlocks innerHeight crashAt =>
    match node.vm with
    | some _ => none
    | none =>
      let started := (VM.new numHistoricalBlocks node.db).initializeVM (chain.innerVM innerHeight)
      match crashAt with
      | some n =>
        (started.1.commits[n]?).map fun db => { node with db := db, innerHeight := innerHeight }
      | none =>
        match started.2 with
        | none => some ⟨started.1.committed, innerHeight, innerHeight, some started.1⟩
        | some _ => some { node with db := started.1.committed, innerHeight := innerHeight }

/-- The block at a height is in the index. -/
def Retains (db : State) (height : ℕ) : Prop := (db.heights.lookup height).isSome

instance (db : State) (height : ℕ) : Decidable (Retains db height) := inferInstanceAs (Decidable (_ = true))

/-- What is assumed of the inner VM at a start: it is not ahead, and its last accepted block is
retained if it is a wrapped one. -/
structure Restarts (numHistoricalBlocks innerHeight : ℕ) : Prop where
  numHistoricalBlocks_lt : numHistoricalBlocks < 2 ^ 64
  le : innerHeight ≤ node.outerHeight
  retained : chain.forkHeight ≤ innerHeight → Retains node.db innerHeight

instance (numHistoricalBlocks innerHeight : ℕ) : Decidable (node.Restarts chain numHistoricalBlocks innerHeight) :=
  decidable_of_iff (numHistoricalBlocks < 2 ^ 64 ∧ innerHeight ≤ node.outerHeight ∧
      (chain.forkHeight ≤ innerHeight → Retains node.db innerHeight))
    ⟨fun h => ⟨h.1, h.2.1, h.2.2⟩, fun h => ⟨h.1, h.2, h.3⟩⟩

/-- What a step needs beyond that. -/
def Careful : Event → Prop
  | .start numHistoricalBlocks innerHeight _ =>
    -- the parent of an option that becomes the last accepted block is still there
    (chain.forkHeight ≤ innerHeight → innerHeight < node.outerHeight →
      (chain.outer innerHeight).timestamp = none → Retains node.db (innerHeight - 1)) ∧
    -- before the fork nothing is pruned, or there is nothing to prune
    (innerHeight < chain.forkHeight → numHistoricalBlocks = 0 ∨ node.db.heights.keys = [])
  | .accept =>
    -- an option is accepted in the session in which its parent was
    chain.forkHeight ≤ node.innerHeight + 1 → (chain.outer (node.innerHeight + 1)).timestamp = none →
      node.startHeight < node.innerHeight
  | _ => True

instance : DecidablePred (node.Careful chain)
  | .start _ _ _ => inferInstanceAs (Decidable (_ ∧ _))
  | .accept => inferInstanceAs (Decidable (_ → _))
  | .crashInAccept => inferInstanceAs (Decidable True)
  | .crash => inferInstanceAs (Decidable True)

/-- A step that starts as assumed. -/
def Assumed : Event → Prop
  | .start numHistoricalBlocks innerHeight _ => node.Restarts chain numHistoricalBlocks innerHeight
  | _ => True

instance : DecidablePred (node.Assumed chain)
  | .start _ _ _ => inferInstanceAs (Decidable (node.Restarts _ _ _))
  | .accept => inferInstanceAs (Decidable True)
  | .crashInAccept => inferInstanceAs (Decidable True)
  | .crash => inferInstanceAs (Decidable True)

/-- A step that starts as assumed and is careful. -/
def Allowed (event : Event) : Prop := node.Assumed chain event ∧ node.Careful chain event

instance : DecidablePred (node.Allowed chain) := fun _ => inferInstanceAs (Decidable (_ ∧ _))

/-- The setting of `NumHistoricalBlocks` with which an event is handled. -/
def setting : Event → ℕ
  | .start numHistoricalBlocks _ _ => numHistoricalBlocks
  | _ => (node.vm.map VM.numHistoricalBlocks).getD 0

/-- A step with a property. -/
def Steps (P : Node → Event → Prop) (node node' : Node) : Prop :=
  ∃ event, P node event ∧ node.step chain event = some node'

/-- Steps with a property lead from one node to another. -/
abbrev Leads (P : Node → Event → Prop) : Node → Node → Prop := Relation.ReflTransGen (Steps chain P)

/-- The node that a list of events with a property leads to. -/
def run (P : Node → Event → Prop) [∀ node, DecidablePred (P node)] (node : Node) (events : List Event) : Option Node :=
  events.foldlM (fun node event => if P node event then node.step chain event else none) node

theorem leads_of_mem_run {P : Node → Event → Prop} [∀ node, DecidablePred (P node)] {node node' : Node}
    {events : List Event} (h : node' ∈ run chain P node events) : Leads chain P node node' := by
  induction events generalizing node with
  | nil =>
    cases h
    exact .refl
  | cons event events ih =>
    rcases Option.bind_eq_some_iff.mp h with ⟨next, hnext, hrest⟩
    by_cases hevent : P node event
    · have hstep : node.step chain event = some next := by simpa only [if_pos hevent] using hnext
      exact .head ⟨event, hevent, hstep⟩ (ih hrest)
    · simp only [if_neg hevent] at hnext
      cases hnext

end Node

end Titan.ProposerVM
