import Titan.Atomic.Types
import Titan.Lib.Heap

/-!
# Titan.Atomic.Mempool — the mempool of atomic transactions

The collections of `Txs` and the operations on them. A transaction is Pending
(in two heaps, by highest and by lowest price), Current (being built into a
block), Issued (in a block of this node) or Discarded (remembered as invalid);
`utxoSpenders` maps the inputs of the first three to them.

The Go code ranges over maps and sets in an unspecified order: each operation
that does so takes the order. What the mempool asks of the chain, whether a
transaction verifies, and whether the bloom filter can be replaced when it is
full, are outcomes given to the operation.

Not modelled: metrics, the bloom filter itself, the channel that wakes the
block builder, locks (the operations are atomic), and `ForceAddTx`, which skips
the checks.
-/

namespace Titan.Atomic

open Lib
open PChain (ID GoMap)

/-! ## Pending transactions -/

structure TxEntry where
  id : ID
  gasPrice : ℕ
  tx : Tx
  index : ℕ
deriving DecidableEq, Repr

/-- The max-heap of `internalTxHeap`. -/
def maxOps : HeapOps TxEntry where
  less a b := decide (b.gasPrice < a.gasPrice)
  place i e := { e with index := i }

/-- The min-heap of `internalTxHeap`. -/
def minOps : HeapOps TxEntry where
  less a b := decide (a.gasPrice < b.gasPrice)
  place i e := { e with index := i }

/-- `internalTxHeap.Get`. The map from IDs to entries shares its entries with the
list, so the lookup is a search. -/
def heapGet (items : List TxEntry) (id : ID) : Option TxEntry :=
  items.find? (fun e => e.id = id)

/-- `heap.Push`, which adds nothing for an ID that is there. -/
def heapPush (H : HeapOps TxEntry) (items : List TxEntry) (entry : TxEntry) : List TxEntry :=
  if (heapGet items entry.id).isSome then H.up items.length items (items.length - 1)
  else H.push items entry

structure TxHeap where
  maxHeap : List TxEntry
  minHeap : List TxEntry
deriving DecidableEq, Repr

namespace TxHeap

def len (th : TxHeap) : ℕ := th.maxHeap.length

def get (th : TxHeap) (id : ID) : Option Tx := (heapGet th.maxHeap id).map (·.tx)

def push (th : TxHeap) (tx : Tx) (gasPrice : ℕ) : TxHeap where
  maxHeap := heapPush maxOps th.maxHeap ⟨tx.id, gasPrice, tx, th.len⟩
  minHeap := heapPush minOps th.minHeap ⟨tx.id, gasPrice, tx, th.len⟩

/-- Remove an entry from both heaps; returns the transaction that was removed. -/
def remove (th : TxHeap) (id : ID) : TxHeap × Option Tx :=
  match heapGet th.maxHeap id with
  | none => (th, none)
  | some maxEntry =>
    let maxHeap := (maxOps.remove th.maxHeap maxEntry.index).1
    match heapGet th.minHeap id with
    | none => ({ th with maxHeap }, none)
    | some minEntry =>
      let r := minOps.remove th.minHeap minEntry.index
      (⟨maxHeap, r.1⟩, r.2.map (·.tx))

def popMax (th : TxHeap) : TxHeap × Option Tx :=
  match th.maxHeap[0]? with
  | none => (th, none)
  | some entry => th.remove entry.id

def peekMin (th : TxHeap) : Option (Tx × ℕ) := th.minHeap[0]?.map (fun e => (e.tx, e.gasPrice))

end TxHeap

/-! ## Discarded transactions -/

/-- `lru.Cache`, least recently used first. -/
abbrev Cache := List (ID × Tx)

namespace Cache

/-- `discardedTxsCacheSize`. -/
def size : ℕ := 50

def get (c : Cache) (id : ID) : Option Tx := (c.find? (fun e => e.1 = id)).map (·.2)

def evict (c : Cache) (id : ID) : Cache := c.filter (fun e => e.1 ≠ id)

/-- Note the use of an entry. -/
def touch (c : Cache) (id : ID) : Cache :=
  match c.get id with
  | none => c
  | some tx => c.evict id ++ [(id, tx)]

/-- A full cache drops its oldest entry first. -/
def put (c : Cache) (id : ID) (tx : Tx) : Cache :=
  evict (if c.length = size then c.tail else c) id ++ [(id, tx)]

end Cache

/-! ## The mempool -/

structure Mempool where
  maxSize : ℕ
  pendingTxs : TxHeap
  currentTxs : GoMap ID Tx
  issuedTxs : GoMap ID Tx
  utxoSpenders : GoMap ID Tx
  discardedTxs : Cache

/-- The context of the node. -/
structure Env where
  avaxAssetID : ID
  inputID : UTXOID → ID

def Mempool.new (maxSize : ℕ) : Mempool := ⟨maxSize, ⟨[], []⟩, ∅, ∅, ∅, []⟩

namespace Mempool

variable (env : Env)

def length (m : Mempool) : ℕ :=
  m.pendingTxs.len + m.currentTxs.keys.length + m.issuedTxs.keys.length

/-- Delete the entries of all inputs of the transaction, whoever they belong to. -/
def removeSpenders (m : Mempool) (tx : Tx) : Mempool :=
  { m with utxoSpenders := (tx.inputUTXOs env.inputID).foldl (fun s u => s.erase u) m.utxoSpenders }

def removeTx (m : Mempool) (tx : Tx) (discard : Bool) : Mempool :=
  let m := { m with
    pendingTxs := (m.pendingTxs.remove tx.id).1
    currentTxs := m.currentTxs.erase tx.id
    issuedTxs := m.issuedTxs.erase tx.id }
  let m := m.removeSpenders env tx
  if discard then { m with discardedTxs := m.discardedTxs.put tx.id tx }
  else { m with discardedTxs := m.discardedTxs.evict tx.id }

/-- The conflicting transactions, in the order in which the inputs are visited, and
the highest price among them. -/
def checkConflictTx (m : Mempool) : List ID → Except TxError (ℕ × List Tx)
  | [] => .ok (0, [])
  | utxoID :: rest =>
    match m.utxoSpenders.lookup utxoID with
    | none => checkConflictTx m rest
    | some conflictTx => do
        let price ← effectiveGasPrice conflictTx env.avaxAssetID true
        let (highest, conflicts) ← checkConflictTx m rest
        return (max price highest, conflictTx :: conflicts)

/-- Mark the transaction as Pending and note the inputs it spends. -/
def insertTx (m : Mempool) (tx : Tx) (gasPrice : ℕ) (order : List ID) : Mempool :=
  { m with
    discardedTxs := m.discardedTxs.evict tx.id
    pendingTxs := m.pendingTxs.push tx gasPrice
    utxoSpenders := order.foldl (fun s u => s.insert u tx) m.utxoSpenders }

/-- The last part of `addTx`: make room if the mempool is full, and insert. The bloom
filter is replaced after the insertion, which can fail. -/
def makeRoomAndInsert (m : Mempool) (tx : Tx) (gasPrice : ℕ) (order : List ID)
    (bloom : Except TxError Unit) : Mempool × Except TxError Unit :=
  if m.maxSize ≤ m.length then
    if m.pendingTxs.len = 0 then (m, .error .mempoolFull)
    else
      match m.pendingTxs.peekMin with
      | none => (m, .error (.other "index out of range"))
      | some (minTx, minGasPrice) =>
        if gasPrice ≤ minGasPrice then (m, .error .insufficientFee)
        else ((m.removeTx env minTx true).insertTx tx gasPrice order, bloom)
  else (m.insertTx tx gasPrice order, bloom)

/-- The checks of `addTx` before anything is changed, except for the order of the
discarded transactions. -/
def checkKnown (m : Mempool) (tx : Tx) (isLocal : Bool) : Mempool × Except TxError Unit :=
  if (m.issuedTxs.lookup tx.id).isSome then (m, .error .alreadyKnown)
  else if (m.currentTxs.lookup tx.id).isSome then (m, .error .alreadyKnown)
  else if (m.pendingTxs.get tx.id).isSome then (m, .error .alreadyKnown)
  else if isLocal then (m, .ok ())
  else
    ({ m with discardedTxs := m.discardedTxs.touch tx.id },
      if (m.discardedTxs.get tx.id).isSome then .error .alreadyKnown else .ok ())

/-- What an addition takes from outside: whether the transaction verifies, whether the
bloom filter can be replaced if it has to be, and the order in which the inputs are
visited, first for the conflicts and then for the insertion. -/
structure AddOutcome where
  verify : Except TxError Unit
  bloom : Except TxError Unit
  conflictOrder : List ID
  insertOrder : List ID

def addTx (m : Mempool) (tx : Tx) (isLocal : Bool) (o : AddOutcome) : Mempool × Except TxError Unit :=
  match m.checkKnown tx isLocal with
  | (m, .error e) => (m, .error e)
  | (m, .ok ()) =>
    match o.verify with
    | .error e => (m, .error e)
    | .ok () =>
      match effectiveGasPrice tx env.avaxAssetID true with
      | .error e => (m, .error e)
      | .ok gasPrice =>
        match m.checkConflictTx env o.conflictOrder with
        | .error e => (m, .error e)
        | .ok (highestGasPrice, conflictingTxs) =>
          if conflictingTxs ≠ [] ∧ gasPrice ≤ highestGasPrice then (m, .error .conflict)
          else
            (conflictingTxs.foldl (fun m c => m.removeTx env c true) m).makeRoomAndInsert env
              tx gasPrice o.insertOrder o.bloom

def addLocalTx (m : Mempool) (tx : Tx) (o : AddOutcome) : Mempool × Except TxError Unit :=
  m.addTx env tx true o

/-- An invalid remote transaction is remembered as Discarded, unless it is known or the
mempool is full. -/
def addRemoteTx (m : Mempool) (tx : Tx) (o : AddOutcome) : Mempool × Except TxError Unit :=
  match m.addTx env tx false o with
  | (m, .ok ()) => (m, .ok ())
  | (m, .error .alreadyKnown) => (m, .error .alreadyKnown)
  | (m, .error .mempoolFull) => (m, .error .mempoolFull)
  | (m, .error e) => ({ m with discardedTxs := m.discardedTxs.put tx.id tx }, .error e)

/-- The highest paying Pending transaction becomes Current. -/
def nextTx (m : Mempool) : Mempool × Option Tx :=
  match m.pendingTxs.popMax with
  | (pendingTxs, none) => ({ m with pendingTxs }, none)
  | (pendingTxs, some tx) =>
    ({ m with pendingTxs, currentTxs := m.currentTxs.insert tx.id tx }, some tx)

/-- One round of the loop of `IssueCurrentTxs`. -/
def issueTx (m : Mempool) (txID : ID) : Mempool :=
  match m.currentTxs.lookup txID with
  | none => m
  | some tx => { m with
      issuedTxs := m.issuedTxs.insert txID tx
      currentTxs := m.currentTxs.erase txID }

def issueCurrentTxs (m : Mempool) (order : List ID) : Mempool := order.foldl issueTx m

def discardTx (m : Mempool) (tx : Tx) : Mempool :=
  let m := { m with currentTxs := m.currentTxs.erase tx.id }
  let m := m.removeSpenders env tx
  { m with discardedTxs := m.discardedTxs.put tx.id tx }

/-- `DiscardCurrentTx`. -/
def discardCurrentTx (m : Mempool) (txID : ID) : Mempool :=
  match m.currentTxs.lookup txID with
  | none => m
  | some tx => m.discardTx env tx

def discardCurrentTxs (m : Mempool) (order : List ID) : Mempool :=
  order.foldl (fun m txID => m.discardCurrentTx env txID) m

/-- A Current transaction becomes Pending again, or Discarded if it has no price. -/
def cancelTx (m : Mempool) (tx : Tx) : Mempool :=
  match effectiveGasPrice tx env.avaxAssetID true with
  | .error _ => m.discardTx env tx
  | .ok gasPrice =>
    { m with
      currentTxs := m.currentTxs.erase tx.id
      pendingTxs := m.pendingTxs.push tx gasPrice }

def cancelCurrentTx (m : Mempool) (txID : ID) : Mempool :=
  match m.currentTxs.lookup txID with
  | none => m
  | some tx => m.cancelTx env tx

def cancelCurrentTxs (m : Mempool) (order : List ID) : Mempool :=
  order.foldl (fun m txID => m.cancelCurrentTx env txID) m

end Mempool

end Titan.Atomic
