import Titan.Shared.State

/-!
# Titan.Shared.Memory — the memory shared by pairs of chains

Each pair of chains has a part of one database, whose prefix is a hash of the ordered pair.
Below it each direction has its elements and its index: a chain reads and removes what is
inbound and puts what is outbound, and the prefixes of the two are swapped between the
chains (`chains/atomic/memory.go`, `prefixes.go`, `shared_memory.go`, `writer.go`).

* `apply` collects its changes in a `versiondb` and writes them together with the batches it
  is given. The database may fail in each call: reads of some keys, the collecting of the
  batch, and the write, which is atomic.
* The shared database is itself a part of the node's database, which the batches write to.

Not modelled: the locks. A call holds those of its pairs until it has written, so that calls
for one pair follow each other.
-/

namespace Titan.Shared

open Lib Database

/-- `ids.ID`. -/
abbrev ID := {bytes : Bytes // bytes.length = 32}

structure Requests where
  removeRequests : List Bytes
  putRequests : List Element
deriving DecidableEq, Repr

/-! ## Parts of the database -/

structure Prefixes where
  smallerValuePrefix : Bytes
  smallerIndexPrefix : Bytes
  largerValuePrefix : Bytes
  largerIndexPrefix : Bytes
deriving DecidableEq, Repr

def inbound : Prefixes := ⟨[0], [1], [2], [3]⟩

def outbound : Prefixes := ⟨[2], [3], [0], [1]⟩

namespace Prefixes

variable (hash : Hash256) (p : Prefixes) (myChainID peerChainID : ID) (db : Bytes)

def getValueDB : Bytes :=
  if myChainID < peerChainID then PrefixDB.joinPrefixes hash db p.smallerValuePrefix
  else PrefixDB.joinPrefixes hash db p.largerValuePrefix

def getValueAndIndexDB : State :=
  if myChainID < peerChainID then
    ⟨PrefixDB.joinPrefixes hash db p.smallerValuePrefix, PrefixDB.joinPrefixes hash db p.smallerIndexPrefix⟩
  else ⟨PrefixDB.joinPrefixes hash db p.largerValuePrefix, PrefixDB.joinPrefixes hash db p.largerIndexPrefix⟩

end Prefixes

/-- The bytes that `sharedID` hashes: the codec's version and the two IDs. -/
def combinedBytes (id1 id2 : ID) : Bytes := [0, 0] ++ (id1.val ++ id2.val)

/-- `hashing.ComputeHash256Array`. -/
def hashArray (hash : Hash256) (bytes : Bytes) : ID := ⟨hash.sum bytes, hash.length_sum bytes⟩

def sharedID (hash : Hash256) (id1 id2 : ID) : ID :=
  hashArray hash (if id2 < id1 then combinedBytes id2 id1 else combinedBytes id1 id2)

/-- `GetSharedDatabase`, by its prefix. -/
def getSharedDatabase (hash : Hash256) (sharedID : ID) : Bytes := PrefixDB.makePrefix hash sharedID.val

/-! ## The memory -/

/-- The database that shared memory is given is the part of the node's database below a
prefix. -/
structure Memory (S : Store Bytes Bytes Range) where
  hash : Hash256
  dbPrefix : Bytes

/-- What fails in a call. -/
structure Faults where
  read : Bytes → Bool
  commit : Bool
  write : Bool

/-- A call of `Apply`, with the orders in which it visits its maps. -/
structure Call where
  thisChainID : ID
  requests : AList fun _ : ID => Requests
  batches : List (List (Bytes × Option Bytes))
  walk : Walk (Sigma fun _ : ID => Requests)
  commitWalk : Walk (Sigma fun _ : Bytes => ValueDelete)
  faults : Faults

namespace Memory

variable {S : Store Bytes Bytes Range} (mem : Memory S)

/-- The database of the memory. -/
abbrev DB : Store Bytes Bytes Range := PrefixDB.store mem.dbPrefix S

/-- `Get` of the database. -/
def read (db : S.State) : Reader := Reader.of (mem.DB.get db)

def get (db : S.State) (thisChainID peerChainID : ID) (keys : List Bytes) : Except DBError (List Bytes) :=
  let shared := getSharedDatabase mem.hash (sharedID mem.hash peerChainID thisChainID)
  let s : State := ⟨inbound.getValueDB mem.hash thisChainID peerChainID shared, []⟩
  keys.mapM fun key => do
    let elem ← s.value (mem.read db) key
    .ok elem.value

def indexed (db : S.State) (fuel : ℕ) (thisChainID peerChainID : ID) (traits : List Bytes)
    (startTrait startKey : Bytes) (limit : ℤ) : Option (Except DBError (List Bytes × Bytes × Bytes)) :=
  let shared := getSharedDatabase mem.hash (sharedID mem.hash peerChainID thisChainID)
  let s := inbound.getValueAndIndexDB mem.hash thisChainID peerChainID shared
  match s.getKeys mem.hash (mem.read db) fuel traits startTrait startKey limit with
  | none => none
  | some (.error e) => some (.error e)
  | some (.ok (page, lastTrait)) => some do
      let values ← page.keys.mapM fun key => do
        let elem ← s.value (mem.read db) key
        .ok elem.value
      .ok (values, lastTrait, page.lastKey)

/-- The requests for one peer. -/
def applyRequests (fails : Bytes → Bool) (thisChainID : ID) (vdb : VersionDB mem.DB)
    (req : Sigma fun _ : ID => Requests) : Except StateError (VersionDB mem.DB) := do
  let shared := getSharedDatabase mem.hash (sharedID mem.hash thisChainID req.1)
  let vdb ← req.2.removeRequests.foldlM
    ((inbound.getValueAndIndexDB mem.hash thisChainID req.1 shared).removeValue mem.hash fails) vdb
  req.2.putRequests.foldlM
    ((outbound.getValueAndIndexDB mem.hash thisChainID req.1 shared).setValue mem.hash fails) vdb

/-- `WriteAll`: the operations of the batches are written to the node's database at once. -/
def writeAll (faults : Faults) (db : S.State) (baseBatch : List (Bytes × Option Bytes))
    (batches : List (List (Bytes × Option Bytes))) : S.State × Option StateError :=
  let inner := baseBatch.map fun op => (PrefixDB.prefixKey mem.dbPrefix op.1, op.2)
  if faults.write then (db, some (.db .failed)) else (S.write db (inner ++ batches.flatten), none)

/-- The IDs by which a call sorts its requests. -/
def sharedIDs (call : Call) : List ID :=
  ((call.walk.order call.requests.entries).map fun req =>
    sharedID mem.hash call.thisChainID req.1).insertionSort (· ≤ ·)

/-- The requests by these IDs. -/
def sharedOperations (call : Call) : AList fun _ : ID => Sigma fun _ : ID => Requests :=
  (call.walk.order call.requests.entries).foldl
    (fun m req => m.insert (sharedID mem.hash call.thisChainID req.1) req) ∅

/-- The changes of a call, in memory. -/
def applied (call : Call) (db : S.State) : Except StateError (VersionDB mem.DB) :=
  (mem.sharedIDs call).foldlM (fun vdb id =>
    match (mem.sharedOperations call).lookup id with
    | some req => mem.applyRequests call.faults.read call.thisChainID vdb req
    -- every ID of the list is in the map
    | none => .ok vdb) (VersionDB.new (S := mem.DB) db)

/-- `Apply`, with the node's database after it. -/
def apply (call : Call) (db : S.State) : S.State × Option StateError :=
  match mem.applied call db with
  | .error e => (db, some e)
  | .ok vdb =>
    if call.faults.commit then (db, some (.db .failed))
    else mem.writeAll call.faults db (vdb.commitBatch call.commitWalk) call.batches

end Memory

end Titan.Shared
