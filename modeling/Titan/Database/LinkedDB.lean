import Titan.Database.Codec
import Titan.Lib.LinkedList

/-!
# Titan.Database.LinkedDB — a list of keys in a database

`linkeddb` keeps a doubly linked list in a database: the key of the head under `[1]`, and
the node of each key under that key after a zero (`database/linkeddb/linkeddb.go`).

`Holds m l` says that a map holds the list `l` and nothing else; such a map is known from
its list. Putting a key that is not there puts it in front, deleting takes it out, and an
iterator visits the list from its head, or from its start key if that is in the list.

Not modelled: locks and the caches, which live as long as the linked database; shared
memory makes a new one for each operation.
-/

namespace Titan.Database

open Lib

/-- `Get` of a database. -/
abbrev Reader := Bytes → Except DBError Bytes

/-- What a database with the given contents reads. -/
def Reader.of (m : Bytes → Option Bytes) : Reader := fun key =>
  match m key with
  | none => .error .notFound
  | some value => .ok value

/-- Each read fails or reads the contents. -/
def Reader.Sound (read : Reader) (m : Bytes → Option Bytes) : Prop :=
  ∀ key, read key = .error .failed ∨ read key = Reader.of m key

variable {m : Bytes → Option Bytes} {key : Bytes}

theorem Reader.of_ok {value : Bytes} (h : m key = some value) : Reader.of m key = .ok value := by
  unfold Reader.of
  rw [h]

theorem Reader.of_none (h : m key = none) : Reader.of m key = .error .notFound := by
  unfold Reader.of
  rw [h]

theorem Reader.Sound.ok {read : Reader} (h : read.Sound m) {value : Bytes}
    (hread : read key = .ok value) : m key = some value := by
  rcases h key with hfailed | hof
  · rw [hfailed] at hread
    cases hread
  · rw [hof] at hread
    unfold Reader.of at hread
    split at hread
    next => cases hread
    next hm =>
      cases hread
      exact hm

theorem Reader.Sound.notFound {read : Reader} (h : read.Sound m)
    (hread : read key = .error .notFound) : m key = none := by
  rcases h key with hfailed | hof
  · rw [hfailed] at hread
    cases hread
  · rw [hof] at hread
    unfold Reader.of at hread
    split at hread
    next hm => exact hm
    next => cases hread

namespace LinkedDB

/-! ## Nodes -/

structure Node where
  value : Bytes
  hasNext : Bool
  next : Bytes
  hasPrevious : Bool
  previous : Bytes
deriving DecidableEq, Repr

def Node.fits (n : Node) : Bool :=
  n.value.length ≤ maxInt32 && n.next.length ≤ maxInt32 && n.previous.length ≤ maxInt32

def Node.pack (n : Node) : List UInt8 :=
  packBytes n.value ++ (packBool n.hasNext ++ (packBytes n.next ++ (packBool n.hasPrevious ++ packBytes n.previous)))

def Node.unpack (s : List UInt8) : Option (Node × List UInt8) := do
  let (value, s) ← unpackBytes s
  let (hasNext, s) ← unpackBool s
  let (next, s) ← unpackBytes s
  let (hasPrevious, s) ← unpackBool s
  let (previous, s) ← unpackBytes s
  some (⟨value, hasNext, next, hasPrevious, previous⟩, s)

theorem Node.reads_pack (n : Node) (h : n.fits) : Reads Node.unpack Node.pack n := by
  intro rest
  rw [Node.fits, Bool.and_eq_true, Bool.and_eq_true, decide_eq_true_eq, decide_eq_true_eq, decide_eq_true_eq] at h
  rcases h with ⟨⟨hvalue, hnext⟩, hprevious⟩
  unfold Node.unpack Node.pack
  simp only [Option.bind_eq_bind]
  rw [List.append_assoc, reads_packBytes hvalue, Option.bind_some, List.append_assoc, reads_packBool,
    Option.bind_some, List.append_assoc, reads_packBytes hnext, Option.bind_some, List.append_assoc,
    reads_packBool, Option.bind_some, reads_packBytes hprevious, Option.bind_some]

def Node.packing : Packing Node := ⟨Node.fits, Node.pack, Node.unpack, Node.reads_pack⟩

/-- `Marshal` of the codec, which allows `math.MaxInt32` bytes. -/
def Node.marshal (n : Node) : Except DBError Bytes := Node.packing.marshal maxInt32 n

def Node.unmarshal (bytes : Bytes) : Except DBError Node := Node.packing.unmarshal maxInt32 bytes

def headKey : Bytes := [1]

def nodeKey (key : Bytes) : Bytes := 0 :: key

/-! ## The list -/

def getHeadKey (read : Reader) : Except DBError Bytes := read headKey

def putHeadKey (key : Bytes) : Bytes × Option Bytes := (headKey, some key)

def deleteHeadKey : Bytes × Option Bytes := (headKey, none)

def getNode (read : Reader) (key : Bytes) : Except DBError Node := do
  let nodeBytes ← read (nodeKey key)
  Node.unmarshal nodeBytes

def putNode (key : Bytes) (n : Node) : Except DBError (Bytes × Option Bytes) := do
  let nodeBytes ← n.marshal
  .ok (nodeKey key, some nodeBytes)

def deleteNode (key : Bytes) : Bytes × Option Bytes := (nodeKey key, none)

/-- `Put`: the batch that it writes. -/
def put (read : Reader) (key value : Bytes) : Except DBError (List (Bytes × Option Bytes)) :=
  match getNode read key with
  | .ok existingNode => do
      let node ← putNode key { existingNode with value := value }
      .ok [node]
  | .error .notFound =>
    match getHeadKey read with
    | .ok head => do
        let oldHead ← getNode read head
        let old ← putNode head { oldHead with hasPrevious := true, previous := key }
        let new ← putNode key ⟨value, true, head, false, []⟩
        .ok [old, new, putHeadKey key]
    | .error .notFound => do
        let new ← putNode key ⟨value, false, [], false, []⟩
        .ok [new, putHeadKey key]
    | .error e => .error e
  | .error e => .error e

/-- `Delete`: the batch that it writes. -/
def delete (read : Reader) (key : Bytes) : Except DBError (List (Bytes × Option Bytes)) :=
  match getNode read key with
  | .error .notFound => .ok []
  | .error e => .error e
  | .ok currentNode =>
    if currentNode.hasPrevious then do
      let previousNode ← getNode read currentNode.previous
      let previous ← putNode currentNode.previous
        { previousNode with hasNext := currentNode.hasNext, next := currentNode.next }
      if currentNode.hasNext then
        let nextNode ← getNode read currentNode.next
        let next ← putNode currentNode.next
          { nextNode with hasPrevious := true, previous := currentNode.previous }
        .ok [deleteNode key, previous, next]
      else .ok [deleteNode key, previous]
    else if !currentNode.hasNext then .ok [deleteNode key, deleteHeadKey]
    else do
      let nextNode ← getNode read currentNode.next
      let next ← putNode currentNode.next { nextNode with hasPrevious := false, previous := [] }
      .ok [deleteNode key, putHeadKey currentNode.next, next]

/-! ## Iterators -/

structure Iterator where
  initialized : Bool
  exhausted : Bool
  key : Bytes
  value : Bytes
  nextKey : Bytes
  err : Option DBError
deriving DecidableEq, Repr

def newIterator : Iterator := ⟨false, false, [], [], [], none⟩

def newIteratorWithStart (read : Reader) (start : Bytes) : Iterator :=
  match read (nodeKey start) with
  | .ok _ => ⟨true, false, [], [], start, none⟩
  | .error _ => newIterator

/-- `Next` once the next key is known. -/
def Iterator.advance (read : Reader) (it : Iterator) : Bool × Iterator :=
  match getNode read it.nextKey with
  | .error .notFound => (false, { it with exhausted := true, key := [], value := [] })
  | .error e => (false, { it with exhausted := true, key := [], value := [], err := some e })
  | .ok nextNode =>
    (true, { it with
      key := it.nextKey, value := nextNode.value, nextKey := nextNode.next, exhausted := !nextNode.hasNext })

def Iterator.next (read : Reader) (it : Iterator) : Bool × Iterator :=
  if it.exhausted then (false, { it with key := [], value := [] })
  else if it.initialized then it.advance read
  else
    match getHeadKey read with
    | .error .notFound => (false, { it with initialized := true, exhausted := true, key := [], value := [] })
    | .error e => (false, { it with initialized := true, exhausted := true, key := [], value := [], err := some e })
    | .ok head => advance read { it with initialized := true, nextKey := head }

/-! ## The list that a map holds -/

/-- The node of a key in a list of keys without values. -/
def nodeOf (link : Link Bytes) : Node :=
  ⟨[], link.next.isSome, link.next.getD [], link.previous.isSome, link.previous.getD []⟩

/-- The map holds the list, and nothing else. -/
structure Holds (m : Bytes → Option Bytes) (l : List Bytes) : Prop where
  nodup : l.Nodup
  head : m headKey = l.head?
  node : ∀ key, (m (nodeKey key)).map .ok = (links none l key).map fun link => (nodeOf link).marshal
  other : ∀ k, k ≠ headKey → (∀ key, k ≠ nodeKey key) → m k = none

theorem nodeKey_inj {key' : Bytes} : nodeKey key = nodeKey key' ↔ key = key' := by
  simp [nodeKey]

theorem nodeKey_ne_headKey (key : Bytes) : nodeKey key ≠ headKey := by
  simp [nodeKey, headKey]

/-- A map is known from the list it holds. -/
theorem Holds.unique {m' : Bytes → Option Bytes} {l : List Bytes} (h : Holds m l) (h' : Holds m' l) :
    m = m' := by
  funext k
  by_cases hhead : k = headKey
  · rw [hhead, h.head, h'.head]
  · by_cases hnode : ∃ key, k = nodeKey key
    · rcases hnode with ⟨key, rfl⟩
      have hmap := (h.node key).trans (h'.node key).symm
      exact Option.map_injective (fun _ _ heq => Except.ok.inj heq) hmap
    · have hne : ∀ key, k ≠ nodeKey key := fun key heq => hnode ⟨key, heq⟩
      rw [h.other k hhead hne, h'.other k hhead hne]

theorem holds_nil (h : ∀ k, m k = none) : Holds m [] where
  nodup := List.nodup_nil
  head := h headKey
  node key := by rw [h]; rfl
  other k _ _ := h k

/-! ## Nodes in a map -/

/-- The map holds a head and nodes, and nothing else. -/
structure Stored (m : Bytes → Option Bytes) (head : Option Bytes) (nodes : Bytes → Option Node) : Prop where
  head : m headKey = head
  node : ∀ key, (m (nodeKey key)).map .ok = (nodes key).map Node.marshal
  other : ∀ k, k ≠ headKey → (∀ key, k ≠ nodeKey key) → m k = none

section Stored

variable {head : Option Bytes} {nodes : Bytes → Option Node} {read : Reader} {n : Node} {op : Bytes × Option Bytes}

section

variable (h : Stored m head nodes)
include h

theorem Stored.getNode_of (hn : nodes key = some n) :
    getNode (Reader.of m) key = .ok n := by
  have hnode := h.node key
  rw [hn, Option.map_some] at hnode
  rcases Option.map_eq_some_iff.mp hnode with ⟨bytes, hbytes, hok⟩
  unfold getNode
  rw [Reader.of_ok hbytes]
  exact Node.packing.unmarshal_marshal hok.symm

theorem Stored.getNode_ok (hread : read.Sound m) (hn : getNode read key = .ok n) :
    nodes key = some n := by
  rcases bind_ok hn with ⟨bytes, hbytes, hn⟩
  have hnode := h.node key
  rw [hread.ok hbytes, Option.map_some] at hnode
  rcases Option.map_eq_some_iff.mp hnode.symm with ⟨n', hn', hmarshal⟩
  have hunmarshal : Node.unmarshal bytes = .ok n' := Node.packing.unmarshal_marshal hmarshal
  rw [hn', Except.ok.inj (hunmarshal.symm.trans hn)]

/-- Only what has no node is not found. -/
theorem Stored.getNode_notFound (hread : read.Sound m)
    (hn : getNode read key = .error .notFound) : nodes key = none := by
  unfold getNode at hn
  rcases hbytes : read (nodeKey key) with e | bytes
  · rw [hbytes] at hn
    cases hn
    have hnode := h.node key
    rw [hread.notFound hbytes] at hnode
    exact Option.map_eq_none_iff.mp hnode.symm
  · rw [hbytes] at hn
    -- a node is unmarshalled or found broken
    exact absurd hn (Node.packing.unmarshal_ne_notFound _ _)

theorem Stored.setHead (head' : Option Bytes) :
    Stored (Function.update m headKey head') head' nodes where
  head := Function.update_self ..
  node x := by rw [Function.update_of_ne (nodeKey_ne_headKey x), h.node]
  other k hk hk' := by rw [Function.update_of_ne hk, h.other k hk hk']

theorem Stored.setNode {value : Option Bytes} {n : Option Node}
    (hvalue : value.map .ok = n.map Node.marshal) :
    Stored (Function.update m (nodeKey key) value) head (Function.update nodes key n) where
  head := by rw [Function.update_of_ne (nodeKey_ne_headKey key).symm, h.head]
  node x := by
    by_cases hx : x = key
    · rw [hx, Function.update_self, Function.update_self, hvalue]
    · rw [Function.update_of_ne fun heq => hx (nodeKey_inj.mp heq), Function.update_of_ne hx, h.node]
  other k hk hk' := by rw [Function.update_of_ne (hk' key), h.other k hk hk']

end

theorem Stored.putNode (h : Stored m head nodes) (hop : putNode key n = .ok op) :
    Stored (Function.update m op.1 op.2) head (Function.update nodes key (some n)) := by
  rcases bind_ok hop with ⟨bytes, hbytes, hop⟩
  cases hop
  exact h.setNode (by rw [Option.map_some, Option.map_some, hbytes])

end Stored

/-! ## Lists with values -/

def nodeWith (value : Bytes) (link : Link Bytes) : Node :=
  ⟨value, link.next.isSome, link.next.getD [], link.previous.isSome, link.previous.getD []⟩

/-- The nodes of keys that have links and values. -/
def nodesOf (values : Bytes → Bytes) (f : Bytes → Option (Link Bytes)) (key : Bytes) : Option Node :=
  (f key).map (nodeWith (values key))

theorem nodesOf_update (values : Bytes → Bytes) (f : Bytes → Option (Link Bytes)) (key : Bytes)
    (link : Option (Link Bytes)) : nodesOf values (Function.update f key link) =
      Function.update (nodesOf values f) key (link.map (nodeWith (values key))) :=
  funext (Function.apply_update (fun key => Option.map (nodeWith (values key))) f key link)

/-- A node is written with another link. -/
theorem Stored.relink {head : Option Bytes} {values : Bytes → Bytes} {f : Bytes → Option (Link Bytes)}
    {link : Link Bytes} {op : Bytes × Option Bytes} (change : Link Bytes → Link Bytes)
    (h : Stored m head (nodesOf values f)) (hf : f key = some link)
    (hop : LinkedDB.putNode key (nodeWith (values key) (change link)) = .ok op) :
    Stored (Function.update m op.1 op.2) head (nodesOf values (Lib.relink f (some key) change)) := by
  rw [Lib.relink, Option.elim_some, nodesOf_update, hf]
  exact h.putNode hop

/-- The map holds the list with the values of its keys, and nothing else. -/
structure HoldsWith (values : Bytes → Bytes) (m : Bytes → Option Bytes) (l : List Bytes) : Prop
    extends Stored m l.head? (nodesOf values (links none l)) where
  nodup : l.Nodup

section Changes

variable {m : Bytes → Option Bytes} {values : Bytes → Bytes} {l : List Bytes} {read : Reader} {key value : Bytes}
  {n : Node} {ops : List (Bytes × Option Bytes)}

theorem holds_iff : Holds m l ↔ HoldsWith (fun _ => []) m l := by
  have hnode : ∀ key, (nodesOf (fun _ => []) (links none l) key).map Node.marshal =
      (links none l key).map fun link => (nodeOf link).marshal := fun key => Option.map_map ..
  constructor
  · intro h
    exact ⟨⟨h.head, fun key => (h.node key).trans (hnode key).symm, h.other⟩, h.nodup⟩
  · intro h
    exact ⟨h.nodup, h.head, fun key => (h.node key).trans (hnode key), h.other⟩

/-- A node that was read is that of a key of the list. -/
theorem HoldsWith.getNode_ok (h : HoldsWith values m l) (hread : read.Sound m) (hn : getNode read key = .ok n) :
    ∃ link, links none l key = some link ∧ nodeWith (values key) link = n :=
  Option.map_eq_some_iff.mp (h.toStored.getNode_ok hread hn)

/-- Only what is not in the list is not found. -/
theorem HoldsWith.getNode_notFound (h : HoldsWith values m l) (hread : read.Sound m)
    (hn : getNode read key = .error .notFound) : key ∉ l :=
  links_eq_none.mp (Option.map_eq_none_iff.mp (h.toStored.getNode_notFound hread hn))

theorem mem_of_links {link : Link Bytes} (h : links none l key = some link) : key ∈ l := by
  by_contra hnot
  rw [links_eq_none.mpr hnot] at h
  cases h

/-- A key gets another value. -/
theorem nodesOf_setValue (values : Bytes → Bytes) (key value : Bytes) (f : Bytes → Option (Link Bytes)) :
    nodesOf (Function.update values key value) f =
      Function.update (nodesOf values f) key ((f key).map (nodeWith value)) := by
  funext x
  by_cases hx : x = key
  · rw [hx, Function.update_self, nodesOf, Function.update_self]
  · rw [Function.update_of_ne hx, nodesOf, nodesOf, Function.update_of_ne hx]

/-- A key gets a value, and is put in front of the list if it is new. -/
theorem HoldsWith.put (h : HoldsWith values m l) (hread : read.Sound m) (hput : put read key value = .ok ops) :
    HoldsWith (Function.update values key value) (overwrite m ops) (if key ∈ l then l else key :: l) := by
  unfold LinkedDB.put at hput
  split at hput
  next existingNode hget =>
    rcases h.getNode_ok hread hget with ⟨link, hlink, rfl⟩
    rcases bind_ok hput with ⟨op, hop, hops⟩
    cases hops
    rw [if_pos (mem_of_links hlink)]
    refine ⟨?_, h.nodup⟩
    rw [nodesOf_setValue, hlink]
    exact h.putNode hop
  next hget =>
    have hkey := h.getNode_notFound hread hget
    have hstored : Stored m l.head? (nodesOf (Function.update values key value) (links none l)) := by
      rw [nodesOf_setValue, Function.update_eq_self_iff.mpr]
      · exact h.toStored
      · rw [nodesOf, links_eq_none.mpr hkey]
        rfl
    rw [if_neg hkey]
    refine ⟨?_, List.nodup_cons.mpr ⟨hkey, h.nodup⟩⟩
    rw [links_cons, nodesOf_update, Function.update_self]
    split at hput
    next head hhead =>
      have hl : l.head? = some head := by rw [← h.head, hread.ok hhead]
      rcases bind_ok hput with ⟨oldHead, hold, hput⟩
      rcases h.getNode_ok hread hold with ⟨link, hlink, rfl⟩
      rcases bind_ok hput with ⟨op, hop, hput⟩
      rcases bind_ok hput with ⟨op', hop', hops⟩
      cases hops
      have hne : head ≠ key := fun heq => hkey (heq ▸ mem_of_links hlink)
      rw [← Function.update_of_ne hne value values] at hop
      rw [hl]
      exact ((hstored.relink ({ · with previous := some key }) hlink hop).putNode hop').setHead (some key)
    next hhead =>
      have hl : l.head? = none := by rw [← h.head, hread.notFound hhead]
      rcases bind_ok hput with ⟨op, hop, hops⟩
      cases hops
      rw [hl]
      exact (hstored.putNode hop).setHead (some key)
    next => cases hput
  next => cases hput

/-- A key is taken out of the list. -/
theorem HoldsWith.delete (h : HoldsWith values m l) (hread : read.Sound m) (hdelete : delete read key = .ok ops) :
    HoldsWith values (overwrite m ops) (l.erase key) := by
  unfold LinkedDB.delete at hdelete
  split at hdelete
  next hget =>
    cases hdelete
    rw [List.erase_of_not_mem (h.getNode_notFound hread hget)]
    exact h
  next => cases hdelete
  next currentNode hget =>
    rcases h.getNode_ok hread hget with ⟨link, hlink, rfl⟩
    rcases List.eq_append_cons_of_mem (mem_of_links hlink) with ⟨a, b, rfl, hkeya⟩
    rw [links_middle hkeya, Option.or_none] at hlink
    cases hlink
    rw [List.erase_append_right _ hkeya, List.erase_cons_head]
    refine ⟨?_, ((List.Sublist.refl a).append (List.sublist_cons_self key b)).nodup h.nodup⟩
    have hdeleted : Stored (Function.update m (nodeKey key) none) (a ++ key :: b).head?
        (nodesOf values (Function.update (links none (a ++ key :: b)) key none)) := by
      rw [nodesOf_update]
      exact h.setNode rfl
    -- whether there is a key before it and one after it
    rcases List.eq_nil_or_concat' a with rfl | ⟨a, p, rfl⟩
    · rw [if_neg (by simp [nodeWith])] at hdelete
      rw [List.nil_append, links_tail (List.nodup_cons.mp h.nodup).1]
      cases b with
      | nil =>
        cases hdelete
        exact hdeleted.setHead none
      | cons next b =>
        rcases bind_ok hdelete with ⟨nextNode, hnextNode, hdelete⟩
        rcases h.getNode_ok hread hnextNode with ⟨link, hlink, rfl⟩
        rcases bind_ok hdelete with ⟨op, hop, hops⟩
        cases hops
        have hne : next ≠ key := by
          rintro rfl
          exact (List.nodup_cons.mp h.nodup).1 List.mem_cons_self
        exact (hdeleted.setHead (some next)).relink _ ((Function.update_of_ne hne ..).trans hlink) hop
    · rw [if_pos (by simp [nodeWith])] at hdelete
      have hprevious : (nodeWith (values key) ⟨b.head?, (a ++ [p]).getLast?⟩).previous = p := by simp [nodeWith]
      have hpkey : p ≠ key := fun heq => hkeya (heq ▸ List.mem_append_right a List.mem_cons_self)
      rw [List.append_assoc, List.singleton_append] at h hdeleted ⊢
      rw [hprevious] at hdelete
      rcases bind_ok hdelete with ⟨previousNode, hpreviousNode, hdelete⟩
      rcases h.getNode_ok hread hpreviousNode with ⟨link, hlink, rfl⟩
      rcases bind_ok hdelete with ⟨op, hop, hdelete⟩
      have hhead : (a ++ p :: b).head? = (a ++ p :: key :: b).head? := by cases a <;> rfl
      rw [hhead, links_remove h.nodup]
      have hplink := (Function.update_of_ne hpkey none (links none (a ++ p :: key :: b))).trans hlink
      cases b with
      | nil =>
        cases hdelete
        exact hdeleted.relink _ hplink hop
      | cons next b =>
        rcases bind_ok hdelete with ⟨nextNode, hnextNode, hdelete⟩
        rcases h.getNode_ok hread hnextNode with ⟨nlink, hnlink, rfl⟩
        rcases bind_ok hdelete with ⟨op', hop', hops⟩
        cases hops
        have hright := (List.nodup_append.mp h.nodup).2.1
        simp only [List.nodup_cons, List.mem_cons, not_or] at hright
        have hrelinked := hdeleted.relink ({ · with next := some next }) hplink hop
        refine hrelinked.relink ({ · with previous := some p }) ?_ hop'
        rw [relink_apply, if_neg fun heq => hright.1.2.1 (Option.some.inj heq), Function.update_of_ne (Ne.symm hright.2.1.1)]
        exact hnlink

/-- A key is put in front of the list, once. -/
theorem Holds.put (h : Holds m l) (hread : read.Sound m) (hput : put read key [] = .ok ops) :
    Holds (overwrite m ops) (if key ∈ l then l else key :: l) := by
  have hholds := (holds_iff.mp h).put hread hput
  rw [Function.update_eq_self key fun _ : Bytes => ([] : Bytes)] at hholds
  exact holds_iff.mpr hholds

theorem Holds.delete (h : Holds m l) (hread : read.Sound m) (hdelete : delete read key = .ok ops) :
    Holds (overwrite m ops) (l.erase key) :=
  holds_iff.mpr ((holds_iff.mp h).delete hread hdelete)

end Changes

/-! ## Visiting the list -/

section Visits

variable {m : Bytes → Option Bytes} {values : Bytes → Bytes} {l : List Bytes}

theorem HoldsWith.nodeKey_isSome (h : HoldsWith values m l) : (m (nodeKey key)).isSome ↔ key ∈ l := by
  have hnode := congrArg Option.isSome (h.node key)
  rw [Option.isSome_map, Option.isSome_map, nodesOf, Option.isSome_map] at hnode
  rw [hnode, ← not_iff_not, Bool.not_eq_true, Option.isSome_eq_false_iff, Option.isNone_iff_eq_none, links_eq_none]

/-- What an iterator still visits. -/
inductive Iterator.Visits (l : List Bytes) (it : Iterator) : List Bytes → Prop
  | fresh (hinit : it.initialized = false) (hexhausted : it.exhausted = false)
      (herr : it.err = none) : Visits l it l
  | between (visited rest : List Bytes) (hl : l = visited ++ it.nextKey :: rest)
      (hinit : it.initialized = true) (hexhausted : it.exhausted = false) (herr : it.err = none) :
      Visits l it (it.nextKey :: rest)
  | done (hexhausted : it.exhausted = true) (herr : it.err = none) : Visits l it []

theorem visits_newIterator : newIterator.Visits l l := .fresh rfl rfl rfl

/-- A list from a key on; all of it, if the key is not there. -/
def startingAt (start : Bytes) (l : List Bytes) : List Bytes :=
  if start ∈ l then l.dropWhile (· ≠ start) else l

theorem startingAt_append {a b : List Bytes} (h : key ∉ a) : startingAt key (a ++ key :: b) = key :: b := by
  have ha : ∀ x ∈ a, decide (x ≠ key) = true := fun x hx => decide_eq_true fun heq => h (heq ▸ hx)
  rw [startingAt, if_pos (by simp), List.dropWhile_append_of_pos ha]
  simp

theorem startingAt_suffix (start : Bytes) (l : List Bytes) : startingAt start l <:+ l := by
  unfold startingAt
  split
  · exact List.dropWhile_suffix _
  · exact List.suffix_rfl

theorem startingAt_of_notMem (h : key ∉ l) : startingAt key l = l := if_neg h

section

variable (h : HoldsWith values m l)
include h

theorem HoldsWith.visits_start (start : Bytes) :
    (newIteratorWithStart (Reader.of m) start).Visits l (startingAt start l) := by
  unfold newIteratorWithStart
  by_cases hstart : start ∈ l
  · rcases Option.isSome_iff_exists.mp (h.nodeKey_isSome.mpr hstart) with ⟨bytes, hbytes⟩
    rcases List.eq_append_cons_of_mem hstart with ⟨a, b, rfl, ha⟩
    rw [Reader.of_ok hbytes, startingAt_append ha]
    exact .between a b rfl rfl rfl rfl
  · have hnone : m (nodeKey start) = none := by
      rw [← Option.not_isSome_iff_eq_none, h.nodeKey_isSome]
      exact hstart
    rw [Reader.of_none hnone, startingAt_of_notMem hstart]
    exact visits_newIterator

/-- From a key of the list it goes on to the rest. -/
theorem HoldsWith.advance (it : Iterator) (visited : List Bytes) {rest : List Bytes}
    (hl : l = visited ++ it.nextKey :: rest) (hinit : it.initialized = true) (herr : it.err = none) :
    ∃ it', it.advance (Reader.of m) = (true, it') ∧ it'.key = it.nextKey ∧ it'.value = values it.nextKey ∧
      it'.Visits l rest := by
  have hvisited : it.nextKey ∉ visited := fun hmem =>
    (List.nodup_append.mp (hl ▸ h.nodup)).2.2 _ hmem _ List.mem_cons_self rfl
  have hnode : nodesOf values (links none l) it.nextKey =
      some (nodeWith (values it.nextKey) ⟨rest.head?, visited.getLast?⟩) := by
    rw [nodesOf, hl, links_middle hvisited, Option.or_none]
    rfl
  refine ⟨_, by unfold Iterator.advance; rw [h.getNode_of hnode], rfl, rfl, ?_⟩
  cases rest with
  | nil => exact .done rfl herr
  | cons next rest =>
    refine .between (visited ++ [it.nextKey]) rest ?_ hinit rfl herr
    rw [hl, List.append_assoc]
    rfl

theorem HoldsWith.next_cons {it : Iterator} {rest : List Bytes}
    (hit : it.Visits l (key :: rest)) :
    ∃ it', it.next (Reader.of m) = (true, it') ∧ it'.key = key ∧ it'.value = values key ∧ it'.Visits l rest := by
  generalize hrest : key :: rest = visits at hit
  unfold Iterator.next
  cases hit with
  | fresh hinit hexhausted herr =>
    subst hrest
    rw [if_neg (by simp [hexhausted]), if_neg (by simp [hinit])]
    have hhead : getHeadKey (Reader.of m) = .ok key := Reader.of_ok (by rw [h.head]; rfl)
    rw [hhead]
    exact h.advance { it with initialized := true, nextKey := key } [] rfl rfl herr
  | between visited rest' hl hinit hexhausted herr =>
    cases hrest
    rw [if_neg (by simp [hexhausted]), if_pos hinit]
    exact h.advance it visited hl hinit herr
  | done => cases hrest

theorem HoldsWith.next_nil {it : Iterator} (hit : it.Visits l []) :
    ∃ it', it.next (Reader.of m) = (false, it') ∧ it'.err = none := by
  generalize hrest : ([] : List Bytes) = visits at hit
  unfold Iterator.next
  cases hit with
  | fresh hinit hexhausted herr =>
    subst hrest
    rw [if_neg (by simp [hexhausted]), if_neg (by simp [hinit])]
    have hhead : getHeadKey (Reader.of m) = .error .notFound := Reader.of_none (by rw [h.head]; rfl)
    rw [hhead]
    exact ⟨_, rfl, herr⟩
  | between => cases hrest
  | done hexhausted herr =>
    rw [if_pos hexhausted]
    exact ⟨_, rfl, herr⟩

end

end Visits

end LinkedDB

end Titan.Database
