import Titan.Atomic.Types

/-!
# Titan.Atomic.SharedMemory — the memory shared with other chains

Each pair of chains shares two databases of elements, one for each direction:
this chain puts elements into the outbound one of a peer and removes those that
the peer put into the inbound one. An element that is removed before it was put
leaves a marker, and the put that comes later cancels with it.

Not modelled: the index of the elements by their traits, failures of the
database, locks and batches. A failed `apply` leaves the memory as it was, since
its changes are written only at the end.
-/

namespace Titan.Atomic

open Lib
open PChain (ID Bytes GoMap)

/-- `dbElement`. An element that is not present was removed before it was put. -/
structure DbElement where
  present : Bool
  value : Bytes
  traits : List Bytes
deriving DecidableEq, Repr

structure Element where
  key : ID
  value : Bytes
  traits : List Bytes
deriving DecidableEq, Repr

structure Requests where
  removeRequests : List ID
  putRequests : List Element
deriving DecidableEq, Repr

/-! ## One database -/

/-- The elements of one direction. -/
abbrev ValueDB := GoMap ID DbElement

namespace ValueDB

/-- `Value`. -/
def get (db : ValueDB) (key : ID) : Except TxError Bytes :=
  match db.lookup key with
  | none => .error (.other "not found")
  | some e => if e.present then .ok e.value else .error (.other "not found")

def setValue (db : ValueDB) (e : Element) : Except TxError ValueDB :=
  match db.lookup e.key with
  | some old => if old.present then .error .duplicatePut else .ok (db.erase e.key)
  | none => .ok (db.insert e.key ⟨true, e.value, e.traits⟩)

def removeValue (db : ValueDB) (key : ID) : Except TxError ValueDB :=
  match db.lookup key with
  | none => .ok (db.insert key ⟨false, [], []⟩)
  | some e => if e.present then .ok (db.erase key) else .error .duplicateRemove

/-- The key holds an element that was put and not yet removed. -/
def Present (db : ValueDB) (key : ID) : Prop := ∃ e, db.lookup key = some e ∧ e.present = true

variable {db : ValueDB} {key : ID}

theorem present_of_get {value : Bytes} (h : db.get key = .ok value) :
    db.Present key := by
  unfold get at h
  split at h
  next => cases h
  next e he =>
    split at h
    next hp => exact ⟨e, he, hp⟩
    next => cases h

/-- The keys are removed one after the other, and each is present when it is its turn. -/
def RemovesPresent : ValueDB → List ID → Prop
  | _, [] => True
  | db, key :: rest => db.Present key ∧ ∀ db', db.removeValue key = .ok db' → RemovesPresent db' rest

theorem removeValue_present (h : db.Present key) : db.removeValue key = .ok (db.erase key) := by
  rcases h with ⟨e, he, hp⟩
  unfold removeValue
  rw [he]
  exact if_pos hp

theorem present_erase {k : ID} : Present (db.erase key) k ↔ db.Present k ∧ k ≠ key := by
  unfold Present
  by_cases hk : k = key
  · subst hk
    simp [AList.lookup_erase]
  · simp [AList.lookup_erase_ne hk, hk]

theorem removesPresent_of_nodup {keys : List ID} (hnodup : keys.Nodup)
    (hpresent : ∀ k ∈ keys, db.Present k) : db.RemovesPresent keys := by
  induction keys generalizing db with
  | nil => trivial
  | cons key rest ih =>
    rcases List.nodup_cons.mp hnodup with ⟨hkey, hnodup⟩
    have hp := hpresent key List.mem_cons_self
    refine ⟨hp, fun db' hdb' => ?_⟩
    rw [removeValue_present hp] at hdb'
    cases hdb'
    refine ih hnodup (fun k hk => present_erase.mpr ⟨hpresent k (List.mem_cons_of_mem _ hk), ?_⟩)
    exact fun heq => hkey (heq ▸ hk)

/-- Removing present keys leaves the others as they are. -/
theorem RemovesPresent.present_iff {db' : ValueDB} {keys : List ID} (h : db.RemovesPresent keys)
    (hok : keys.foldlM removeValue db = .ok db') (k : ID) :
    db'.Present k ↔ db.Present k ∧ k ∉ keys := by
  induction keys generalizing db with
  | nil =>
    cases hok
    simp
  | cons key rest ih =>
    rcases bind_ok (show (db.removeValue key >>= fun db => rest.foldlM removeValue db) = .ok db'
      from hok) with ⟨db₁, hone, hok⟩
    rw [ih (h.2 db₁ hone) hok]
    rw [removeValue_present h.1] at hone
    cases hone
    rw [present_erase, List.mem_cons, not_or, and_assoc]

/-- A put makes no other key present, and takes none away. -/
theorem present_setValue {db' : ValueDB} {e : Element} (h : db.setValue e = .ok db') (k : ID) :
    (db.Present k → db'.Present k) ∧ (k ≠ e.key → db'.Present k → db.Present k) := by
  unfold setValue at h
  split at h
  next old hold =>
    rcases guard_ok h with ⟨hp, h⟩
    cases h
    constructor
    · rintro ⟨e', he', hp'⟩
      refine present_erase.mpr ⟨⟨e', he', hp'⟩, ?_⟩
      rintro rfl
      rw [hold] at he'
      cases he'
      exact hp hp'
    · exact fun _ hk => (present_erase.mp hk).1
  next hnone =>
    cases h
    constructor
    · rintro ⟨e', he', hp'⟩
      have hne : k ≠ e.key := by
        rintro rfl
        rw [hnone] at he'
        cases he'
      exact ⟨e', by rw [AList.lookup_insert_ne hne]; exact he', hp'⟩
    · rintro hne ⟨e', he', hp'⟩
      rw [AList.lookup_insert_ne hne] at he'
      exact ⟨e', he', hp'⟩

end ValueDB

/-! ## All databases -/

/-- The databases of this chain, by peer chain. -/
structure SharedMemory where
  inbound : ID → ValueDB
  outbound : ID → ValueDB

namespace SharedMemory

def get (sm : SharedMemory) (peerChainID : ID) (keys : List ID) : Except TxError (List Bytes) :=
  keys.mapM (sm.inbound peerChainID).get

/-- The requests of one peer chain. -/
def applyOne (sm : SharedMemory) (peerChainID : ID) (req : Requests) : Except TxError SharedMemory := do
  let inbound ← req.removeRequests.foldlM ValueDB.removeValue (sm.inbound peerChainID)
  let outbound ← req.putRequests.foldlM ValueDB.setValue (sm.outbound peerChainID)
  return ⟨Function.update sm.inbound peerChainID inbound,
    Function.update sm.outbound peerChainID outbound⟩

/-- `Apply`, for the peer chains in the order of their shared IDs. -/
def apply (sm : SharedMemory) (requests : GoMap ID Requests) (order : List ID) :
    Except TxError SharedMemory :=
  order.foldlM (fun sm peerChainID =>
    match requests.lookup peerChainID with
    | none => .ok sm
    | some req => sm.applyOne peerChainID req) sm

/-- A peer chain adds an element for this chain. -/
def peerPut (sm : SharedMemory) (peerChainID : ID) (e : Element) : Except TxError SharedMemory := do
  let inbound ← (sm.inbound peerChainID).setValue e
  return { sm with inbound := Function.update sm.inbound peerChainID inbound }

variable {sm : SharedMemory}

theorem present_of_get {peerChainID : ID} {keys : List ID} {values : List Bytes}
    (h : sm.get peerChainID keys = .ok values) {key : ID} (hkey : key ∈ keys) :
    (sm.inbound peerChainID).Present key := by
  unfold get at h
  induction keys generalizing values with
  | nil => cases hkey
  | cons k keys ih =>
    rw [List.mapM_cons] at h
    rcases bind_ok h with ⟨value, hk, h⟩
    rcases bind_ok h with ⟨rest, hrest, -⟩
    rcases List.mem_cons.mp hkey with rfl | hkey
    · exact ValueDB.present_of_get hk
    · exact ih hrest hkey

theorem applyOne_inbound {sm' : SharedMemory} {peerChainID : ID} {req : Requests}
    (hok : sm.applyOne peerChainID req = .ok sm') :
    (∀ c, c ≠ peerChainID → sm'.inbound c = sm.inbound c) ∧
      req.removeRequests.foldlM ValueDB.removeValue (sm.inbound peerChainID) =
        .ok (sm'.inbound peerChainID) := by
  rcases bind_ok hok with ⟨inbound, hremove, hok⟩
  rcases bind_ok hok with ⟨outbound, -, hok⟩
  cases hok
  constructor
  · exact fun c hc => Function.update_of_ne hc _ _
  · rw [hremove]
    simp

/-- Applying requests whose keys are present removes exactly those keys. -/
theorem apply_present {requests : GoMap ID Requests} {order : List ID} {sm' : SharedMemory}
    (hnodup : order.Nodup) (hok : sm.apply requests order = .ok sm')
    (hremoves : ∀ c ∈ order, ∀ req, requests.lookup c = some req → (sm.inbound c).RemovesPresent req.removeRequests)
    (c k : ID) :
    (sm'.inbound c).Present k ↔ (sm.inbound c).Present k ∧
      ¬ (c ∈ order ∧ ∃ req, requests.lookup c = some req ∧ k ∈ req.removeRequests) := by
  induction order generalizing sm with
  | nil =>
    cases hok
    simp
  | cons peer order ih =>
    rcases List.nodup_cons.mp hnodup with ⟨hpeer, hnodup⟩
    unfold apply at hok
    rw [List.foldlM_cons] at hok
    rcases bind_ok hok with ⟨sm₁, hone, hok⟩
    split at hone
    next hnone =>
      cases hone
      rw [ih hnodup hok (fun c hc => hremoves c (List.mem_cons_of_mem _ hc))]
      by_cases hc : c = peer
      · subst hc
        simp [hnone]
      · simp [hc]
    next req hreq =>
      rcases applyOne_inbound hone with ⟨hother, hfold⟩
      have hrest : ∀ c ∈ order, ∀ req, requests.lookup c = some req →
          (sm₁.inbound c).RemovesPresent req.removeRequests := by
        intro c hc req hreq
        rw [hother c (fun heq => hpeer (heq ▸ hc))]
        exact hremoves c (List.mem_cons_of_mem _ hc) req hreq
      rw [ih hnodup hok hrest]
      by_cases hc : c = peer
      · subst hc
        have hremoved := (hremoves c List.mem_cons_self req hreq).present_iff hfold k
        simp [hremoved, hpeer, hreq]
      · simp [hother c hc, hc]

end SharedMemory

end Titan.Atomic
