import Titan.Shared.Delivery
import Titan.Shared.Pages

/-!
# Titan.Shared.Runs — what a chain has been sent

`shared_memory_delivers` follows a pair of chains through any run of `Apply` calls, of these
and other chains, some of which fail: what the sender has put and the receiver has not
removed can be read and found by its traits, what is stored depends only on that, and a
call that fails changes nothing.
-/

namespace Titan.Shared

open Lib Database PrefixDB

/-- What a call puts for a receiver, if it is one of the sender. -/
def Call.sent (call : Call) (sender receiver : ID) : List Element :=
  if call.thisChainID = sender then ((call.requests.lookup receiver).map Requests.putRequests).getD [] else []

/-- What a call removes of a sender's, if it is one of the receiver. -/
def Call.taken (call : Call) (sender receiver : ID) : List Bytes :=
  if call.thisChainID = receiver then ((call.requests.lookup sender).map Requests.removeRequests).getD [] else []

section Pair

variable {hash : Hash256} {names : Names} {sender receiver this peer : ID}
  (hnames : names.NoCollision hash) (hs : sender ∈ names.chains) (hr : receiver ∈ names.chains)
  (ht : this ∈ names.chains) (hp : peer ∈ names.chains)

include hnames hs hr ht hp

/-- Only the receiver reads and removes at its end, and only for the sender. -/
theorem inState_inj (hne : sender ≠ receiver)
    (h : inState hash receiver sender = inState hash this peer) : this = receiver ∧ peer = sender := by
  rw [inState_eq, inState_eq] at h
  rcases hnames.direction_inj hr hs ht hp (.inl (congrArg State.valueDB h)) with ⟨hpair, hlarger⟩
  rcases hnames.pairDB_inj hr hs ht hp hpair with ⟨rfl, rfl⟩ | ⟨rfl, rfl⟩
  · exact ⟨rfl, rfl⟩
  · -- the ends of the two chains differ
    rw [decide_eq_decide] at hlarger
    rcases lt_or_gt_of_ne hne with hlt | hlt
    · exact absurd hlt (hlarger.mp (not_lt_of_gt hlt))
    · exact absurd hlt (hlarger.mpr (not_lt_of_gt hlt))

/-- Only the sender puts there, and only for the receiver. -/
theorem outState_inj
    (h : inState hash receiver sender = outState hash this peer) : this = sender ∧ peer = receiver := by
  rw [inState_eq, outState_eq] at h
  rcases hnames.direction_inj hr hs ht hp (.inl (congrArg State.valueDB h)) with ⟨hpair, hlarger⟩
  rcases hnames.pairDB_inj hr hs ht hp hpair with ⟨rfl, rfl⟩ | ⟨rfl, rfl⟩
  · rw [decide_eq_decide] at hlarger
    exact absurd hlarger not_iff_self
  · exact ⟨rfl, rfl⟩

end Pair

namespace Memory

variable {S : Store Bytes Bytes Range} {law : S.Law Range.Contains} {mem : Memory S} {names : Names} {call : Call}
  {sender receiver : ID}

/-! ## The part of a call for one direction -/

section

variable (hnames : names.NoCollision mem.hash)
include hnames

/-- A pair has its ID alone. -/
theorem sharedID_inj {this p p' : ID} (ht : this ∈ names.chains)
    (hp : p ∈ names.chains) (hp' : p' ∈ names.chains)
    (h : sharedID mem.hash this p = sharedID mem.hash this p') : p = p' := by
  have hpair : pairDB mem.hash this p = pairDB mem.hash this p' := by
    unfold pairDB
    rw [h]
  rcases hnames.pairDB_inj ht hp ht hp' hpair with ⟨-, heq⟩ | ⟨heq, heq'⟩
  · exact heq
  · exact heq'.trans heq

section

variable (hcall : call.Within names mem.dbPrefix)
include hcall

theorem nodup_sharedIDs :
    ((call.walk.order call.requests.entries).map fun req => sharedID mem.hash call.thisChainID req.1).Nodup := by
  refine List.Nodup.map_on (fun x hx y hy heq => ?_) ((call.walk.perm _).nodup_iff.mpr call.requests.nodupKeys.nodup)
  rw [mem_entries] at hx hy
  have hpeer := sharedID_inj hnames hcall.this (hcall.peers x hx) (hcall.peers y hy) heq
  exact call.requests.nodupKeys.eq_of_fst_eq hx hy hpeer

/-- A direction is touched by the requests for one peer only. -/
theorem callOps_eq {s : State} {peer : ID}
    (hpeer : peer ∈ names.chains)
    (hother : ∀ req ∈ call.requests.entries, req.1 ≠ peer → opsOf mem.hash call.thisChainID req s = []) :
    mem.callOps call s = match call.requests.lookup peer with
      | some r => opsOf mem.hash call.thisChainID ⟨peer, r⟩ s
      | none => [] := by
  have hnodup := nodup_sharedIDs hnames hcall
  have hsorted : (mem.sharedIDs call).Perm
      ((call.walk.order call.requests.entries).map fun req => sharedID mem.hash call.thisChainID req.1) :=
    List.perm_insertionSort _ _
  unfold callOps
  rw [flatMap_single (x := sharedID mem.hash call.thisChainID peer) (hsorted.nodup_iff.mpr hnodup)]
  · rcases hlookup : call.requests.lookup peer with _ | r
    · rw [if_neg]
      intro hmem
      rcases List.mem_map.mp (hsorted.mem_iff.mp hmem) with ⟨req, hreq, heq⟩
      rw [mem_entries] at hreq
      have hsame := sharedID_inj hnames hcall.this (hcall.peers req hreq) hpeer heq
      rw [← hsame, AList.lookup_eq_none] at hlookup
      exact hlookup (List.mem_keys_of_mem hreq)
    · have hreq : (⟨peer, r⟩ : Sigma fun _ : ID => Requests) ∈ call.requests.entries := AList.mem_lookup_iff.mp hlookup
      rw [← mem_entries] at hreq
      rw [if_pos (hsorted.mem_iff.mpr (List.mem_map_of_mem hreq))]
      rcases hfound : (mem.sharedOperations call).lookup (sharedID mem.hash call.thisChainID peer) with _ | req
      · rw [sharedOperations, lookup_foldl_insert, Option.or_eq_none_iff, List.find?_eq_none] at hfound
        simpa using hfound.1 _ (List.mem_reverse.mpr hreq)
      · rcases mem_of_lookup hfound with ⟨hreq', heq⟩
        have hsame := List.inj_on_of_nodup_map hnodup hreq ((mem_entries req).mpr hreq') heq
        rw [← hsame]
  · intro id _ hne
    split
    next req hlookup =>
      rcases mem_of_lookup hlookup with ⟨hreq, rfl⟩
      exact hother req hreq fun heq => hne (by rw [heq])
    next => rfl

/-- What a call does to the receiver's end. -/
theorem callOps_receiver
    (hs : sender ∈ names.chains) (hr : receiver ∈ names.chains) (hne : sender ≠ receiver) :
    mem.callOps call (inState mem.hash receiver sender) =
      (call.sent sender receiver).map .put ++ (call.taken sender receiver).map .remove := by
  have hops : ∀ req ∈ call.requests.entries, opsOf mem.hash call.thisChainID req (inState mem.hash receiver sender) =
      (if call.thisChainID = receiver ∧ req.1 = sender then req.2.removeRequests.map .remove else []) ++
        if call.thisChainID = sender ∧ req.1 = receiver then req.2.putRequests.map .put else [] := by
    intro req hreq
    unfold opsOf
    congr 1
    · refine if_congr ⟨inState_inj hnames hs hr hcall.this (hcall.peers req hreq) hne, ?_⟩ rfl rfl
      rintro ⟨hthis, hpeer⟩
      rw [hthis, hpeer]
    · refine if_congr ⟨outState_inj hnames hs hr hcall.this (hcall.peers req hreq), ?_⟩ rfl rfl
      rintro ⟨hthis, hpeer⟩
      rw [hthis, hpeer, outState_eq_inState hne]
  unfold Call.sent Call.taken
  by_cases hsender : call.thisChainID = sender
  · rw [callOps_eq hnames hcall hr fun req hreq hpeer => by rw [hops req hreq]; simp [hsender, hne, hpeer]]
    rcases hlookup : call.requests.lookup receiver with _ | r
    · simp [hsender, hne]
    · simp only [hops ⟨receiver, r⟩ (AList.mem_lookup_iff.mp hlookup)]
      simp [hsender, hne]
  · rw [callOps_eq hnames hcall hs fun req hreq hpeer => by simp [hops req hreq, hsender, hpeer]]
    rcases hlookup : call.requests.lookup sender with _ | r
    · simp [hsender]
    · simp only [hops ⟨sender, r⟩ (AList.mem_lookup_iff.mp hlookup), hsender, and_true, false_and, if_false,
        List.append_nil, List.map_nil, List.nil_append]
      split <;> rfl

end

/-! ## Runs -/

/-- The calls that have succeeded so far and the database after them. -/
inductive Reaches (mem : Memory S) (names : Names) (db₀ : S.State) : List Call → S.State → Prop
  | start : Reaches mem names db₀ [] db₀
  | succeeded {calls : List Call} {call : Call} {db db' : S.State} (h : Reaches mem names db₀ calls db)
      (hcall : call.Within names mem.dbPrefix) (happly : mem.apply call db = (db', none)) :
      Reaches mem names db₀ (calls ++ [call]) db'
  | failed {calls : List Call} {call : Call} {db db' : S.State} {e : StateError} (h : Reaches mem names db₀ calls db)
      (happly : mem.apply call db = (db', some e)) : Reaches mem names db₀ calls db'

variable {db₀ db : S.State} {calls : List Call}

omit hnames in
theorem Reaches.within (h : Reaches mem names db₀ calls db) :
    ∀ call ∈ calls, call.Within names mem.dbPrefix := by
  induction h with
  | start => simp
  | succeeded _ hcall _ ih =>
    intro c hc
    rcases List.mem_append.mp hc with hc | hc
    · exact ih c hc
    · rw [List.mem_singleton.mp hc]
      exact hcall
  | failed _ _ ih => exact ih

/-- The mailboxes of a run have run its calls. -/
theorem Reaches.hold (h : Reaches mem names db₀ calls db)
    (hempty : ∀ key, mem.content law db₀ key = none) :
    ∃ boxes, Hold mem.hash names (mem.content law db) boxes ∧
      Runs (fun _ => Mailbox.empty) (fun s => calls.flatMap fun call => mem.callOps call s) boxes := by
  induction h with
  | start => exact ⟨_, fun s _ => represents_empty hempty s, fun _ => rfl⟩
  | succeeded _ hcall happly ih =>
    rcases ih with ⟨boxes, hhold, hruns⟩
    rcases apply_ok hnames hcall hhold happly with ⟨boxes', hhold', hruns'⟩
    refine ⟨boxes', hhold', ?_⟩
    simp only [List.flatMap_append, List.flatMap_singleton]
    exact hruns.trans hruns'
  | failed _ happly ih =>
    rw [apply_error happly]
    exact ih

/-- What the sender has put. -/
def put (sender receiver : ID) (calls : List Call) : List Element := calls.flatMap fun call => call.sent sender receiver

/-- What the receiver has removed. -/
def removed (sender receiver : ID) (calls : List Call) : List Bytes :=
  calls.flatMap fun call => call.taken sender receiver

/-- No key is put twice or removed twice. -/
structure Once (sender receiver : ID) (calls : List Call) : Prop where
  put : ((put sender receiver calls).map Element.key).Nodup
  removed : (removed sender receiver calls).Nodup

/-- The mailbox at the receiver's end. -/
theorem Reaches.mailbox (h : Reaches mem names db₀ calls db)
    (hempty : ∀ key, mem.content law db₀ key = none) (hs : sender ∈ names.chains)
    (hr : receiver ∈ names.chains) (hne : sender ≠ receiver) (honce : Once sender receiver calls) :
    ∃ box : Box, Represents mem.hash names.traits (mem.content law db) (inState mem.hash receiver sender) box ∧
      box.After (put sender receiver calls) (removed sender receiver calls) := by
  rcases h.hold hnames hempty with ⟨boxes, hhold, hruns⟩
  refine ⟨_, hhold _ (Names.isDirection_inState mem.hash hr hs), ?_⟩
  have hrun := hruns (inState mem.hash receiver sender)
  dsimp only at hrun
  rw [List.flatMap_congr fun call hcall => callOps_receiver hnames (h.within call hcall) hs hr hne] at hrun
  rcases Mailbox.history_flatMap calls (·.sent sender receiver) (·.taken sender receiver) with ⟨hputs, hremoves⟩
  have hafter := Mailbox.run_history hrun (by rw [hputs]; exact honce.put) (by rw [hremoves]; exact honce.removed)
  rw [hputs, hremoves] at hafter
  exact hafter

end

/-! ## Reads -/

theorem read_eq (law : S.Law Range.Contains) (mem : Memory S) (db : S.State) :
    mem.read db = Reader.of (mem.content law db) := by
  unfold read
  congr 1
  exact funext fun key => (mem.dbLaw law).get_eq db key

variable {box : Box}

/-- An element is read as long as it is in the mailbox. -/
theorem value_eq {m : Bytes → Option Bytes} {s : State} {traits : Set Bytes} {hash : Hash256}
    (h : Represents hash traits m s box) (key : Bytes) :
    (∃ e ∈ box.live, e.key = key ∧ s.value (Reader.of m) key = .ok e) ∨
      (key ∉ box.live.map Element.key ∧ s.value (Reader.of m) key = .error .notFound) := by
  unfold State.value
  rw [loadValue_of h]
  rcases hentry : box.entry key with _ | d
  · exact .inr ⟨(Box.notMem_of_entry hentry).1, rfl⟩
  · rcases Box.entry_eq_some.mp hentry with ⟨e, he, rfl, rfl⟩ | ⟨hearly, rfl⟩
    · exact .inl ⟨e, he, rfl, rfl⟩
    · refine .inr ⟨fun hmem => ?_, rfl⟩
      rcases List.mem_map.mp hmem with ⟨e, he, rfl⟩
      exact box.apart e he hearly

/-- What the receiver can read of what was put and removed. -/
structure Delivers (mem : Memory S) (names : Names) (sender receiver : ID) (put : List Element) (removed : List Bytes)
    (db : S.State) : Prop where
  get : ∀ keys values, mem.get db receiver sender keys = .ok values ↔
    List.Forall₂ (fun key value => ∃ e ∈ put, e.key = key ∧ e.value = value ∧ key ∉ removed) keys values
  notFound : ∀ key, (∀ e ∈ put, e.key = key → key ∈ removed) → mem.get db receiver sender [key] = .error .notFound
  /-- The elements with one of the traits, up to the limit. -/
  indexed : ∀ traits, (∀ t ∈ traits, t ∈ names.traits) → ∀ limit fuel, put.length < fuel →
    ∃ found : List Element, (found.map Element.key).Nodup ∧
      (∀ e, e ∈ found ↔ e ∈ put ∧ e.key ∉ removed ∧ ∃ t ∈ traits, t ∈ e.traits) ∧
      ∃ lastTrait lastKey, mem.indexed db fuel receiver sender traits [] [] limit =
        some (.ok ((found.take limit.toNat).map Element.value, lastTrait, lastKey))

/-- The elements of a mailbox with given keys. -/
theorem exists_elements {keys : List Bytes} (h : ∀ k ∈ keys, ∃ e ∈ box.live, e.key = k) :
    ∃ es : List Element, es.map Element.key = keys ∧ ∀ e, e ∈ es ↔ e ∈ box.live ∧ e.key ∈ keys := by
  have hlist : ∃ es : List Element, es.map Element.key = keys ∧ ∀ e ∈ es, e ∈ box.live := by
    induction keys with
    | nil => exact ⟨[], rfl, by simp⟩
    | cons k keys ih =>
      rcases h k List.mem_cons_self with ⟨e, he, rfl⟩
      rcases ih fun x hx => h x (List.mem_cons_of_mem _ hx) with ⟨es, rfl, hes⟩
      exact ⟨e :: es, rfl, List.forall_mem_cons.mpr ⟨he, hes⟩⟩
  rcases hlist with ⟨es, rfl, hes⟩
  refine ⟨es, rfl, fun e => ⟨fun he => ⟨hes e he, List.mem_map_of_mem he⟩, ?_⟩⟩
  rintro ⟨he, hk⟩
  rcases List.mem_map.mp hk with ⟨x, hx, heq⟩
  rw [← List.inj_on_of_nodup_map box.nodup (hes x hx) he heq]
  exact hx

/-- The values of a page. -/
theorem indexed_eq {fuel : ℕ} {traits : List Bytes} {startTrait startKey lastTrait : Bytes} {limit : ℤ}
    {page : Page} {es : List Element}
    (hrep : Represents mem.hash names.traits (mem.content law db) (inState mem.hash receiver sender) box)
    (hget : (inState mem.hash receiver sender).getKeys mem.hash (Reader.of (mem.content law db)) fuel traits
      startTrait startKey limit = some (.ok (page, lastTrait)))
    (hes : ∀ e ∈ es, e ∈ box.live) (hkeys : es.map Element.key = page.keys) :
    mem.indexed db fuel receiver sender traits startTrait startKey limit =
      some (.ok (es.map Element.value, lastTrait, page.lastKey)) := by
  have hvalues : page.keys.mapM (fun key =>
      (inState mem.hash receiver sender).value (Reader.of (mem.content law db)) key >>= fun elem => .ok elem.value) =
      .ok (es.map Element.value) := by
    rw [← hkeys, mapM_ok, List.forall₂_map_left_iff, List.forall₂_map_right_iff, List.forall₂_same]
    intro e he
    rcases value_eq hrep e.key with ⟨x, hx, hkey, hread⟩ | ⟨hnot, -⟩
    · rw [hread, List.inj_on_of_nodup_map box.nodup hx (hes e he) hkey]
      rfl
    · exact absurd (List.mem_map_of_mem (hes e he)) hnot
  unfold inState pairDB at hget hvalues
  unfold Memory.indexed
  rw [sharedID_comm, read_eq law]
  simp only [hget, hvalues]
  rfl

theorem delivers_of_represents {put : List Element} {removed : List Bytes}
    (hrep : Represents mem.hash names.traits (mem.content law db) (inState mem.hash receiver sender) box)
    (hafter : box.After put removed) (hnames : names.NoCollision mem.hash)
    (hkeys : ∀ e ∈ put, e.key ∈ names.keys) (hempty : ∀ e ∈ put, e.key ≠ []) :
    Delivers mem names sender receiver put removed db := by
  have hvalue : ∀ key value, ((inState mem.hash receiver sender).value (Reader.of (mem.content law db)) key >>=
      fun elem => .ok elem.value) = .ok value ↔ ∃ e ∈ put, e.key = key ∧ e.value = value ∧ key ∉ removed := by
    intro key value
    rcases value_eq hrep key with ⟨e, he, rfl, hread⟩ | ⟨hnot, hread⟩
    · rw [hread]
      have hput := hafter.mem_live.mp he
      constructor
      · intro h
        cases h
        exact ⟨e, hput.1, rfl, rfl, hput.2⟩
      · rintro ⟨e', he', hkey, rfl, hremoved⟩
        have hlive' : e' ∈ box.live := hafter.mem_live.mpr ⟨he', hkey ▸ hremoved⟩
        rw [List.inj_on_of_nodup_map box.nodup hlive' he hkey]
        rfl
    · rw [hread]
      constructor
      · intro h
        cases h
      · rintro ⟨e, he, rfl, -, hremoved⟩
        exact absurd (List.mem_map_of_mem (hafter.mem_live.mpr ⟨he, hremoved⟩)) hnot
  have hget : ∀ keys, mem.get db receiver sender keys = keys.mapM fun key =>
      (inState mem.hash receiver sender).value (Reader.of (mem.content law db)) key >>= fun elem => .ok elem.value := by
    intro keys
    unfold get
    rw [read_eq law]
    refine congrFun (congrArg List.mapM (funext fun key => ?_)) keys
    unfold State.value State.loadValue
    rw [sharedID_comm]
    unfold inState Prefixes.getValueAndIndexDB Prefixes.getValueDB pairDB
    split <;> rfl
  refine ⟨fun keys values => ?_, fun key hkey => ?_, fun traits htraits limit fuel hfuel => ?_⟩
  · rw [hget, mapM_ok]
    simp only [hvalue]
  · rcases value_eq hrep key with ⟨e, he, rfl, -⟩ | ⟨-, hread⟩
    · have hput := hafter.mem_live.mp he
      exact absurd (hkey e hput.1 rfl) hput.2
    · rw [hget, List.mapM_cons, hread]
      rfl
  · have hlength : box.live.length < fuel := by
      refine lt_of_le_of_lt ?_ hfuel
      rw [hafter.live, List.length_reverse]
      exact List.length_filter_le _ _
    rcases getKeys_first hnames.keys hrep (fun e he => hkeys e (hafter.mem_live.mp he).1) hlength
      (fun e he => hempty e (hafter.mem_live.mp he).1) htraits limit with
      ⟨found, hnodup, hfound, page, lastTrait, hgetKeys, hpage⟩
    have hlive : ∀ k ∈ found, ∃ e ∈ box.live, e.key = k := by
      intro k hk
      rcases (hfound k).mp hk with ⟨t, -, hk⟩
      rcases Box.mem_keysWith.mp hk with ⟨e, he, -, heq⟩
      exact ⟨e, he, heq⟩
    rcases exists_elements hlive with ⟨es, rfl, hes⟩
    refine ⟨es, hnodup, fun e => ?_, lastTrait, page.lastKey, ?_⟩
    · rw [hes, hafter.mem_live, hfound, and_assoc]
      refine and_congr_right fun hput => and_congr_right fun hremoved => ?_
      refine exists_congr fun t => and_congr_right fun _ => ?_
      exact Box.key_mem_keysWith (hafter.mem_live.mpr ⟨hput, hremoved⟩)
    · refine indexed_eq hrep hgetKeys (fun e he => ((hes e).mp (List.mem_of_mem_take he)).1) ?_
      rw [hpage, List.map_take]

/-! ## The pair of chains -/

/-- The stored state at the receiver's end is the same. -/
def SameStored (law : S.Law Range.Contains) (mem : Memory S) (names : Names) (sender receiver : ID) (db db' : S.State) :
    Prop :=
  let s := inState mem.hash receiver sender
  below (mem.content law db) s.valueDB = below (mem.content law db') s.valueDB ∧
    ∀ t ∈ names.traits, below (mem.content law db) (s.traitDB mem.hash t) =
      below (mem.content law db') (s.traitDB mem.hash t)

/-- The elements that were put and not removed are the same, in the order of their puts, and so
are the keys that were removed and not put. -/
structure SameLeft (put put' : List Element) (removed removed' : List Bytes) : Prop where
  live : (put.filter fun e => e.key ∉ removed) = put'.filter fun e => e.key ∉ removed'
  early : ∀ key, (key ∈ removed ∧ key ∉ put.map Element.key) ↔ (key ∈ removed' ∧ key ∉ put'.map Element.key)

theorem Reaches.keys (h : Reaches mem names db₀ calls db) :
    ∀ e ∈ put sender receiver calls, e.key ∈ names.keys := by
  intro e he
  rcases List.mem_flatMap.mp he with ⟨call, hcall, he⟩
  unfold Call.sent at he
  split at he
  · rcases hlookup : call.requests.lookup receiver with _ | r
    · rw [hlookup] at he
      cases he
    · rw [hlookup] at he
      exact (h.within call hcall).keys _ (AList.mem_lookup_iff.mp hlookup) e he
  · cases he

/-- For two different chains, as long as the sender does not put the empty key. -/
theorem shared_memory_delivers (law : S.Law Range.Contains) (mem : Memory S) (names : Names)
    (hnames : names.NoCollision mem.hash) (db₀ : S.State) (hempty : ∀ key, mem.content law db₀ key = none)
    (sender receiver : ID) (hs : sender ∈ names.chains) (hr : receiver ∈ names.chains) (hne : sender ≠ receiver) :
    (∀ calls db, Reaches mem names db₀ calls db → Once sender receiver calls →
      (∀ e ∈ put sender receiver calls, e.key ≠ []) →
      Delivers mem names sender receiver (put sender receiver calls) (removed sender receiver calls) db) ∧
    (∀ calls calls' db db', Reaches mem names db₀ calls db → Reaches mem names db₀ calls' db' →
      Once sender receiver calls → Once sender receiver calls' →
      SameLeft (put sender receiver calls) (put sender receiver calls') (removed sender receiver calls)
        (removed sender receiver calls') → SameStored law mem names sender receiver db db') ∧
    ∀ call db db' e, mem.apply call db = (db', some e) → db' = db := by
  refine ⟨fun calls db h honce hkeys => ?_, fun calls calls' db db' h h' honce honce' hsame => ?_,
    fun call db db' e => apply_error⟩
  · rcases h.mailbox hnames hempty hs hr hne honce with ⟨box, hrep, hafter⟩
    exact delivers_of_represents hrep hafter hnames h.keys hkeys
  · rcases h.mailbox hnames hempty hs hr hne honce with ⟨box, hrep, hafter⟩
    rcases h'.mailbox hnames hempty hs hr hne honce' with ⟨box', hrep', hafter'⟩
    have hbox : box = box' := by
      refine Mailbox.ext ?_ (Finset.ext fun key => ?_)
      · rw [hafter.live, hafter'.live]
        refine congrArg List.reverse ?_
        convert hsame.live
      · rw [hafter.early, hafter'.early, hsame.early]
    subst hbox
    exact hrep.unique hrep'

/-! ## Two chains -/

/-- A number made from all bytes, of which 32 are kept. -/
def digest (bytes : Bytes) : Bytes :=
  let n := bytes.foldl (fun n b => n * 257 + b.val + 1) 0
  (List.range 32).map fun i => Fin.ofNat 256 (n / 256 ^ i)

def twoChains : Memory MemDB.store := ⟨⟨digest, fun b => by simp [digest]⟩, [9]⟩

def chainA : ID := ⟨List.replicate 32 1, by decide⟩

def chainB : ID := ⟨List.replicate 32 2, by decide⟩

def someNames : Names := ⟨{chainA, chainB}, {[7]}, {[], [5], [6]}⟩

/-- A call for one peer, with a batch for another part of the database. -/
def callOf (this peer : ID) (requests : Requests) : Call where
  thisChainID := this
  requests := (∅ : AList fun _ : ID => Requests).insert peer requests
  batches := [[([1], some [2])]]
  walk := Walk.stored _
  commitWalk := Walk.stored _
  faults := ⟨fun _ => false, false, false⟩

def putBoth : Call := callOf chainA chainB ⟨[], [⟨[5], [50], [[7]]⟩, ⟨[6], [60], [[7]]⟩]⟩

def takeOne : Call := callOf chainB chainA ⟨[[5]], []⟩

/-- The prefixes that are hashed for the two chains. -/
def hashedNames : List Bytes :=
  [chainA, chainB].flatMap fun a => [chainA, chainB].flatMap fun b =>
    [combinedBytes a b, (sharedID twoChains.hash a b).val] ++ ([0, 1, 2, 3] : List Byte).flatMap fun i =>
      [pairDB twoChains.hash a b ++ [i], joinPrefixes twoChains.hash (pairDB twoChains.hash a b) [i] ++ [7]]

theorem mem_hashedNames {x : Bytes} (h : someNames.Hashed twoChains.hash x) : x ∈ hashedNames := by
  have hchain : ∀ {a : ID}, a ∈ someNames.chains → a ∈ [chainA, chainB] := fun ha => by
    simpa [someNames] using ha
  have hbyte : ∀ {i : Byte}, i < 4 → i ∈ ([0, 1, 2, 3] : List Byte) := by decide +kernel
  cases h with
  | pair ha hb =>
    exact List.mem_flatMap.mpr ⟨_, hchain ha, List.mem_flatMap.mpr ⟨_, hchain hb, by simp⟩⟩
  | shared ha hb =>
    exact List.mem_flatMap.mpr ⟨_, hchain ha, List.mem_flatMap.mpr ⟨_, hchain hb, by simp⟩⟩
  | part ha hb hi =>
    refine List.mem_flatMap.mpr ⟨_, hchain ha, List.mem_flatMap.mpr ⟨_, hchain hb, List.mem_append_right _ ?_⟩⟩
    exact List.mem_flatMap.mpr ⟨_, hbyte hi, List.mem_cons_self⟩
  | trait ha hb hi ht =>
    refine List.mem_flatMap.mpr ⟨_, hchain ha, List.mem_flatMap.mpr ⟨_, hchain hb, List.mem_append_right _ ?_⟩⟩
    cases (Set.mem_singleton_iff.mp ht)
    exact List.mem_flatMap.mpr ⟨_, hbyte hi, List.mem_cons_of_mem _ List.mem_cons_self⟩

theorem someNames_noCollision : someNames.NoCollision twoChains.hash := by
  have hprefixes : ∀ x ∈ hashedNames, ∀ y ∈ hashedNames, digest x = digest y → x = y := by decide +kernel
  have hkeys : ∀ x ∈ ([[], [5], [6]] : List Bytes), ∀ y ∈ ([[], [5], [6]] : List Bytes), digest x = digest y → x = y := by
    decide +kernel
  exact ⟨fun x y hx hy => hprefixes x (mem_hashedNames hx) y (mem_hashedNames hy),
    fun x y hx hy => hkeys x (by simpa [someNames] using hx) y (by simpa [someNames] using hy)⟩

theorem within_callOf {this peer : ID} {requests : Requests} (hthis : this ∈ someNames.chains)
    (hpeer : peer ∈ someNames.chains) (hkeys : ∀ e ∈ requests.putRequests, e.key ∈ someNames.keys)
    (htraits : ∀ e ∈ requests.putRequests, ∀ t ∈ e.traits, t ∈ someNames.traits) :
    (callOf this peer requests).Within someNames [9] := by
  have hentries : ∀ req ∈ (callOf this peer requests).requests.entries, req = ⟨peer, requests⟩ := by
    intro req hreq
    simpa [callOf, AList.insert, List.kerase] using hreq
  refine ⟨hthis, fun req hreq => ?_, fun req hreq => ?_, fun req hreq => ?_, by simp [callOf]⟩
  · rw [hentries req hreq]
    exact hpeer
  · rw [hentries req hreq]
    exact hkeys
  · rw [hentries req hreq]
    exact htraits

/-- Calls that all succeed. -/
def runAll (mem : Memory S) : List Call → S.State → Option S.State
  | [], db => some db
  | call :: calls, db =>
    match mem.apply call db with
    | (db', none) => runAll mem calls db'
    | (_, some _) => none

theorem Reaches.runAll {db' : S.State} {calls' : List Call} (h : Reaches mem names db₀ calls db)
    (hcalls : ∀ call ∈ calls', call.Within names mem.dbPrefix)
    (hrun : mem.runAll calls' db = some db') : Reaches mem names db₀ (calls ++ calls') db' := by
  induction calls' generalizing calls db with
  | nil =>
    cases hrun
    rw [List.append_nil]
    exact h
  | cons call calls' ih =>
    unfold Memory.runAll at hrun
    split at hrun
    next db₁ happly =>
      have hstep := Reaches.succeeded h (hcalls call List.mem_cons_self) happly
      rw [← List.singleton_append, ← List.append_assoc]
      exact ih hstep (fun c hc => hcalls c (List.mem_cons_of_mem _ hc)) hrun
    next => cases hrun

def putEmpty : Call := callOf chainA chainB ⟨[], [⟨[], [1], [[7]]⟩]⟩

def putOther : Call := callOf chainA chainB ⟨[], [⟨[6], [60], [[7]]⟩]⟩

def exampleCalls : List Call := [putBoth, takeOne, putEmpty, putOther, callOf chainA chainA ⟨[], [⟨[6], [60], []⟩]⟩]

theorem within_example : ∀ call ∈ exampleCalls, call.Within someNames [9] := by
  simp only [exampleCalls, List.forall_mem_cons]
  refine ⟨?_, ?_, ?_, ?_, ?_, nofun⟩ <;> refine within_callOf ?_ ?_ ?_ ?_ <;> simp [someNames]

theorem reaches_example {calls : List Call} {db : MemDB} (hcalls : calls ⊆ exampleCalls)
    (hdb : twoChains.runAll calls (∅ : MemDB) = some db) : Reaches twoChains someNames (∅ : MemDB) calls db :=
  Reaches.runAll .start (fun call hcall => within_example call (hcalls hcall)) hdb

/-- A removal before the put and one after it leave the same state, from which the other element
is delivered. -/
theorem shared_memory_delivers_eitherOrder :
    ∃ db db', Reaches twoChains someNames (∅ : MemDB) [takeOne, putBoth] db ∧
      Reaches twoChains someNames (∅ : MemDB) [putBoth, takeOne] db' ∧
      Delivers twoChains someNames chainA chainB [⟨[5], [50], [[7]]⟩, ⟨[6], [60], [[7]]⟩] [[5]] db ∧
      SameStored MemDB.law twoChains someNames chainA chainB db db' := by
  have hfirst : (twoChains.runAll [takeOne, putBoth] (∅ : MemDB)).isSome := by decide +kernel
  have hsecond : (twoChains.runAll [putBoth, takeOne] (∅ : MemDB)).isSome := by decide +kernel
  rcases Option.isSome_iff_exists.mp hfirst with ⟨db, hdb⟩
  rcases Option.isSome_iff_exists.mp hsecond with ⟨db', hdb'⟩
  have hreach := reaches_example (by simp [exampleCalls]) hdb
  have hreach' := reaches_example (by simp [exampleCalls]) hdb'
  have hdelivers := shared_memory_delivers MemDB.law twoChains someNames someNames_noCollision (∅ : MemDB)
    (fun _ => rfl) chainA chainB (by simp [someNames]) (by simp [someNames]) (by decide)
  have honce : Once chainA chainB [takeOne, putBoth] := ⟨by decide +kernel, by decide +kernel⟩
  have honce' : Once chainA chainB [putBoth, takeOne] := ⟨by decide +kernel, by decide +kernel⟩
  have hput : put chainA chainB [takeOne, putBoth] = [⟨[5], [50], [[7]]⟩, ⟨[6], [60], [[7]]⟩] := by decide +kernel
  refine ⟨db, db', hreach, hreach', ?_, ?_⟩
  · have h := hdelivers.1 _ _ hreach honce (by rw [hput]; simp)
    exact h
  · refine hdelivers.2.1 _ _ _ _ hreach hreach' honce honce' ?_
    exact ⟨rfl, fun _ => Iff.rfl⟩

/-- After the empty key is put and then another one, both with a trait, only the first is
found by the trait; and what a chain puts for itself is never there. -/
theorem shared_memory_misses_elements :
    (∃ db, Reaches twoChains someNames (∅ : MemDB) [putEmpty, putOther] db ∧
      Once chainA chainB [putEmpty, putOther] ∧
      put chainA chainB [putEmpty, putOther] = [⟨[], [1], [[7]]⟩, ⟨[6], [60], [[7]]⟩] ∧
      removed chainA chainB [putEmpty, putOther] = [] ∧
      twoChains.indexed db 10 chainB chainA [[7]] [] [] 10 = some (.ok ([[1]], [7], []))) ∧
    ∃ db, Reaches twoChains someNames (∅ : MemDB) [callOf chainA chainA ⟨[], [⟨[6], [60], []⟩]⟩] db ∧
      twoChains.get db chainA chainA [[6]] = .error .notFound := by
  constructor
  · have hrun : (twoChains.runAll [putEmpty, putOther] (∅ : MemDB)).map (fun db =>
        twoChains.indexed db 10 chainB chainA [[7]] [] [] 10) = some (some (.ok ([[1]], [7], []))) := by
      decide +kernel
    rcases Option.map_eq_some_iff.mp hrun with ⟨db, hdb, hindexed⟩
    exact ⟨db, reaches_example (by simp [exampleCalls]) hdb, ⟨by decide +kernel, by decide +kernel⟩, by decide +kernel,
      by decide +kernel, hindexed⟩
  · have hrun : (twoChains.runAll [callOf chainA chainA ⟨[], [⟨[6], [60], []⟩]⟩] (∅ : MemDB)).map (fun db =>
        twoChains.get db chainA chainA [[6]]) = some (.error .notFound) := by
      decide +kernel
    rcases Option.map_eq_some_iff.mp hrun with ⟨db, hdb, hget⟩
    exact ⟨db, reaches_example (by simp [exampleCalls]) hdb, hget⟩

end Memory

end Titan.Shared
