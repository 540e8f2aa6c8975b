import Titan.Shared.Directions

/-!
# Titan.Shared.Delivery — calls of `Apply` and the mailboxes

`Hold m boxes` says that a map holds a mailbox for each direction. A call that succeeds
runs, in each direction, the removals and puts it has for it (`apply_ok`); a call that
fails changes nothing (`apply_error`).
-/

namespace Titan.Shared

open Lib Database PrefixDB

/-- Each direction holds its mailbox. -/
def Hold (hash : Hash256) (names : Names) (m : Bytes → Option Bytes) (boxes : State → Box) : Prop :=
  ∀ s, names.IsDirection hash s → Represents hash names.traits m s (boxes s)

/-- Each mailbox runs its operations. -/
def Runs (boxes : State → Box) (ops : State → List (MailOp Element Bytes)) (boxes' : State → Box) : Prop :=
  ∀ s, (boxes s).run (ops s) = some (boxes' s)

theorem Runs.trans {boxes boxes₁ boxes' : State → Box} {ops ops' : State → List (MailOp Element Bytes)}
    (h : Runs boxes ops boxes₁) (h' : Runs boxes₁ ops' boxes') : Runs boxes (fun s => ops s ++ ops' s) boxes' := by
  intro s
  rw [Mailbox.run_append, h s]
  exact h' s

section Steps

variable {S : Store Bytes Bytes Range} {law : S.Law Range.Contains} {hash : Hash256} {names : Names}
  {v v' : VersionDB S} {boxes : State → Box} {s : State}

/-- A change of one direction leaves the others as they are. -/
theorem Hold.step (h : Hold hash names (v.view law) boxes) (hnames : names.NoCollision hash)
    (hs : names.IsDirection hash s) {box : Box} (hbox : Represents hash names.traits (v'.view law) s box)
    (hchanges : Changes law hash names.traits s v v') :
    Hold hash names (v'.view law) (Function.update boxes s box) := by
  intro s' hs'
  by_cases heq : s' = s
  · rw [heq, Function.update_self]
    exact hbox
  · rw [Function.update_of_ne heq]
    rcases hnames.elsewhere hs hs' (Ne.symm heq) with ⟨hvalue, htraits⟩
    refine (h s' hs').congr (funext fun key => ?_) fun t ht => funext fun key => ?_
    · exact hchanges.elsewhere _ (hvalue key)
    · exact hchanges.elsewhere _ (htraits t ht key)

/-- A loop runs what its steps run. -/
theorem foldlM_runs {α ε : Type} {f : VersionDB S → α → Except ε (VersionDB S)}
    {ops : α → State → List (MailOp Element Bytes)} {l : List α}
    (hstep : ∀ ⦃v v' : VersionDB S⦄ ⦃boxes : State → Box⦄, ∀ x ∈ l, Hold hash names (v.view law) boxes →
      f v x = .ok v' → ∃ boxes', Hold hash names (v'.view law) boxes' ∧ Runs boxes (ops x) boxes' ∧ v'.db = v.db)
    (h : Hold hash names (v.view law) boxes) (hloop : l.foldlM f v = .ok v') :
    ∃ boxes', Hold hash names (v'.view law) boxes' ∧ Runs boxes (fun s => l.flatMap (ops · s)) boxes' ∧ v'.db = v.db := by
  induction l generalizing v boxes with
  | nil =>
    cases hloop
    exact ⟨boxes, h, fun _ => rfl, rfl⟩
  | cons x l ih =>
    rcases bind_ok hloop with ⟨v₁, hfirst, hrest⟩
    rcases hstep x List.mem_cons_self h hfirst with ⟨boxes₁, hhold₁, hruns₁, hdb₁⟩
    rcases ih (fun _ _ _ y hy => hstep y (List.mem_cons_of_mem _ hy)) hhold₁ hrest with ⟨boxes', hhold', hruns', hdb'⟩
    exact ⟨boxes', hhold', hruns₁.trans hruns', hdb'.trans hdb₁⟩

/-- A loop of operations on one direction. -/
theorem loop_spec {α : Type} {f : VersionDB S → α → Except StateError (VersionDB S)}
    (op : α → MailOp Element Bytes) {l : List α} (hnames : names.NoCollision hash) (hs : names.IsDirection hash s)
    (hstep : ∀ ⦃v v' : VersionDB S⦄ ⦃box : Box⦄, ∀ x ∈ l, Represents hash names.traits (v.view law) s box →
      f v x = .ok v' → ∃ box' : Box, box.step (op x) = some box' ∧
        Represents hash names.traits (v'.view law) s box' ∧ Changes law hash names.traits s v v')
    (h : Hold hash names (v.view law) boxes) (hloop : l.foldlM f v = .ok v') :
    ∃ boxes', Hold hash names (v'.view law) boxes' ∧
      Runs boxes (fun s' => if s' = s then l.map op else []) boxes' ∧ v'.db = v.db := by
  have hops : (fun s' => if s' = s then l.map op else []) = fun s' => l.flatMap fun x => if s' = s then [op x] else [] := by
    funext s'
    split
    next => exact List.map_eq_flatMap
    next => simp
  rw [hops]
  refine foldlM_runs (fun v v' boxes x hx hhold hf => ?_) h hloop
  rcases hstep x hx (hhold s hs) hf with ⟨box, hbox, hrep, hchanges⟩
  refine ⟨_, hhold.step hnames hs hrep hchanges, fun s' => ?_, hchanges.db⟩
  dsimp only
  by_cases heq : s' = s
  · rw [if_pos heq, heq, Function.update_self]
    simpa [Mailbox.run] using hbox
  · rw [if_neg heq, Function.update_of_ne heq]
    rfl

end Steps

/-! ## Calls -/

/-- What the requests for a peer do to a direction. -/
def opsOf (hash : Hash256) (thisChainID : ID) (req : Sigma fun _ : ID => Requests) (s : State) :
    List (MailOp Element Bytes) :=
  (if s = inState hash thisChainID req.1 then req.2.removeRequests.map .remove else []) ++
    (if s = outState hash thisChainID req.1 then req.2.putRequests.map .put else [])

/-- A call names only known chains, keys and traits, and its batches are for other parts of
the node's database. -/
structure Call.Within (names : Names) (dbPrefix : Bytes) (call : Call) : Prop where
  this : call.thisChainID ∈ names.chains
  peers : ∀ req ∈ call.requests.entries, req.1 ∈ names.chains
  keys : ∀ req ∈ call.requests.entries, ∀ e ∈ req.2.putRequests, e.key ∈ names.keys
  traits : ∀ req ∈ call.requests.entries, ∀ e ∈ req.2.putRequests, ∀ t ∈ e.traits, t ∈ names.traits
  batches : ∀ batch ∈ call.batches, ∀ op ∈ batch, ¬ dbPrefix <+: op.1

namespace Memory

variable {S : Store Bytes Bytes Range} (law : S.Law Range.Contains) (mem : Memory S)

/-- The law of the memory's database. -/
abbrev dbLaw : mem.DB.Law Range.Contains := PrefixDB.law mem.dbPrefix law

/-- The contents of the memory's database. -/
abbrev content (db : S.State) : Bytes → Option Bytes := (mem.dbLaw law).content db

variable {law mem} {names : Names} {boxes : State → Box} {req : Sigma fun _ : ID => Requests}

theorem applyRequests_spec {v v' : VersionDB mem.DB} {fails : Bytes → Bool} {this : ID}
    (hnames : names.NoCollision mem.hash) (hthis : this ∈ names.chains)
    (hpeer : req.1 ∈ names.chains) (htraits : ∀ e ∈ req.2.putRequests, ∀ t ∈ e.traits, t ∈ names.traits)
    (h : Hold mem.hash names (v.view (mem.dbLaw law)) boxes) (happly : mem.applyRequests fails this v req = .ok v') :
    ∃ boxes', Hold mem.hash names (v'.view (mem.dbLaw law)) boxes' ∧
      Runs boxes (opsOf mem.hash this req) boxes' ∧ v'.db = v.db := by
  rcases bind_ok happly with ⟨v₁, hremoves, hputs⟩
  have hin := Names.isDirection_inState mem.hash hthis hpeer
  have hout : names.IsDirection mem.hash _ := ⟨_, hthis, _, hpeer, _, outState_eq mem.hash _ _⟩
  rcases loop_spec .remove hnames hin
    (fun _ _ _ _ _ hrep hstep => removeValue_spec (hnames.apart hin) hrep hstep) h hremoves with
    ⟨boxes₁, hhold₁, hruns₁, hdb₁⟩
  rcases loop_spec .put hnames hout
    (fun _ _ _ e he hrep hstep => setValue_spec (hnames.apart hout) hrep (htraits e he) hstep) hhold₁ hputs with
    ⟨boxes', hhold', hruns', hdb'⟩
  exact ⟨boxes', hhold', hruns₁.trans hruns', hdb'.trans hdb₁⟩

/-! ## The order of the requests -/

section Sorted

variable {α β : Type} [DecidableEq β]

/-- A map that is filled from a list has the last entry for each key. -/
theorem lookup_foldl_insert (f : α → β) (l : List α) (m : AList fun _ : β => α) (k : β) :
    (l.foldl (fun m x => m.insert (f x) x) m).lookup k = (l.reverse.find? fun x => f x = k).or (m.lookup k) := by
  induction l generalizing m with
  | nil => rfl
  | cons x l ih =>
    rw [List.foldl_cons, ih, List.reverse_cons, List.find?_append, Option.or_assoc]
    congr 1
    by_cases hx : f x = k
    · rw [← hx, AList.lookup_insert, List.find?_cons_of_pos (by simp), Option.some_or]
    · rw [AList.lookup_insert_ne (Ne.symm hx), List.find?_cons_of_neg (by simpa using hx), List.find?_nil,
        Option.none_or]

/-- Only one element of a list contributes. -/
theorem flatMap_single {γ : Type} {f : β → List γ} {l : List β} {x : β} (hnodup : l.Nodup)
    (h : ∀ y ∈ l, y ≠ x → f y = []) : l.flatMap f = if x ∈ l then f x else [] := by
  induction l with
  | nil => rfl
  | cons y l ih =>
    rw [List.nodup_cons] at hnodup
    have hrest := ih hnodup.2 fun z hz => h z (List.mem_cons_of_mem _ hz)
    rw [List.flatMap_cons, hrest]
    by_cases heq : y = x
    · rw [heq] at hnodup ⊢
      rw [if_neg hnodup.1, if_pos List.mem_cons_self, List.append_nil]
    · rw [h y List.mem_cons_self heq, List.nil_append]
      simp only [List.mem_cons, Ne.symm heq, false_or]

end Sorted

/-- What a call does to a direction. -/
def callOps (mem : Memory S) (call : Call) (s : State) : List (MailOp Element Bytes) :=
  (mem.sharedIDs call).flatMap fun id =>
    match (mem.sharedOperations call).lookup id with
    | some req => opsOf mem.hash call.thisChainID req s
    | none => []

/-- A call writes its changes and its batches, or fails before it writes. -/
theorem apply_cases (mem : Memory S) (call : Call) (db : S.State) :
    (∃ e, mem.apply call db = (db, some e)) ∨
    ∃ vdb, mem.applied call db = .ok vdb ∧ mem.apply call db =
      (S.write db (((vdb.commitBatch call.commitWalk).map fun op => (prefixKey mem.dbPrefix op.1, op.2)) ++
        call.batches.flatten), none) := by
  unfold apply writeAll
  split
  next e _ => exact .inl ⟨e, rfl⟩
  next vdb hvdb =>
    split
    · exact .inl ⟨_, rfl⟩
    · split
      · exact .inl ⟨_, rfl⟩
      · exact .inr ⟨vdb, hvdb, rfl⟩

/-- A call that returns an error changes nothing and writes none of its batches. -/
theorem apply_error {call : Call} {db db' : S.State} {e : StateError} (h : mem.apply call db = (db', some e)) :
    db' = db := by
  rcases mem.apply_cases call db with ⟨e', happly⟩ | ⟨vdb, -, happly⟩
  · rw [happly] at h
    cases h
    rfl
  · rw [happly] at h
    cases h

/-- What is written is what was collected. -/
theorem content_write {db : S.State} {vdb : VersionDB mem.DB} (hdb : vdb.db = db)
    (walk : Walk (Sigma fun _ : Bytes => ValueDelete)) {batches : List (List (Bytes × Option Bytes))}
    (hbatches : ∀ batch ∈ batches, ∀ op ∈ batch, ¬ mem.dbPrefix <+: op.1) :
    mem.content law (S.write db (((vdb.commitBatch walk).map fun op => (prefixKey mem.dbPrefix op.1, op.2)) ++
      batches.flatten)) = vdb.view (mem.dbLaw law) := by
  funext key
  show law.content (S.write db _) (prefixKey mem.dbPrefix key) = _
  rw [law.content_write, overwrite_append, overwrite_of_notMem]
  · have hbelow := congrFun (overwrite_below (law.content db) mem.dbPrefix (vdb.commitBatch walk)) key
    have hcommit := congrFun (overwrite_commitBatch (mem.dbLaw law) vdb walk) key
    rw [hdb] at hcommit
    exact hbelow.trans hcommit
  · intro hmem
    rcases List.mem_map.mp hmem with ⟨op, hop, heq⟩
    rcases List.mem_flatten.mp hop with ⟨batch, hbatch, hop⟩
    exact hbatches batch hbatch op hop (heq ▸ List.prefix_append mem.dbPrefix key)

variable {call : Call}

theorem mem_entries (req : Sigma fun _ : ID => Requests) :
    req ∈ call.walk.order call.requests.entries ↔ req ∈ call.requests.entries := (call.walk.perm _).mem_iff

/-- Requests that are found are those of the call. -/
theorem mem_of_lookup {id : ID}
    (h : (mem.sharedOperations call).lookup id = some req) :
    req ∈ call.requests.entries ∧ id = sharedID mem.hash call.thisChainID req.1 := by
  rw [sharedOperations, lookup_foldl_insert, AList.lookup_empty, Option.or_none] at h
  have hmem := List.mem_reverse.mp (List.mem_of_find?_eq_some h)
  have hid := List.find?_some h
  exact ⟨(mem_entries req).mp hmem, (of_decide_eq_true hid).symm⟩

/-- A call that succeeds runs what it has for each direction. -/
theorem applied_spec (hnames : names.NoCollision mem.hash) (hcall : call.Within names mem.dbPrefix)
    {db : S.State} {vdb : VersionDB mem.DB} (h : Hold mem.hash names (mem.content law db) boxes)
    (happlied : mem.applied call db = .ok vdb) :
    ∃ boxes', Hold mem.hash names (vdb.view (mem.dbLaw law)) boxes' ∧ Runs boxes (mem.callOps call) boxes' ∧
      vdb.db = db := by
  have hnew : Hold mem.hash names ((VersionDB.new (S := mem.DB) db).view (mem.dbLaw law)) boxes := by
    exact h
  refine foldlM_runs (fun v v' boxes id _ hhold hf => ?_) hnew happlied
  cases hlookup : (mem.sharedOperations call).lookup id with
  | some req =>
    have hreq := (mem_of_lookup hlookup).1
    simp only [hlookup] at hf ⊢
    exact applyRequests_spec hnames hcall.this (hcall.peers req hreq) (hcall.traits req hreq) hhold hf
  | none =>
    simp only [hlookup] at hf ⊢
    cases hf
    exact ⟨boxes, hhold, fun _ => rfl, rfl⟩

theorem apply_ok (hnames : names.NoCollision mem.hash) (hcall : call.Within names mem.dbPrefix) {db db' : S.State}
    (h : Hold mem.hash names (mem.content law db) boxes) (happly : mem.apply call db = (db', none)) :
    ∃ boxes', Hold mem.hash names (mem.content law db') boxes' ∧ Runs boxes (mem.callOps call) boxes' := by
  rcases mem.apply_cases call db with ⟨e, hfailed⟩ | ⟨vdb, happlied, hwritten⟩
  · rw [hfailed] at happly
    cases happly
  rw [hwritten] at happly
  cases happly
  rcases applied_spec hnames hcall h happlied with ⟨boxes', hhold, hruns, hdb⟩
  refine ⟨boxes', ?_, hruns⟩
  rw [content_write hdb call.commitWalk hcall.batches]
  exact hhold

end Memory

end Titan.Shared
