import Mathlib

/-!
# Titan.Lib.Mailbox — messages that may be taken before they are there

Messages are put into a mailbox and taken out by their keys. A key may be taken out before
its message is put: the mailbox remembers it, and the message is dropped when it comes.

`run_history`: if no key is put twice and none is taken out twice, a mailbox holds the
messages that were put and not taken out, whatever the order of the two.
-/

namespace Titan.Lib

variable {E K : Type} [DecidableEq K]

/-- The messages, the last one first, and the keys that were taken out early. -/
@[ext]
structure Mailbox (key : E → K) where
  live : List E
  early : Finset K
  nodup : (live.map key).Nodup
  apart : ∀ e ∈ live, key e ∉ early

inductive MailOp (E K : Type)
  | put (e : E)
  | remove (k : K)

namespace Mailbox

variable {key : E → K}

def empty : Mailbox key := ⟨[], ∅, List.nodup_nil, by simp⟩

/-! ## Operations -/

/-- Take out a message. -/
def take (box : Mailbox key) (k : K) : Mailbox key where
  live := box.live.filter fun e => key e ≠ k
  early := box.early
  nodup := (List.filter_sublist.map key).nodup box.nodup
  apart e he := box.apart e (List.mem_of_mem_filter he)

/-- Remember a key that is not there. -/
def remember (box : Mailbox key) (k : K) (h : k ∉ box.live.map key) : Mailbox key where
  live := box.live
  early := insert k box.early
  nodup := box.nodup
  apart e he hmem := by
    rcases Finset.mem_insert.mp hmem with heq | hmem
    · exact h (heq ▸ List.mem_map_of_mem he)
    · exact box.apart e he hmem

/-- Forget a key that was remembered. -/
def forget (box : Mailbox key) (k : K) : Mailbox key where
  live := box.live
  early := box.early.erase k
  nodup := box.nodup
  apart e he hmem := box.apart e he (Finset.mem_of_mem_erase hmem)

/-- Add a message with a new key. -/
def add (box : Mailbox key) (e : E) (hearly : key e ∉ box.early) (hlive : key e ∉ box.live.map key) :
    Mailbox key where
  live := e :: box.live
  early := box.early
  nodup := List.nodup_cons.mpr ⟨hlive, box.nodup⟩
  apart x hx := by
    rcases List.mem_cons.mp hx with rfl | hx
    · exact hearly
    · exact box.apart x hx

def put (box : Mailbox key) (e : E) : Option (Mailbox key) :=
  if hearly : key e ∈ box.early then some (box.forget (key e))
  else if hlive : key e ∈ box.live.map key then none
  else some (box.add e hearly hlive)

def remove (box : Mailbox key) (k : K) : Option (Mailbox key) :=
  if k ∈ box.early then none
  else if h : k ∈ box.live.map key then some (box.take k)
  else some (box.remember k h)

def step (box : Mailbox key) : MailOp E K → Option (Mailbox key)
  | .put e => box.put e
  | .remove k => box.remove k

def run (box : Mailbox key) (ops : List (MailOp E K)) : Option (Mailbox key) := ops.foldlM step box

theorem run_append (box : Mailbox key) (ops ops' : List (MailOp E K)) :
    box.run (ops ++ ops') = (box.run ops).bind fun box => box.run ops' := List.foldlM_append

/-! ## Histories -/

def puts (ops : List (MailOp E K)) : List E := ops.filterMap fun | .put e => some e | .remove _ => none

def removes (ops : List (MailOp E K)) : List K := ops.filterMap fun | .put _ => none | .remove k => some k

theorem puts_append (ops ops' : List (MailOp E K)) : puts (ops ++ ops') = puts ops ++ puts ops' :=
  List.filterMap_append

theorem removes_append (ops ops' : List (MailOp E K)) : removes (ops ++ ops') = removes ops ++ removes ops' :=
  List.filterMap_append

/-- A history of rounds that put first. -/
theorem history_flatMap {α : Type} (l : List α) (f : α → List E) (g : α → List K) :
    puts (l.flatMap fun x => (f x).map .put ++ (g x).map .remove) = l.flatMap f ∧
      removes (l.flatMap fun x => (f x).map .put ++ (g x).map .remove) = l.flatMap g := by
  unfold puts removes
  rw [List.filterMap_flatMap, List.filterMap_flatMap]
  constructor
  all_goals
    refine List.flatMap_congr fun x _ => ?_
    simp [List.filterMap_map]

/-- The messages that were put and not taken out, and the keys that were only taken out. -/
structure After (box : Mailbox key) (put : List E) (removed : List K) : Prop where
  live : box.live = (put.filter fun e => key e ∉ removed).reverse
  early : ∀ k, k ∈ box.early ↔ k ∈ removed ∧ k ∉ put.map key

variable {removed : List K}

theorem After.mem_live {box : Mailbox key} {put : List E} (h : box.After put removed) {e : E} :
    e ∈ box.live ↔ e ∈ put ∧ key e ∉ removed := by
  rw [h.live, List.mem_reverse, List.mem_filter, decide_eq_true_eq]

theorem After.put {box box' : Mailbox key} {put : List E} (h : box.After put removed) {e : E}
    (hput : box.put e = some box') (hnew : key e ∉ put.map key) : box'.After (put ++ [e]) removed := by
  unfold Mailbox.put at hput
  split at hput
  next hearly =>
    -- the message was awaited: it is dropped
    cases hput
    have hremoved := ((h.early _).mp hearly).1
    refine ⟨?_, fun k => ?_⟩
    · rw [List.filter_append, List.filter_cons_of_neg (by simpa using hremoved), List.filter_nil, List.append_nil]
      exact h.live
    · show k ∈ box.early.erase (key e) ↔ _
      rw [Finset.mem_erase, h.early, List.map_append, List.mem_append, List.map_singleton, List.mem_singleton, not_or]
      constructor
      · exact fun hk => ⟨hk.2.1, hk.2.2, hk.1⟩
      · exact fun hk => ⟨hk.2.2, hk.1, hk.2.1⟩
  next hearly =>
    have hremoved : key e ∉ removed := fun hmem => hearly ((h.early _).mpr ⟨hmem, hnew⟩)
    split at hput
    next => cases hput
    next hlive =>
      cases hput
      refine ⟨?_, fun k => ?_⟩
      · rw [List.filter_append, List.filter_cons_of_pos (by simpa using hremoved), List.filter_nil,
          List.reverse_append, ← h.live]
        rfl
      · show k ∈ box.early ↔ _
        rw [h.early, List.map_append, List.mem_append, List.map_singleton, List.mem_singleton, not_or]
        constructor
        · exact fun hk => ⟨hk.1, hk.2, fun heq => hremoved (heq ▸ hk.1)⟩
        · exact fun hk => ⟨hk.1, hk.2.1⟩

theorem After.remove {box box' : Mailbox key} {put : List E} (h : box.After put removed) {k : K}
    (hremove : box.remove k = some box') (hnew : k ∉ removed) : box'.After put (removed ++ [k]) := by
  have hfilter : (put.filter fun e => key e ∉ removed ++ [k]) =
      (put.filter fun e => key e ∉ removed).filter fun e => key e ≠ k := by
    rw [List.filter_filter]
    refine List.filter_congr fun e _ => ?_
    simp [and_comm]
  unfold Mailbox.remove at hremove
  split at hremove
  next => cases hremove
  next hearly =>
    split at hremove
    next hlive =>
      cases hremove
      rcases List.mem_map.mp hlive with ⟨e, he, rfl⟩
      have hput := (h.mem_live.mp he).1
      refine ⟨?_, fun x => ?_⟩
      · rw [hfilter, ← List.filter_reverse, ← h.live]
        rfl
      · show x ∈ box.early ↔ _
        rw [h.early, List.mem_append, List.mem_singleton]
        constructor
        · exact fun hx => ⟨.inl hx.1, hx.2⟩
        · rintro ⟨hx | rfl, hx'⟩
          · exact ⟨hx, hx'⟩
          · exact absurd (List.mem_map_of_mem hput) hx'
    next hlive =>
      cases hremove
      -- a message with this key was not put: it would be there
      have hput : ∀ e ∈ put, key e ≠ k := by
        rintro e he rfl
        exact hlive (List.mem_map_of_mem (h.mem_live.mpr ⟨he, hnew⟩))
      refine ⟨?_, fun x => ?_⟩
      · rw [hfilter, List.filter_eq_self.mpr fun e he => by simpa using hput e (List.mem_of_mem_filter he)]
        exact h.live
      · show x ∈ insert k box.early ↔ _
        rw [Finset.mem_insert, h.early, List.mem_append, List.mem_singleton]
        constructor
        · rintro (rfl | hx)
          · refine ⟨.inr rfl, fun hmem => ?_⟩
            rcases List.mem_map.mp hmem with ⟨e, he, heq⟩
            exact hput e he heq
          · exact ⟨.inl hx.1, hx.2⟩
        · rintro ⟨hx | rfl, hx'⟩
          · exact .inr ⟨hx, hx'⟩
          · exact .inl rfl

theorem run_history {ops : List (MailOp E K)} {box : Mailbox key} (h : empty.run ops = some box)
    (hputs : ((puts ops).map key).Nodup) (hremoves : (removes ops).Nodup) : box.After (puts ops) (removes ops) := by
  induction ops using List.reverseRecOn generalizing box with
  | nil =>
    cases h
    exact ⟨rfl, by simp [empty, removes]⟩
  | append_singleton ops op ih =>
    rw [run_append] at h
    rcases Option.bind_eq_some_iff.mp h with ⟨box₁, hrun, hstep⟩
    rw [puts_append, List.map_append] at hputs
    rw [removes_append] at hremoves
    have hbefore := ih hrun (List.nodup_append.mp hputs).1 (List.nodup_append.mp hremoves).1
    have hstep' : box₁.step op = some box := by
      simpa [run] using hstep
    rw [puts_append, removes_append]
    cases op with
    | put e =>
      have hnew : key e ∉ (puts ops).map key := fun hmem =>
        (List.nodup_append.mp hputs).2.2 _ hmem _ (List.mem_singleton_self _) rfl
      have hremoved : removes ([.put e] : List (MailOp E K)) = [] := rfl
      rw [hremoved, List.append_nil]
      exact hbefore.put hstep' hnew
    | remove k =>
      have hnew : k ∉ removes ops := fun hmem =>
        (List.nodup_append.mp hremoves).2.2 _ hmem _ (List.mem_singleton_self _) rfl
      have hput : puts ([.remove k] : List (MailOp E K)) = [] := rfl
      rw [hput, List.append_nil]
      exact hbefore.remove hstep' hnew

end Mailbox

end Titan.Lib
