import Titan.Snow.Preference

/-!
# Titan.Snow.RecordPoll — a whole poll

`vote_spec` collects what the loop does to the tree, to the cache and to the path
of preferences; `recordPoll_spec` adds the rebuilding of the cache.

For the path the vote stack has to be a single branch (`VoteStack.parent_next`). The
loop walks down it. While it is on the preferred branch, the next block to vote on
is the preferred one. Once it left that branch, nothing on the path changes.
-/

namespace Titan.Snow

namespace Topological

open Relation

variable {U B : Type} {W : Universe} (F : Factory U B) (params : Parameters)

/-- `b` is the snowball preference of `a`. -/
def PrefEdge (ts : Topological U B) (a b : ID) : Prop :=
  ∃ n sb, ts.blocks a = some n ∧ n.sb = some sb ∧ sb.preference F = b

variable {root : ID} {added : List ID} {ts : Topological U B}

variable {a b : ID}

theorem Inv.edge_of_prefEdge (h : Inv W root added ts) (hab : PrefEdge F ts a b) : Edge ts a b := by
  obtain ⟨n, sb, hn, hsb, rfl⟩ := hab
  exact h.preference_edge F hn hsb

/-! ## Preferred paths -/

variable {post : List ID}

/-- Preferences followed to a block, then its own path. -/
theorem PreferredPath.prepend (hab : ReflTransGen (PrefEdge F ts) a b)
    (hp : PreferredPath F ts b post) :
    ∃ up, PreferredPath F ts a (up ++ post) ∧ (a :: up).getLast? = some b := by
  induction hab using ReflTransGen.head_induction_on with
  | refl => exact ⟨[], hp, rfl⟩
  | head hac _ ih =>
    obtain ⟨n, sb, hn, hsb, rfl⟩ := hac
    obtain ⟨up, hpath, hend⟩ := ih
    refine ⟨sb.preference F :: up, .step hn hsb hpath, ?_⟩
    exact hend

/-- What is left of a preferred path from one of its blocks on. -/
theorem PreferredPath.suffix {up : List ID} (hp : PreferredPath F ts a (up ++ post))
    (hend : (a :: up).getLast? = some b) :
    ReflTransGen (PrefEdge F ts) a b ∧ PreferredPath F ts b post := by
  induction up generalizing a with
  | nil =>
    obtain rfl : a = b := by simpa using hend
    exact ⟨.refl, hp⟩
  | cons c up ih =>
    cases hp with
    | step hn hsb hpath =>
      obtain ⟨hreach, hpost⟩ := ih hpath hend
      exact ⟨.head ⟨_, _, hn, hsb, rfl⟩ hreach, hpost⟩

/-! ## The stack as a branch -/

section Stack

variable {root : ID} {added : List ID} {ts : Topological U B} {ids : List ID}

theorem VoteStack.mem_tree (hs : VoteStack W ts ids) {x : ID} (hx : x ∈ ids) :
    (ts.blocks x).isSome := by
  obtain ⟨c, hc⟩ := List.exists_mem_of_ne_nil _ (hs.inner x hx)
  obtain ⟨n, hn, -⟩ := exists_block_of_child hc
  simp [hn]

section

variable (h : Inv W root added ts)
include h

theorem VoteStack.parent_ne (hs : VoteStack W ts ids) {x : ID}
    (hx : x ∈ ids) (hne : x ≠ ts.lastAcceptedID) : W.parent x ≠ x := by
  intro heq
  have := (h.parent_spec (hs.mem_tree hx) hne).2.2
  rw [heq] at this
  omega

variable {rest : List ID}

/-- The top of a vote stack is the last accepted block. -/
theorem VoteStack.head_eq {c : ID} (hs : VoteStack W ts (c :: rest)) :
    c = ts.lastAcceptedID := by
  by_contra hne
  have hself := hs.parent_ne h (by simp) hne
  rcases List.mem_cons.mp (hs.closed c (by simp) hne) with heq | hlater
  · exact hself heq
  · exact (List.pairwise_cons.mp hs.order).1 _ hlater hne rfl

/-- The loop invariant at the start of `vote`. -/
theorem LoopInv.start {c : ID} (hs : VoteStack W ts (c :: rest)) :
    LoopInv ts [] (c :: rest) ts.lastAcceptedID true ts := by
  refine ⟨h.last_mem, ?_, fun hne => absurd rfl hne, Or.inr (Or.inl ⟨?_, rfl⟩)⟩
  · exact fun x n hn => (childrenOf_eq hn).symm
  · rw [List.head?_cons, hs.head_eq h]

theorem VoteStack.ne_last {Q : List ID} {y z : ID}
    (hs : VoteStack W ts (Q ++ y :: z :: rest)) : z ≠ ts.lastAcceptedID := by
  rintro rfl
  have hnodup := hs.nodup
  rcases Q with _ | ⟨c, Q⟩
  · obtain rfl := hs.head_eq h
    simp at hnodup
  · obtain rfl := hs.head_eq h
    simp at hnodup

/-- Without siblings, each block of a vote stack is the parent of the next one. -/
theorem VoteStack.parent_next (hs : VoteStack W ts ids)
    (hu : NoSiblings W ts ids) (Q : List ID) : ∀ (rest : List ID) (y z : ID),
      ids = Q ++ y :: z :: rest → W.parent z = y := by
  induction hk : Q.length using Nat.strongRecOn generalizing Q with
  | _ k ih =>
    intro rest y z hsplit
    subst hsplit
    have hz := hs.ne_last h
    have hsplit : Q ++ y :: z :: rest = (Q ++ [y]) ++ z :: rest := by simp
    have hdone := VoteStack.parent_done_next (hsplit ▸ hs) hz (hs.parent_ne h (by simp) hz)
    rcases List.mem_append.mp hdone with hQ | hy
    · -- an earlier parent already has the block after it as a child in the stack
      exfalso
      obtain ⟨Q₁, Q₂, hQ'⟩ := List.append_of_mem hQ
      obtain ⟨w, tail, htail⟩ : ∃ w tail, Q₂ ++ [y] = w :: tail :=
        List.exists_cons_of_ne_nil (by simp)
      have hwhole : Q ++ y :: z :: rest =
          Q₁ ++ W.parent z :: w :: (tail ++ z :: rest) := by
        have : Q ++ y :: z :: rest = Q₁ ++ W.parent z :: ((Q₂ ++ [y]) ++ z :: rest) := by
          rw [hQ']
          simp
        rw [this, htail]
        simp
      have hw := ih Q₁.length (by rw [← hk, hQ']; simp) Q₁ rfl _ _ _ hwhole
      have hwne : w ≠ ts.lastAcceptedID := VoteStack.ne_last h (hwhole ▸ hs)
      have hwz : w = z := by
        refine hu w ?_ z (by simp) hwne hz hw
        rw [hwhole]
        simp
      have hnodup := hs.nodup
      rw [hwhole, hwz] at hnodup
      have hafter := (List.nodup_append.mp hnodup).2.1
      simp at hafter
    · exact List.mem_singleton.mp hy

end

end Stack

/-! ## The loop and the path -/

variable (W) in
/-- What the loop keeps about the path of preferences when the stack is a branch. -/
structure OnPath (ts₀ : Topological U B) (Q rest : List ID) (np : ID) (on : Bool)
    (ts : Topological U B) : Prop where
  untouched : ∀ x n, ts.blocks x = some n → x ∉ Q → ∃ n₀, ts₀.blocks x = some n₀ ∧ n.sb = n₀.sb
  reach : ReflTransGen (PrefEdge F ts) ts.lastAcceptedID np
  above : np ≠ ts.lastAcceptedID → W.parent np ∈ Q
  next : on = true → ∀ y, rest.head? = some y → y = np
  on_done : on = true → np ∉ Q
  off_done : on = false → np ∉ Q ++ rest

section Loop

variable {root : ID} {added : List ID} {ts₀ ts ts' : Topological U B} {Q rest : List ID}
  {np y pref : ID} {on : Bool}

/-- An iteration that accepts nothing leaves the preferences of the blocks that are
done, and so the path above them. -/
theorem reach_transfer (h : Inv W root added ts) (hs : VoteStack W ts₀ (Q ++ y :: rest))
    (hJ : LoopInv ts₀ Q (y :: rest) np on ts) (hstep : LoopStep W F ts y pref ts')
    (hlast : ts'.lastAcceptedID = ts.lastAcceptedID)
    (hsome : ∀ x, (ts'.blocks x).isSome = (ts.blocks x).isSome) {z : ID}
    (hreach : ReflTransGen (PrefEdge F ts) ts.lastAcceptedID z)
    (hz : z ≠ ts.lastAcceptedID → W.parent z ∈ Q) :
    ReflTransGen (PrefEdge F ts') ts'.lastAcceptedID z := by
  have hy : y ∉ Q := fun hmem => (List.nodup_append.mp hs.nodup).2.2 y hmem y (by simp) rfl
  rw [hlast]
  induction hreach with
  | refl => exact .refl
  | @tail x z _ hxz ih =>
    obtain ⟨-, hzLast, hparent, -⟩ := h.child_spec (h.edge_of_prefEdge F hxz)
    have hxQ : x ∈ Q := hparent ▸ hz hzLast
    obtain ⟨n, sb, hn, hsb, hpref⟩ := hxz
    have hx : x ≠ ts.lastAcceptedID → W.parent x ∈ Q := by
      intro hxne
      refine hs.parent_done hxQ ?_
      rintro rfl
      rw [hJ.first hxne] at hn
      cases hn
    refine (ih hx).tail ?_
    obtain ⟨n', hn'⟩ := Option.isSome_iff_exists.mp ((hsome x).trans (by simp [hn]))
    obtain ⟨n₁, hn₁, -, hother, -⟩ := hstep.node x n' hn'
    rw [hn] at hn₁
    obtain rfl : n = n₁ := Option.some.inj hn₁
    refine ⟨n', sb, hn', ?_, hpref⟩
    rw [hother (fun heq => hy (heq ▸ hxQ)), hsb]

theorem OnPath.step (h₀ : Inv W root added ts₀) (h : Inv W root added ts) (hs : VoteStack W ts₀ (Q ++ y :: rest))
    (hu : NoSiblings W ts₀ (Q ++ y :: rest)) (hJ : LoopInv ts₀ Q (y :: rest) np on ts)
    (hy : (ts.blocks y).isSome) (hstep : LoopStep W F ts y pref ts')
    (hp : OnPath W F ts₀ Q (y :: rest) np on ts) :
    OnPath W F ts₀ (Q ++ [y]) rest (if on then pref else np) (on && rest.head?.getD 0 = pref)
      ts' := by
  have huntouched : ∀ x n, ts'.blocks x = some n → x ∉ Q ++ [y] →
      ∃ n₀, ts₀.blocks x = some n₀ ∧ n.sb = n₀.sb := by
    intro x n hn hx
    simp only [List.mem_append, List.mem_singleton, not_or] at hx
    obtain ⟨n₁, hn₁, -, hother, -⟩ := hstep.node x n hn
    rw [hother hx.2]
    exact hp.untouched x n₁ hn₁ hx.1
  obtain ⟨hprefTree, hprefLast, hprefParent, -⟩ := h.child_spec hstep.pref_child
  have hprefFirst : pref ≠ ts₀.lastAcceptedID := by
    rintro rfl
    rw [hJ.first hprefLast] at hprefTree
    cases hprefTree
  have hprefY : pref ≠ y := by
    rintro rfl
    have := h.child_spec hstep.pref_child
    omega
  cases on with
  | true =>
    rw [if_pos rfl]
    obtain rfl : y = np := hp.next rfl y rfl
    have hdone : pref ∉ Q ++ [y] := hs.child_not_done hprefParent hprefFirst hprefY
    refine ⟨huntouched, ?_, ?_, ?_, fun _ => hdone, ?_⟩
    · rcases hstep.outcome with ⟨hlast, hsome, -, -⟩ | ⟨-, hlast, -, -, -⟩
      · -- the path reached `y`; now it goes on to the preference of `y`
        have hreach := reach_transfer F h hs hJ hstep hlast hsome hp.reach hp.above
        refine hreach.tail ?_
        obtain ⟨n', hn'⟩ := Option.isSome_iff_exists.mp ((hsome y).trans hy)
        obtain ⟨-, -, -, -, hself⟩ := hstep.node y n' hn'
        obtain ⟨sb, hsb, hpref⟩ := hself rfl
        exact ⟨n', sb, hn', hsb, hpref⟩
      · rw [hlast]
    · intro _
      rw [hprefParent]
      simp
    · intro hon z hz
      rw [hz] at hon
      simpa using hon
    · intro hoff hmem
      have hsplit : (Q ++ [y]) ++ rest = Q ++ y :: rest := by simp
      rcases List.mem_append.mp hmem with hmem | hmem
      · exact hdone hmem
      · cases rest with
        | nil => cases hmem
        | cons z rest =>
          -- the next block of the stack is a child of `y` as well
          have hz := hs.parent_next h₀ hu Q rest y z rfl
          have hzpref : z = pref := hu z (by simp) pref (by rw [← hsplit]; simp [hmem])
            (hs.ne_last h₀) hprefFirst (by rw [hz, hprefParent])
          rw [hzpref] at hoff
          simp at hoff
  | false =>
    have hkept : ts'.lastAcceptedID = ts.lastAcceptedID ∧
        ∀ x, (ts'.blocks x).isSome = (ts.blocks x).isSome := by
      rcases hstep.outcome with ⟨hlast, hsome, -, -⟩ | ⟨hyLast, -, -, -, -⟩
      · exact ⟨hlast, hsome⟩
      · -- off the branch the last accepted block is done
        exfalso
        rcases hJ.next with hQ | ⟨-, hon⟩ | hstop
        · exact (List.nodup_append.mp hs.nodup).2.2 _ hQ y (by simp) hyLast.symm
        · cases hon
        · rw [hstop y rfl] at hy
          cases hy
    refine ⟨huntouched, ?_, ?_, ?_, ?_, ?_⟩
    · exact reach_transfer F h hs hJ hstep hkept.1 hkept.2 hp.reach hp.above
    · intro hne
      exact List.mem_append_left _ (hp.above (hkept.1 ▸ hne))
    · intro hon
      cases hon
    · intro hon
      cases hon
    · intro _
      have := hp.off_done rfl
      simpa using this

end Loop

/-! ## Vote -/

variable (W) in
/-- What `vote` does, on the stack `ids`. -/
structure Voted (ts : Topological U B) (l ids : List ID) (np : ID) (acc : List ID)
    (ts' : Topological U B) : Prop where
  preferred : (ts'.blocks np).isSome
  children : ∀ x n, ts'.blocks x = some n → n.children = ts.childrenOf x
  advanced : Advanced W ts ts' acc
  /-- On a branch: the preferred block is reached, and nothing below it changed. -/
  branch : NoSiblings W ts ids → PreferredPath F ts ts.lastAcceptedID l →
    np ∉ ids ∧
    (∀ x n, ts'.blocks x = some n → x ∉ ids → ∃ n₀, ts.blocks x = some n₀ ∧ n.sb = n₀.sb) ∧
    ReflTransGen (PrefEdge F ts') ts'.lastAcceptedID np

variable (h : Inv W root added ts)
include h

theorem vote_spec {l : List ID} (hc : Cached W ts l)
    (ord : ℕ → ℕ → List ID → List ID) (hord : ∀ m k l, (ord m k l).Perm l) (stack : List Votes)
    (hs : VoteStack W ts (stack.map Votes.parentID)) :
    ∃ np ts' acc, vote W F params ts ord stack = some (np, ts') ∧ Inv W root added ts' ∧
      Voted W F ts l (stack.map Votes.parentID) np acc ts' := by
  cases stack with
  | nil =>
    -- no votes: a flag changes
    obtain ⟨n, hn⟩ := Option.isSome_iff_exists.mp h.last_mem
    obtain ⟨hinv, hflags⟩ := setFlag_spec h hn
    refine ⟨ts.preference, _, [], by rw [vote, hn], hinv, ?_, ?_, ?_, ?_⟩
    · rw [hflags.isSome]
      exact hc.preference_mem h
    · intro x n' hn'
      obtain ⟨n₁, hn₁, -, hkids⟩ := hflags.node hn'
      rw [hkids, childrenOf, hn₁]
    · exact ⟨List.isChain_singleton _, rfl, by simp [setBlock], by simp [setBlock], rfl, List.prefix_rfl⟩
    · intro _ hpath
      refine ⟨by simp, ?_, ?_⟩
      · intro x n' hn' _
        obtain ⟨n₁, hn₁, hsb, -⟩ := hflags.node hn'
        exact ⟨n₁, hn₁, hsb⟩
      · have hwhole : PreferredPath F ts ts.lastAcceptedID (l ++ []) := by rwa [List.append_nil]
        refine ReflTransGen.mono ?_ _ _ (hwhole.suffix F hc.preference).1
        rintro a b ⟨m, sb, hm, hsb, hpref⟩
        obtain ⟨m', hm', hsb'⟩ := hflags.node_of hm
        exact ⟨m', sb, hm', hsb'.trans hsb, hpref⟩
  | cons top stack =>
    have hhead : top.parentID = ts.lastAcceptedID := by
      exact hs.head_eq h
    have hJ : LoopInv ts [] ((top :: stack).map Votes.parentID) ts.lastAcceptedID true ts :=
      .start h hs
    have hpath : OnPath W F ts [] ((top :: stack).map Votes.parentID) ts.lastAcceptedID true ts := by
      refine ⟨fun x n hn _ => ⟨n, hn, rfl⟩, .refl, fun hne => absurd rfl hne, ?_, by simp, by simp⟩
      intro _ y hy
      rw [List.map_cons, List.head?_cons, hhead] at hy
      exact (Option.some.inj hy).symm
    obtain ⟨Q, rest, np, on, ts', hrun, hinv, hids, hJ', ⟨-, ⟨acc, hacc⟩, hOnPath⟩, hstop⟩ :=
      voteLoop_rule F params ord hord
        (fun Q rest np on ts' => Q ++ rest = (top :: stack).map Votes.parentID ∧
          (∃ acc, Advanced W ts ts' acc) ∧
          (NoSiblings W ts ((top :: stack).map Votes.parentID) → OnPath W F ts Q rest np on ts'))
        (by
          rintro Q y rest np on ts₁ pref ts₂ h₁ - hs₁ hJ₁ hy hstep ⟨hids, ⟨acc, hacc⟩, hOn⟩
          refine ⟨by simpa using hids, hacc.step F hJ₁ hstep, ?_⟩
          intro hu
          rw [← hids] at hu
          exact (hOn (hids ▸ hu)).step F h h₁ hs₁ hu hJ₁ hy hstep)
        (top :: stack) [] ts.lastAcceptedID true ts h hs hJ
        ⟨rfl, ⟨[], Advanced.refl ts⟩, fun _ => hpath⟩
    refine ⟨np, ts', acc, hrun, hinv, hJ'.preferred, hJ'.children, hacc, ?_⟩
    intro hu _
    have hOn := hOnPath hu
    rw [List.nil_append] at hids
    rw [← hids]
    refine ⟨?_, ?_, hOn.reach⟩
    · cases on with
      | false => exact hOn.off_done rfl
      | true =>
        -- the next block would be the preferred one, which is in the tree
        rcases rest with _ | ⟨y, rest⟩
        · simpa using hOn.on_done rfl
        · have hy := hOn.next rfl y rfl
          have := hstop y rfl
          rw [hy] at this
          have hpref := hJ'.preferred
          rw [this] at hpref
          cases hpref
    · intro x n hn hx
      exact hOn.untouched x n hn fun hQ => hx (List.mem_append_left _ hQ)

/-! ## The poll -/

variable {ts' : Topological U B}

/-- Below a block that got no votes, the path of preferences is the old one. -/
theorem PreferredPath.unvoted {ids : List ID} (h' : Inv W root added ts')
    (hclosed : ∀ y ∈ ids, y ≠ ts.lastAcceptedID → W.parent y ∈ ids)
    (hchildren : ∀ x n, ts'.blocks x = some n → n.children = ts.childrenOf x)
    (huntouched : ∀ x n, ts'.blocks x = some n → x ∉ ids → ∃ n₀, ts.blocks x = some n₀ ∧ n.sb = n₀.sb)
    {x : ID} (hp : PreferredPath F ts x post) (hx : x ∉ ids) (htree : (ts'.blocks x).isSome) :
    PreferredPath F ts' x post := by
  induction hp with
  | @leaf x n hn hleaf =>
    obtain ⟨n', hn'⟩ := Option.isSome_iff_exists.mp htree
    refine .leaf hn' ?_
    rw [hchildren x n' hn', childrenOf, hn]
    exact hleaf
  | @step x n sb path hn hsb _ ih =>
    obtain ⟨n', hn'⟩ := Option.isSome_iff_exists.mp htree
    obtain ⟨n₀, hn₀, hsame⟩ := huntouched x n' hn' hx
    rw [hn] at hn₀
    obtain rfl : n = n₀ := Option.some.inj hn₀
    have hsb' : n'.sb = some sb := hsame.trans hsb
    obtain ⟨-, hne, hparent, -⟩ := h.child_spec (h.preference_edge F hn hsb)
    refine .step hn' hsb' (ih ?_ (h'.child_spec (h'.preference_edge F hn' hsb')).1)
    intro hmem
    exact hx (hparent ▸ hclosed _ hmem hne)

/-- The path to a preferred block and the path from it. -/
theorem PreferredPath.join {np : ID} {up : List ID}
    (hreach : ReflTransGen (PrefEdge F ts) ts.lastAcceptedID np)
    (hup : (ts.lastAcceptedID :: up).IsChain (Edge ts))
    (hend : (ts.lastAcceptedID :: up).getLast? = some np) (hp : PreferredPath F ts np post) :
    PreferredPath F ts ts.lastAcceptedID (up ++ post) := by
  obtain ⟨up', hpath, hend'⟩ := PreferredPath.prepend F hreach hp
  have hchain := hpath.chain F h
  have hsame : up' = up :=
    chain_unique (h.extends_chain hchain.left_of_append) (h.extends_chain hup) hend' hend
  rwa [hsame] at hpath

/-- The orders of a poll visit every element once. -/
structure PollOrder.Lawful (ord : PollOrder) : Prop where
  votes : ∀ l, (ord.votes l).Perm l
  leaves : ∀ n l, (ord.leaves n l).Perm l
  children : ∀ m k l, (ord.children m k l).Perm l

variable {ord : PollOrder}

theorem collectVotes_spec (hord : ord.Lawful) (votes : Bag ID) :
    ∃ stack, collectVotes W params ts ord votes = some stack ∧
      VoteStack W ts (stack.map Votes.parentID) ∧
      (votes.len < 2 * params.alphaPreference →
        NoSiblings W ts (stack.map Votes.parentID)) := by
  unfold collectVotes
  split
  · obtain ⟨k, -, stack, hcalc, hpush, -, -, hstack, hunique⟩ :=
      voteStack_spec params h votes ord.votes hord.votes ord.leaves hord.leaves
    refine ⟨stack, ?_, hstack, hunique⟩
    rw [hcalc]
    exact hpush
  · exact ⟨[], rfl, ⟨List.nodup_nil, by simp, by simp, List.Pairwise.nil⟩, by simp [NoSiblings]⟩

/-- `RecordPoll` returns, takes no decision back and keeps the cache a path of the tree. With
fewer than `2 * AlphaPreference` votes it keeps it the preferred path. -/
theorem recordPoll_spec {l : List ID} (hc : Cached W ts l) (hord : ord.Lawful) (votes : Bag ID) :
    ∃ ts' l', recordPoll W F params ts ord votes = some ts' ∧ Inv W root added ts' ∧
      ts.log <+: ts'.log ∧ Cached W ts' l' ∧ (votes.len < 2 * params.alphaPreference →
        PreferredPath F ts ts.lastAcceptedID l → PreferredPath F ts' ts'.lastAcceptedID l') := by
  obtain ⟨stack, hstack, hs, hu⟩ := collectVotes_spec params h hord votes
  obtain ⟨np, ts₁, acc, hvote, h₁, hv⟩ := vote_spec F params h hc ord.children hord.children stack hs
  have hpoll : recordPoll W F params ts ord votes = updatePreference W F ts₁ np := by
    rw [recordPoll, hstack]
    simp only [bind, Option.bind, hvote]
  rw [hpoll, updatePreference]
  by_cases hmem : np ∈ ts₁.preferredIDs
  · rw [if_pos hmem]
    obtain ⟨up, post, hl, hup, hend, hc₁⟩ :=
      hc.shortcut h h₁ hv.advanced hv.children hv.preferred hmem
    refine ⟨ts₁, up ++ post, rfl, h₁, hv.advanced.log, hc₁, ?_⟩
    intro hlen hpath
    obtain ⟨hnp, huntouched, hreach⟩ := hv.branch (hu hlen) hpath
    -- the old path from the preferred block on is still the preferred one
    have hold : PreferredPath F ts np post := by
      rw [hl, ← List.append_assoc] at hpath
      refine (hpath.suffix F ?_).2
      rw [getLast?_append_of_last hv.advanced.last]
      exact hend
    exact PreferredPath.join F h₁ hreach hup hend
      (hold.unvoted F h h₁ hs.closed hv.children huntouched hnp hv.preferred)
  · rw [if_neg hmem]
    obtain ⟨ts₂, ts₃, up, path, hrun₂, hrun₃, h₃, hblocks, hlast, hup, hend, hpath₁, hc₃, hlog⟩ :=
      rebuild_spec F h₁ hv.preferred
    refine ⟨ts₃, up ++ path, ?_, h₃, hlog ▸ hv.advanced.log, hc₃, ?_⟩
    · rw [hrun₂]
      exact hrun₃
    · intro hlen hpath
      obtain ⟨-, -, hreach⟩ := hv.branch (hu hlen) hpath
      rw [hlast]
      exact (PreferredPath.join F h₁ hreach hup hend hpath₁).congr F hblocks

end Topological

end Titan.Snow
