import Titan.ProposerVM.Node

/-!
# Titan.ProposerVM.Retained — the wrappers that a database holds

`Stored` says what the database holds whenever the node may crash: the wrappers from a
lowest height `lo` to the last accepted one, and above it only wrappers of the same chain
that are left from before a roll back. Deleting old blocks and accepting the next one keep
it, commit by commit.
-/

namespace Titan.ProposerVM

open Lib
open PChain (ID)

variable {chain : Chain}

theorem sub64_of_le {a b : ℕ} (ha : a < 2 ^ 64) (h : b ≤ a) : sub64 a b = a - b := by
  unfold sub64
  omega

/-! ## What is stored -/

/-- The index holds blocks of the chain. -/
def Sound (chain : Chain) (db : State) : Prop :=
  ∀ ⦃x : ℕ⦄ ⦃id : ID⦄, db.heights.lookup x = some id → chain.forkHeight ≤ x ∧ x < 2 ^ 64 ∧
    id = (chain.outer x).id ∧ db.blocks.lookup id = some (chain.outer x)

/-- The wrappers up to the last accepted one are there from a lowest height on. -/
structure At (chain : Chain) (db : State) (lo last : ℕ) : Prop where
  sound : Sound chain db
  fork : db.forkHeight = some chain.forkHeight
  accepted : db.lastAccepted = some (chain.outer last).id
  le : lo ≤ last
  present : ∀ x, lo ≤ x → x ≤ last → db.heights.lookup x = some (chain.outer x).id
  deleted : ∀ x, x < lo → db.heights.lookup x = none
  /-- The parent of an option is there. -/
  parent : (chain.outer last).timestamp = none → lo < last

/-- No wrapper is accepted. -/
structure Before (chain : Chain) (db : State) (innerHeight : ℕ) : Prop where
  sound : Sound chain db
  fork : db.forkHeight = none ∨ db.forkHeight = some chain.forkHeight
  accepted : db.lastAccepted = none
  lt : innerHeight < chain.forkHeight

/-- What the database holds while the inner VM is at a height. The last accepted wrapper is not
below it, and not above `top`. -/
inductive Stored (chain : Chain) (db : State) (innerHeight top : ℕ) : Prop
  | before (h : Before chain db innerHeight)
  | after {lo last : ℕ} (h : At chain db lo last) (hle : innerHeight ≤ last) (htop : last ≤ top)

namespace At

variable {db : State} {lo last : ℕ}

variable (h : At chain db lo last)
include h

theorem fork_le : chain.forkHeight ≤ lo := (h.sound (h.present lo (le_refl _) h.le)).1

theorem last_lt : last < 2 ^ 64 := (h.sound (h.present last h.le (le_refl _))).2.1

theorem fork_le_last : chain.forkHeight ≤ last := h.fork_le.trans h.le

theorem block {x : ℕ} (hlo : lo ≤ x) (hx : x ≤ last) :
    db.blocks.lookup (chain.outer x).id = some (chain.outer x) := (h.sound (h.present x hlo hx)).2.2.2

theorem retains_iff {x : ℕ} (hx : x ≤ last) : Node.Retains db x ↔ lo ≤ x := by
  unfold Node.Retains
  constructor
  · intro hsome
    by_contra hlt
    rw [h.deleted x (not_le.mp hlt)] at hsome
    cases hsome
  · intro hlo
    rw [h.present x hlo hx]
    rfl

/-- The lowest height is the least one in the index. -/
theorem ceil_eq : ceil db.heights 0 = some (lo, (chain.outer lo).id) := by
  have hlo := h.present lo (le_refl _) h.le
  rcases hceil : ceil db.heights 0 with _ | ⟨x, id⟩
  · exact absurd (ceil_eq_none.mp hceil lo _ hlo) (Nat.not_lt_zero _)
  · rcases ceil_eq_some hceil with ⟨hx, -, hleast⟩
    have hle : x ≤ lo := hleast lo _ hlo (Nat.zero_le _)
    have hge : lo ≤ x := by
      by_contra hlt
      rw [h.deleted x (not_le.mp hlt)] at hx
      cases hx
    have heq : x = lo := le_antisymm hle hge
    subst heq
    rw [hlo] at hx
    cases hx
    rfl

/-- There are at least as many heights as there are wrappers to the last accepted one. -/
theorem length_keys : last - lo < db.heights.keys.length := by
  have hsubset : List.range' lo (last - lo + 1) ⊆ db.heights.keys := by
    intro x hx
    rw [List.mem_range'_1] at hx
    have hpresent := h.present x hx.1 (by have := h.le; omega)
    exact AList.lookup_isSome.mp (by rw [hpresent]; rfl)
  have hlength := (List.Nodup.subperm (List.nodup_range' 1) hsubset).length_le
  rw [List.length_range'] at hlength
  omega

/-- The last accepted block is set back. -/
theorem rollback {height : ℕ} (hlo : lo ≤ height) (hheight : height ≤ last)
    (hparent : (chain.outer height).timestamp = none → lo < height) :
    At chain { db with lastAccepted := some (chain.outer height).id } lo height where
  sound := h.sound
  fork := h.fork
  accepted := rfl
  le := hlo
  present x hx hx' := h.present x hx (hx'.trans hheight)
  deleted := h.deleted
  parent := hparent

/-- The lowest height is deleted. -/
theorem delete (hlt : lo + 1 < last) :
    At chain { db with heights := db.heights.erase lo, blocks := db.blocks.erase (chain.outer lo).id } (lo + 1) last := by
  refine ⟨fun x id hx => ?_, h.fork, h.accepted, by omega, fun x hlo hx => ?_, fun x hx => ?_, fun _ => hlt⟩
  · rw [lookup_erase_ite] at hx
    split at hx
    next => cases hx
    next hne =>
      rcases h.sound hx with ⟨hfork, hlt64, hid, hblock⟩
      refine ⟨hfork, hlt64, hid, ?_⟩
      rw [lookup_erase_ite, if_neg, hblock]
      rw [hid]
      exact fun heq => hne (chain.id_inj _ _ hfork hlt64 h.fork_le (h.le.trans_lt h.last_lt) heq)
  · rw [lookup_erase_ite, if_neg (by omega)]
    exact h.present x (by omega) hx
  · rw [lookup_erase_ite]
    split
    next => rfl
    next hne => exact h.deleted x (by omega)

end At

/-! ## Pruning -/

/-- What deleting leaves: the lowest height moves up, as long as enough blocks stay. -/
structure Pruned (chain : Chain) (n lo last : ℕ) (db db' : State) : Prop where
  stored : ∃ lo', At chain db' lo' last ∧ lo ≤ lo' ∧ (lo = lo' ∨ lo' + n ≤ last)
  kept : ∀ x, Node.Retains db x → ¬ Node.Retains db' x → n ≠ 0 ∧ x + n < last

variable {lo last : ℕ} {db : State}

theorem Pruned.refl {n : ℕ} (h : At chain db lo last) : Pruned chain n lo last db db :=
  ⟨⟨lo, h, le_refl _, .inl rfl⟩, fun _ hx hx' => absurd hx hx'⟩

/-- What the loop leaves of a VM that committed `commits` before it. -/
structure Looped (chain : Chain) (vm : VM) (commits : List State) (lo last : ℕ) (vm' : VM) : Prop where
  numHistoricalBlocks : vm'.numHistoricalBlocks = vm.numHistoricalBlocks
  height : vm'.lastAcceptedHeight = vm.lastAcceptedHeight
  time : vm'.lastAcceptedTime = vm.lastAcceptedTime
  head : vm'.commits.head? = some vm'.state
  commits : ∀ db ∈ vm'.commits, db ∈ commits ∨ Pruned chain vm.numHistoricalBlocks lo last vm.state db
  stored : ∃ lo', At chain vm'.state lo' last ∧ last ≤ lo' + vm.numHistoricalBlocks

/-- The loop deletes heights from the lowest one on; after each commit the rest is stored. -/
theorem pruneLoop_spec {fuel : ℕ} (vm : VM) (hat : At chain vm.state lo last)
    (hheight : vm.lastAcceptedHeight = last) (hn : vm.numHistoricalBlocks ≠ 0)
    (hfuel : last - lo < fuel) :
    ∃ vm', VM.pruneLoop fuel lo vm = (vm', none) ∧ Looped chain vm vm.commits lo last vm' := by
  induction fuel generalizing lo vm with
  | zero => cases hfuel
  | succ fuel ih =>
    have hsub : sub64 vm.lastAcceptedHeight lo = last - lo := by
      rw [hheight]
      exact sub64_of_le hat.last_lt hat.le
    unfold VM.pruneLoop
    rw [hsub]
    by_cases hmore : vm.numHistoricalBlocks < last - lo
    · rw [if_pos hmore, hat.present lo (le_refl _) hat.le]
      dsimp only
      have hnext : (lo + 1) % 2 ^ 64 = lo + 1 := Nat.mod_eq_of_lt (by have := hat.last_lt; omega)
      have hat' := hat.delete (by omega)
      rw [hnext]
      -- what one round deletes is far enough below
      have hround : ∀ {db : State}, Pruned chain vm.numHistoricalBlocks (lo + 1) last
          (vm.deleteAtHeight lo (chain.outer lo).id).state db →
          Pruned chain vm.numHistoricalBlocks lo last vm.state db := by
        intro db hdb
        rcases hdb.stored with ⟨lo', hstored, hle, hlo'⟩
        refine ⟨⟨lo', hstored, by omega, .inr ?_⟩, fun x hx hx' => ?_⟩
        · rcases hlo' with rfl | hlo'
          · omega
          · exact hlo'
        · by_cases hlo : x = lo
          · exact ⟨hn, by omega⟩
          · refine hdb.kept x ?_ hx'
            unfold Node.Retains VM.deleteAtHeight
            rw [lookup_erase_ite, if_neg hlo]
            exact hx
      have hrec : ∀ commits, ∃ vm', VM.pruneLoop fuel (lo + 1)
          { vm.deleteAtHeight lo (chain.outer lo).id with commits := commits } = (vm', none) ∧
          Looped chain vm commits lo last vm' := by
        intro commits
        rcases ih { vm.deleteAtHeight lo (chain.outer lo).id with commits := commits } hat' hheight hn
          (by omega) with ⟨vm', hloop, hlooped⟩
        refine ⟨vm', hloop, { hlooped with commits := fun db hdb => ?_ }⟩
        rcases hlooped.commits db hdb with hold | hnew
        · exact .inl hold
        · exact .inr (hround hnew)
      split
      next => exact hrec vm.commits
      next =>
        rcases hrec ((vm.deleteAtHeight lo (chain.outer lo).id).state :: vm.commits) with
          ⟨vm', hloop, hlooped⟩
        refine ⟨vm', hloop, { hlooped with commits := fun db hdb => ?_ }⟩
        rcases hlooped.commits db hdb with hold | hnew
        · rcases List.mem_cons.mp hold with rfl | hold
          · exact .inr (hround (Pruned.refl hat'))
          · exact .inl hold
        · exact .inr hnew
    · rw [if_neg hmore]
      refine ⟨vm.commit, rfl, rfl, rfl, rfl, rfl, fun db hdb => ?_, lo, hat, by omega⟩
      rcases List.mem_cons.mp hdb with rfl | hold
      · exact .inr (.refl hat)
      · exact .inl hold

/-! ## Accepting the next block -/

/-- What is in memory about the last accepted block. The time of a signed one is only known if it
was accepted after the start. -/
structure Loaded (chain : Chain) (vm : VM) (startHeight last : ℕ) : Prop where
  height : vm.lastAcceptedHeight = last
  time_option : (chain.outer last).timestamp = none →
    (chain.outer (last - 1)).timestamp = some vm.lastAcceptedTime
  time_signed : startHeight < last → ∀ t, (chain.outer last).timestamp = some t → vm.lastAcceptedTime = t

/-- What a VM that has started keeps. -/
inductive Ready (chain : Chain) (vm : VM) (startHeight last : ℕ) : Prop
  | before (h : Before chain vm.state last)
  | after {lo : ℕ} (h : At chain vm.state lo last) (hloaded : Loaded chain vm startHeight last)
      (hpruned : vm.numHistoricalBlocks ≠ 0 → last ≤ lo + vm.numHistoricalBlocks)

/-- The state with one more block. -/
def State.extend (db : State) (forkHeight : ℕ) (blk : Block) : State where
  lastAccepted := some blk.id
  blocks := db.blocks.insert blk.id blk
  heights := db.heights.insert blk.height blk.id
  forkHeight := some forkHeight

theorem Sound.extend (h : Sound chain db) {next : ℕ} (hnext : chain.forkHeight ≤ next)
    (hlt : next < 2 ^ 64) : Sound chain (db.extend chain.forkHeight (chain.outer next)) := by
  intro x id hx
  unfold State.extend at hx ⊢
  rw [lookup_insert_ite, chain.height_outer hnext] at hx
  split at hx
  next heq =>
    cases hx
    subst heq
    exact ⟨hnext, hlt, rfl, AList.lookup_insert _⟩
  next hne =>
    rcases h hx with ⟨hfork, hlt64, hid, hblock⟩
    refine ⟨hfork, hlt64, hid, ?_⟩
    rw [lookup_insert_ite, if_neg, hblock]
    rw [hid]
    exact fun heq => hne (chain.id_inj _ _ hfork hlt64 hnext hlt heq)

theorem lookup_extend {next : ℕ} (hnext : chain.forkHeight ≤ next) (x : ℕ) :
    (db.extend chain.forkHeight (chain.outer next)).heights.lookup x =
      if x = next then some (chain.outer next).id else db.heights.lookup x := by
  unfold State.extend
  rw [lookup_insert_ite, chain.height_outer hnext]

theorem Before.extend (h : Before chain db last) (hnext : chain.forkHeight ≤ last + 1)
    (hlt : last + 1 < 2 ^ 64) :
    At chain (db.extend chain.forkHeight (chain.outer (last + 1))) (last + 1) (last + 1) := by
  have hfork : chain.forkHeight = last + 1 := by
    have := h.lt
    omega
  refine ⟨h.sound.extend hnext hlt, rfl, rfl, le_refl _, fun x hlo hx => ?_, fun x hx => ?_, fun hoption => ?_⟩
  · have heq : x = last + 1 := le_antisymm hx hlo
    rw [lookup_extend hnext, if_pos heq, heq]
  · rw [lookup_extend hnext, if_neg (by omega)]
    -- what is left from before a roll back is above the fork
    rcases hlookup : db.heights.lookup x with _ | id
    · rfl
    · have hle := (h.sound hlookup).1
      omega
  · have hpos := (chain.option_parent _ hnext hoption).1
    omega

theorem At.extend (h : At chain db lo last) (hlt : last + 1 < 2 ^ 64) :
    At chain (db.extend chain.forkHeight (chain.outer (last + 1))) lo (last + 1) := by
  have hnext : chain.forkHeight ≤ last + 1 := h.fork_le_last.trans (Nat.le_succ _)
  have hle := h.le
  refine ⟨h.sound.extend hnext hlt, rfl, rfl, by omega, fun x hlo hx => ?_, fun x hx => ?_, fun _ => by omega⟩
  · rw [lookup_extend hnext]
    split
    next heq => rw [heq]
    next hne => exact h.present x hlo (by omega)
  · rw [lookup_extend hnext, if_neg (by omega)]
    exact h.deleted x hx

/-- Deleted heights are far enough below the last accepted one. -/
def Keeps (chain : Chain) (n last : ℕ) (db db' : State) : Prop :=
  ∀ x, Node.Retains db x → ¬ Node.Retains db' x → (n ≠ 0 ∧ x + n < last) ∧ ∃ lo, At chain db' lo last

theorem Pruned.keeps {n : ℕ} {db' : State} (h : Pruned chain n lo last db db') :
    Keeps chain n last db db' := by
  intro x hx hx'
  rcases h.stored with ⟨lo', hat, -⟩
  exact ⟨h.kept x hx hx', lo', hat⟩

/-- `updateHeightIndex` deletes the lowest height if it has become too old. -/
theorem updateHeightIndex_spec (vm : VM) (hfork : vm.state.forkHeight.getD last = chain.forkHeight)
    (hat : At chain { vm.state with forkHeight := some chain.forkHeight, heights := vm.state.heights.insert last (chain.outer last).id } lo last)
    (hpruned : vm.numHistoricalBlocks ≠ 0 → last ≤ lo + vm.numHistoricalBlocks + 1) :
    ∃ lo' db, vm.updateHeightIndex last (chain.outer last).id = { vm with state := db } ∧ At chain db lo' last ∧
      (vm.numHistoricalBlocks ≠ 0 → last ≤ lo' + vm.numHistoricalBlocks) ∧
      ∀ x, Node.Retains { vm.state with
          forkHeight := some chain.forkHeight, heights := vm.state.heights.insert last (chain.outer last).id } x →
        ¬ Node.Retains db x → vm.numHistoricalBlocks ≠ 0 ∧ x + vm.numHistoricalBlocks < last := by
  have hlast := hat.last_lt
  have hle := hat.le
  have hforkLo := hat.fork_le
  have hforkLast : sub64 last chain.forkHeight = last - chain.forkHeight := sub64_of_le hlast hat.fork_le_last
  unfold VM.updateHeightIndex
  rw [hfork]
  dsimp only
  by_cases hn : vm.numHistoricalBlocks = 0
  · rw [if_pos hn]
    exact ⟨lo, _, rfl, hat, fun h => absurd hn h, fun _ hx hx' => absurd hx hx'⟩
  · rw [if_neg hn, hforkLast]
    by_cases hnear : last - chain.forkHeight ≤ vm.numHistoricalBlocks
    · rw [if_pos hnear]
      exact ⟨lo, _, rfl, hat, fun _ => by omega, fun _ hx hx' => absurd hx hx'⟩
    · rw [if_neg hnear]
      have hdelete : sub64 (sub64 last vm.numHistoricalBlocks) 1 = last - vm.numHistoricalBlocks - 1 := by
        rw [sub64_of_le hlast (by omega), sub64_of_le (by omega) (by omega)]
      rw [hdelete]
      by_cases hold : last = lo + vm.numHistoricalBlocks + 1
      · have hlo : last - vm.numHistoricalBlocks - 1 = lo := by omega
        rw [hlo, hat.present lo (le_refl _) hle]
        refine ⟨lo + 1, _, rfl, hat.delete (by omega), fun _ => by omega, fun x hx hx' => ⟨hn, ?_⟩⟩
        by_contra hfar
        apply hx'
        unfold Node.Retains at hx ⊢
        rw [lookup_erase_ite, if_neg (by omega)]
        exact hx
      · rw [hat.deleted (last - vm.numHistoricalBlocks - 1) (by omega)]
        exact ⟨lo, _, rfl, hat, fun _ => by omega, fun _ hx hx' => absurd hx hx'⟩

/-- Accepting the next block. -/
theorem acceptPostForkBlock_spec {vm : VM} {startHeight : ℕ}
    (hready : Ready chain vm startHeight last) (hnext : chain.forkHeight ≤ last + 1)
    (hlt : last + 1 < 2 ^ 64) :
    ∃ lo db, vm.acceptPostForkBlock (chain.outer (last + 1)) =
        { vm with
          state := db
          commits := db :: vm.commits
          lastAcceptedHeight := last + 1
          lastAcceptedTime := (chain.outer (last + 1)).timestamp.getD vm.lastAcceptedTime } ∧
      At chain db lo (last + 1) ∧ (vm.numHistoricalBlocks ≠ 0 → last + 1 ≤ lo + vm.numHistoricalBlocks) ∧
      Keeps chain vm.numHistoricalBlocks (last + 1) vm.state db := by
  have hheight := chain.height_outer hnext
  have hextend : ∃ lo, At chain (vm.state.extend chain.forkHeight (chain.outer (last + 1))) lo (last + 1) ∧
      vm.state.forkHeight.getD (last + 1) = chain.forkHeight ∧
      (vm.numHistoricalBlocks ≠ 0 → last + 1 ≤ lo + vm.numHistoricalBlocks + 1) := by
    cases hready with
    | before h =>
      refine ⟨last + 1, h.extend hnext hlt, ?_, fun _ => by omega⟩
      rcases h.fork with hnone | hsome
      · rw [hnone]
        have := h.lt
        show last + 1 = chain.forkHeight
        omega
      · rw [hsome]
        rfl
    | after h _ hpruned =>
      refine ⟨_, h.extend hlt, by rw [h.fork]; rfl, fun hn => ?_⟩
      omega
  rcases hextend with ⟨lo, hat, hfork, hpruned⟩
  unfold State.extend at hat
  rw [hheight] at hat
  rcases updateHeightIndex_spec { vm with
      lastAcceptedTime := (chain.outer (last + 1)).timestamp.getD vm.lastAcceptedTime
      lastAcceptedHeight := last + 1
      state := { vm.state with
        lastAccepted := some (chain.outer (last + 1)).id
        blocks := vm.state.blocks.insert (chain.outer (last + 1)).id (chain.outer (last + 1)) } }
      hfork hat hpruned with ⟨lo', db, hupdate, hat', hpruned', hkept⟩
  refine ⟨lo', db, ?_, hat', hpruned', fun x hx hx' => ⟨hkept x ?_ hx', lo', hat'⟩⟩
  · unfold VM.acceptPostForkBlock
    rw [hheight]
    dsimp only
    rw [hupdate]
    rfl
  · unfold Node.Retains at hx ⊢
    rw [lookup_insert_ite]
    split
    next => rfl
    next => exact hx

end Titan.ProposerVM
