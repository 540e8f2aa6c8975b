import Titan.Lib.Store
import Titan.PChain.Types

/-!
# Titan.Genesis.Config — from a configuration to the genesis state

`validateConfig` checks a configuration, and `fromConfig` builds the genesis state of the
P-chain from it (`genesis/genesis.go`, `genesis/config.go`, `platformvm/genesis/genesis.go`).

* Amounts are natural numbers, with the wrap-around of `uint64` where the source does not
  check. Times and durations are 64-bit words, as they are read as signed ones.
* The wall clock is an argument. The order of the validators in the heap is any.
* An index that is out of range is the error `indexOutOfRange`, a panic of the source.

An address stands for its formatted text. Not modelled: the X-chain's genesis beyond the
amounts it is given, the chains, the codec and the messages to owners. They are assumed to be
built without an error.
-/

namespace Titan.Genesis

open Lib
open PChain (NodeID)

/-- `ids.ShortID`. -/
abbrev Address := Fin (2 ^ 160)

inductive Error
  | conflictingNetworkIDs
  | overflow
  | noSupply
  | futureStartTime
  | noStakeDuration
  | stakeDurationTooHigh
  | noStakers
  | initialStakeDurationTooLow (offsetTimeRequired : BitVec 64)
  | noInitiallyStakedFunds
  | duplicateInitiallyStakedAddress (address : Address)
  | noAllocationToStake (address : Address)
  | allocationsLockedAmountTooLow (totalLocked stakersCount : ℕ)
  | noCChainGenesis
  | utxoHasNoValue
  | stakeOverflow
  | validatorHasNoWeight
  | validatorAlreadyExited
  | indexOutOfRange
deriving DecidableEq

/-! ## Times -/

/-- `time.Time`: seconds since the year 1 and nanoseconds. -/
structure Time where
  sec : BitVec 64
  nsec : ℤ

namespace Time

/-- The seconds from the year 1 to 1970. -/
def unixToInternal : BitVec 64 := 62135596800

def ofUnix (sec : BitVec 64) : Time := ⟨sec + unixToInternal, 0⟩

def unix (t : Time) : BitVec 64 := t.sec - unixToInternal

def before (t u : Time) : Prop := t.sec.toInt < u.sec.toInt ∨ t.sec = u.sec ∧ t.nsec < u.nsec

instance (t u : Time) : Decidable (t.before u) := inferInstanceAs (Decidable (_ ∨ _))

/-- Seconds are added up to the limits of the type. -/
def addSec (sec : BitVec 64) (d : ℤ) : BitVec 64 :=
  let sum := sec + BitVec.ofInt 64 d
  if decide (sec.toInt < sum.toInt) = decide (0 < d) then sum
  else if 0 < d then 2 ^ 63 - 1 else -(2 ^ 63 - 1)

def add (t : Time) (d : BitVec 64) : Time :=
  let dsec := d.toInt.tdiv (10 ^ 9)
  let nsec := t.nsec + d.toInt.tmod (10 ^ 9)
  if 10 ^ 9 ≤ nsec then ⟨addSec t.sec (dsec + 1), nsec - 10 ^ 9⟩
  else if nsec < 0 then ⟨addSec t.sec (dsec - 1), nsec + 10 ^ 9⟩
  else ⟨addSec t.sec dsec, nsec⟩

end Time

/-- `time.Second`. -/
def second : BitVec 64 := 1000000000

/-! ## Configurations -/

structure LockedAmount where
  amount : ℕ
  locktime : ℕ
deriving DecidableEq

structure Allocation where
  ethAddr : Address
  avaxAddr : Address
  initialAmount : ℕ
  unlockSchedule : List LockedAmount
deriving DecidableEq

structure Staker where
  nodeID : NodeID
  rewardAddress : Address
  delegationFee : ℕ
  signer : Option (List UInt8)

structure Config where
  networkID : ℕ
  allocations : List Allocation
  startTime : BitVec 64
  initialStakeDuration : BitVec 64
  initialStakeDurationOffset : BitVec 64
  initialStakedFunds : List Address
  initialStakers : List Staker
  cChainGenesis : String
  message : String

structure StakingConfig where
  /-- `uint64(MaxStakeDuration.Seconds())`. -/
  maxStakeSeconds : ℕ
  /-- Durations are below `2 ^ 63` nanoseconds. -/
  bounded : maxStakeSeconds * 10 ^ 9 < 2 ^ 63

namespace Config

variable (config : Config)

def songbirdID : ℕ := 5

def costonID : ℕ := 7

def localID : ℕ := 12345

/-- The supply of the network is computed from its allocations. -/
def ComputesSupply : Prop :=
  config.networkID ≠ songbirdID ∧ config.networkID ≠ costonID ∧ config.networkID ≠ localID

instance : Decidable config.ComputesSupply := inferInstanceAs (Decidable (_ ∧ _ ∧ _))

/-- One round of the loop of `InitialSupply`. -/
def addSupply (initialSupply : ℕ) (allocation : Allocation) : Except Error ℕ := do
  let newInitialSupply ← checkedAdd .overflow initialSupply allocation.initialAmount
  allocation.unlockSchedule.foldlM (fun supply unlock => checkedAdd .overflow supply unlock.amount) newInitialSupply

def initialSupply : Except Error ℕ :=
  if config.ComputesSupply then config.allocations.foldlM addSupply 0 else .ok 1

def validateInitialStakedFunds : Except Error Unit := do
  ensure (config.initialStakedFunds ≠ []) .noInitiallyStakedFunds
  checkFunds config.initialStakedFunds []
where
  /-- The loop over the staked funds. -/
  checkFunds : List Address → (initialStakedFundsSet : List Address) → Except Error Unit
    | [], _ => .ok ()
    | staker :: rest, seen => do
        ensure (staker ∉ seen) (.duplicateInitiallyStakedAddress staker)
        ensure (staker ∈ config.allocations.map (·.avaxAddr)) (.noAllocationToStake staker)
        checkFunds rest (staker :: seen)

/-- The unchecked sum of the locked amounts. -/
def sumLocked (allocations : List Allocation) : ℕ :=
  allocations.foldl (fun total allocation =>
    allocation.unlockSchedule.foldl (fun total unlock => (total + unlock.amount) % 2 ^ 64) total) 0

def validateAllocationsLockedAmount : Except Error Unit :=
  let totalLocked := sumLocked config.allocations
  let stakersCount := config.initialStakers.length
  ensure (stakersCount ≤ totalLocked) (.allocationsLockedAmountTooLow totalLocked stakersCount)

def validateConfig (networkID : ℕ) (stakingCfg : StakingConfig) (now : Time) : Except Error Unit := do
  ensure (networkID = config.networkID) .conflictingNetworkIDs
  let initialSupply ← config.initialSupply
  ensure (initialSupply ≠ 0) .noSupply
  -- time.Since is negative before the time
  ensure (¬ now.before (.ofUnix config.startTime)) .futureStartTime
  ensure (config.initialStakeDuration ≠ 0) .noStakeDuration
  ensure (config.initialStakeDuration.toNat ≤ stakingCfg.maxStakeSeconds) .stakeDurationTooHigh
  ensure (config.initialStakers.length ≠ 0) .noStakers
  let offsetTimeRequired :=
    config.initialStakeDurationOffset * BitVec.ofNat 64 (config.initialStakers.length - 1)
  ensure (offsetTimeRequired ≤ config.initialStakeDuration) (.initialStakeDurationTooLow offsetTimeRequired)
  config.validateInitialStakedFunds
  config.validateAllocationsLockedAmount
  ensure (config.cChainGenesis.length ≠ 0) .noCChainGenesis

end Config

/-! ## Splitting the staked allocations -/

/-- The variables of the loops of `splitAllocations`. -/
structure Split where
  allNodeAllocations : List (List Allocation)
  currentNodeAllocation : List Allocation
  currentNodeAmount : ℕ
  /-- `currentAllocation.UnlockSchedule`. -/
  current : List LockedAmount

namespace Split

variable (nodeWeight : ℕ) (allocation : Allocation)

/-- `currentAllocation`. -/
def currentAllocation (s : Split) : Allocation :=
  { allocation with initialAmount := 0, unlockSchedule := s.current }

/-- The innermost loop, in which `amount` is left of an unlock entry and at most `fuel` nodes
can be completed. -/
def cut (locktime : ℕ) : (fuel : ℕ) → Split → (amount : ℕ) → Split × ℕ
  | 0, s, amount => (s, amount)
  | fuel + 1, s, amount =>
    if nodeWeight < (s.currentNodeAmount + amount) % 2 ^ 64 then
      let amountToAdd := (nodeWeight + 2 ^ 64 - s.currentNodeAmount) % 2 ^ 64
      let s : Split := { s with current := s.current ++ [⟨amountToAdd, locktime⟩] }
      cut locktime fuel
        ⟨s.allNodeAllocations ++ [s.currentNodeAllocation ++ [s.currentAllocation allocation]], [], 0, []⟩
        ((amount + 2 ^ 64 - amountToAdd) % 2 ^ 64)
    else (s, amount)

def addUnlock (numSplits : ℕ) (s : Split) (unlock : LockedAmount) : Split :=
  let (s, amount) :=
    cut nodeWeight allocation unlock.locktime (numSplits - 1 - s.allNodeAllocations.length) s unlock.amount
  if amount = 0 then s
  else
    { s with
      current := s.current ++ [⟨amount, unlock.locktime⟩]
      currentNodeAmount := (s.currentNodeAmount + amount) % 2 ^ 64 }

def addAllocation (numSplits : ℕ) (s : Split) (allocation : Allocation) : Split :=
  let s := allocation.unlockSchedule.foldl (addUnlock nodeWeight allocation numSplits) { s with current := [] }
  if 0 < s.current.length then
    { s with currentNodeAllocation := s.currentNodeAllocation ++ [s.currentAllocation allocation] }
  else s

end Split

def splitAllocations (allocations : List Allocation) (numSplits : ℕ) : List (List Allocation) :=
  if numSplits = 0 then []
  else
    let nodeWeight := Config.sumLocked allocations / numSplits
    let s := allocations.foldl (Split.addAllocation nodeWeight numSplits) ⟨[], [], 0, []⟩
    s.allNodeAllocations ++ [s.currentNodeAllocation]

/-! ## The genesis state -/

/-- `genesis.Allocation` of the P-chain. -/
structure PAllocation where
  locktime : ℕ
  amount : ℕ
  address : Address
  message : Address
deriving DecidableEq

/-- `Compare`. -/
def PAllocation.le (a b : PAllocation) : Prop :=
  a.locktime < b.locktime ∨ a.locktime = b.locktime ∧
    (a.amount < b.amount ∨ a.amount = b.amount ∧ a.address ≤ b.address)

instance (a b : PAllocation) : Decidable (a.le b) := inferInstanceAs (Decidable (_ ∨ _))

/-- A transfer output, in a `stakeable.LockOut` if it has a locktime. -/
structure Output where
  amount : ℕ
  address : Address
  locktime : Option ℕ
deriving DecidableEq

structure PValidator where
  nodeID : NodeID
  endTime : BitVec 64
  rewardAddress : Address
  staked : List PAllocation
  delegationFee : ℕ
  signer : Option (List UInt8)

/-- The transaction that adds a validator. -/
structure ValidatorTx where
  nodeID : NodeID
  start : BitVec 64
  endTime : BitVec 64
  weight : ℕ
  stakeOuts : List Output
  rewardsOwner : Address
  delegationShares : ℕ
  signer : Option (List UInt8)

structure State where
  utxos : List (Output × Address)
  validators : List ValidatorTx
  timestamp : BitVec 64
  initialSupply : ℕ
  message : String

def PAllocation.output (time : BitVec 64) (a : PAllocation) : Output :=
  ⟨a.amount, a.address, if time.toNat < a.locktime then some a.locktime else none⟩

def newUTXO (time : BitVec 64) (allocation : PAllocation) : Except Error (Output × Address) := do
  ensure (allocation.amount ≠ 0) .utxoHasNoValue
  return (allocation.output time, allocation.message)

def newValidator (time : BitVec 64) (vdr : PValidator) : Except Error ValidatorTx := do
  let staked := vdr.staked.insertionSort PAllocation.le
  let weight ← staked.foldlM (fun weight allocation => checkedAdd .stakeOverflow weight allocation.amount) 0
  ensure (weight ≠ 0) .validatorHasNoWeight
  ensure (time < vdr.endTime) .validatorAlreadyExited
  return ⟨vdr.nodeID, time, vdr.endTime, weight, staked.map (·.output time), vdr.rewardAddress, vdr.delegationFee,
    vdr.signer⟩

/-- `New`; `heap` is the order in which the heap lists the validators. -/
def newState (heap : Walk ValidatorTx) (allocations : List PAllocation) (validators : List PValidator)
    (time : BitVec 64) (initialSupply : ℕ) (message : String) : Except Error State := do
  let utxos ← allocations.mapM (newUTXO time)
  let vdrs ← validators.mapM (newValidator time)
  return ⟨utxos, heap.order vdrs, time, initialSupply, message⟩

namespace Config

variable (config : Config)

/-- The amounts and owners on the X-chain. -/
def xAllocations : List (ℕ × Address) :=
  ((config.allocations.filter (0 < ·.initialAmount)).map fun a => (a.initialAmount, a.avaxAddr)).insertionSort
    fun a b => a.1 < b.1 ∨ a.1 = b.1 ∧ a.2 ≤ b.2

def staked : List Allocation := config.allocations.filter (·.avaxAddr ∈ config.initialStakedFunds)

def unstaked : List Allocation := config.allocations.filter (·.avaxAddr ∉ config.initialStakedFunds)

def platformAllocations : List PAllocation :=
  config.unstaked.flatMap fun allocation =>
    (allocation.unlockSchedule.filter (0 < ·.amount)).map fun unlock =>
      ⟨unlock.locktime, unlock.amount, allocation.avaxAddr, allocation.ethAddr⟩

/-- The end of the time of a staker. -/
def endStakingTime (stakingOffset : BitVec 64) : BitVec 64 :=
  (((Time.ofUnix config.startTime).add (config.initialStakeDuration * second)).add (-stakingOffset)).unix

def stakedBy (nodeAllocations : List Allocation) : List PAllocation :=
  nodeAllocations.flatMap fun allocation => allocation.unlockSchedule.map fun unlock =>
    ⟨unlock.locktime, unlock.amount, allocation.avaxAddr, allocation.ethAddr⟩

/-- The loop over the initial stakers. -/
def buildValidators : List Staker → (allNodeAllocations : List (List Allocation)) → (stakingOffset : BitVec 64) →
    Except Error (List PValidator)
  | [], _, _ => .ok []
  | _ :: _, [], _ => .error .indexOutOfRange
  | staker :: stakers, nodeAllocations :: allNodeAllocations, stakingOffset => do
      let validator := ⟨staker.nodeID, config.endStakingTime stakingOffset, staker.rewardAddress,
        stakedBy nodeAllocations, staker.delegationFee, staker.signer⟩
      let validators ← buildValidators stakers allNodeAllocations
        (stakingOffset + config.initialStakeDurationOffset * second)
      return validator :: validators

def fromConfig (heap : Walk ValidatorTx) : Except Error State := do
  let initialSupply ← config.initialSupply
  let validators ← config.buildValidators config.initialStakers
    (splitAllocations config.staked config.initialStakers.length) 0
  newState heap config.platformAllocations validators config.startTime initialSupply config.message

end Config

end Titan.Genesis
