import Titan.Lib.Checked
import Titan.Lib.Ordered

/-!
# Titan.PChain.Types — identifiers, errors and stakers

The types the platform VM's state is made of. An identifier is the number its
bytes spell, most significant byte first, so that `bytes.Compare` is the order
of the numbers. Unsigned 64-bit quantities and times (in seconds) are natural
numbers; every place where the code can overflow uses the checked operations.
-/

namespace Titan.PChain

/-- `ids.ID`. -/
abbrev ID := Fin (2 ^ 256)

/-- `ids.NodeID`. -/
abbrev NodeID := Fin (2 ^ 160)

abbrev Bytes := List UInt8

/-- A Go map. A loop over it visits its entries in an unspecified order. -/
abbrev GoMap (κ ν : Type) := AList (fun _ : κ => ν)

/-- The errors state access returns. -/
inductive StateError where
  /-- `database.ErrNotFound` -/
  | notFound
  | mutatedL1Validator
  | conflictingL1Validator
  | duplicateL1Validator
  | overflow
  | underflow
  /-- Any other error of the database or of decoding what it holds. -/
  | database (text : String)
deriving DecidableEq, Repr

/-- `math.Add` on `uint64`. -/
def mathAdd (a b : ℕ) : Except StateError ℕ := Lib.checkedAdd .overflow a b

/-- `math.Sub` on `uint64`. -/
def mathSub (a b : ℕ) : Except StateError ℕ := Lib.checkedSub .underflow a b

/-! ## Stakers -/

/-- `txs.Priority`, in increasing order. -/
inductive Priority where
  | primaryNetworkDelegatorApricotPending
  | primaryNetworkValidatorPending
  | primaryNetworkDelegatorBanffPending
  | subnetPermissionlessValidatorPending
  | subnetPermissionlessDelegatorPending
  | subnetPermissionedValidatorPending
  | subnetPermissionedValidatorCurrent
  | subnetPermissionlessDelegatorCurrent
  | subnetPermissionlessValidatorCurrent
  | primaryNetworkDelegatorCurrent
  | primaryNetworkValidatorCurrent
deriving DecidableEq, Repr

/-- A validator or delegator of the current or pending validator set. -/
structure Staker where
  txID : ID
  nodeID : NodeID
  publicKey : Option Bytes
  subnetID : ID
  weight : ℕ
  startTime : ℕ
  endTime : ℕ
  potentialReward : ℕ
  nextTime : ℕ
  priority : Priority
deriving DecidableEq, Repr

end Titan.PChain
