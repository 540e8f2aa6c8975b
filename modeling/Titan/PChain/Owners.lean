import Titan.Lib.Wire
import Titan.PChain.Types

/-!
# Titan.PChain.Owners — the owners a validator stores

A validator stores the owner of its remaining balance as the bytes the
transaction codec packs it into. `unmarshal_marshal` is what the refund of a
balance relies on: an owner that was packed can be unpacked.

The errors of executing a block stand here too.
-/

namespace Titan.PChain

open Lib

/-! ## Owners -/

/-- `ids.ShortID`. -/
abbrev ShortID := Fin (2 ^ 160)

/-- `message.PChainOwner`. -/
structure PChainOwner where
  threshold : Fin (2 ^ 32)
  addresses : List ShortID
deriving DecidableEq, Repr

/-- `codec.defaultMaxSize`. -/
def defaultMaxSize : ℕ := 256 * 1024

/-- The errors of executing a block. -/
inductive ExecError where
  | state (e : StateError)
  /-- A run-time panic: an integer division by zero. -/
  | panic
  /-- A check outside the model failed. -/
  | rejected (text : String)
  /-- The codec could not pack or unpack a value. -/
  | codec
  | childBlockEarlierThanParent
  | childBlockAfterStakerChangeTime
  | childBlockBeyondSyncBound
  | isImmutable
  | convertPermissionlessSubnet
  | addressTooLong
  | convertMustIncludeValidators
  | convertValidatorsNotSortedAndUnique
  | zeroWeight
  | emptyNodeID
  | zeroBalance
  | outputUnspendable
  | outputUnoptimized
  | addrsNotSortedUnique
  | invalidSubnetID
  | invalidWeight
  | invalidNodeID
  | nonceReservedForRemoval
  | maxNumActiveValidators
  | couldNotLoadSubnetToL1Conversion
  | wrongWarpMessageSourceChainID
  | wrongWarpMessageSourceAddress
  | warpMessageExpired
  | warpMessageNotYetAllowed
  | warpMessageAlreadyIssued
  | couldNotLoadL1Validator (e : StateError)
  | warpMessageContainsStaleNonce
  | removingLastValidator
  | stateCorruption (text : String)
deriving DecidableEq, Repr

namespace PChainOwner

def writeShortID (a : ShortID) : List UInt8 := writeBE 20 a

/-- The fields of an owner, as the codec packs them. -/
def pack (o : PChainOwner) : List UInt8 :=
  writeBE 4 o.threshold ++ (writeBE 4 o.addresses.length ++ o.addresses.flatMap writeShortID)

/-- An address, as the codec unpacks it. -/
def readShortID (bytes : List UInt8) : Option (ShortID × List UInt8) :=
  (readBE 20 bytes).map (fun (n, rest) => (Fin.ofNat _ n, rest))

/-- The fields of an owner, as the codec unpacks them. -/
def unpack (bytes : List UInt8) : Option (PChainOwner × List UInt8) :=
  match readBE 4 bytes with
  | none => none
  | some (threshold, bytes) =>
    match readBE 4 bytes with
    | none => none
    | some (numElts, bytes) =>
      if 2 ^ 31 - 1 < numElts then none
      else (readMany readShortID numElts bytes).map
        (fun (addresses, rest) => (⟨Fin.ofNat _ threshold, addresses⟩, rest))

/-- `txs.Codec.Marshal`: the codec version, then the fields, within the maximum size. -/
def marshal (o : PChainOwner) : Except ExecError Bytes :=
  let bytes := writeBE 2 0 ++ o.pack
  if defaultMaxSize < bytes.length then .error .codec else .ok bytes

/-- `txs.Codec.Unmarshal`. -/
def unmarshal (bytes : Bytes) : Option PChainOwner :=
  if defaultMaxSize < bytes.length then none
  else
    match readBE 2 bytes with
    | some (0, bytes) =>
      match unpack bytes with
      | some (o, []) => some o
      | _ => none
    | _ => none

/-- `secp256k1fx.OutputOwners.Verify`. -/
def verify (o : PChainOwner) : Except ExecError Unit :=
  if o.addresses.length % 2 ^ 32 < o.threshold then .error .outputUnspendable
  else if o.threshold = 0 ∧ o.addresses ≠ [] then .error .outputUnoptimized
  else if ¬ o.addresses.Pairwise (· < ·) then .error .addrsNotSortedUnique
  else .ok ()

/-- An owner that was packed can be unpacked. -/
theorem unmarshal_marshal {o : PChainOwner} {bytes : Bytes} (h : o.marshal = .ok bytes) :
    unmarshal bytes = some o := by
  rcases guard_ok h with ⟨hsize, h⟩
  have hbytes := Except.ok.inj h
  -- the number of addresses is limited by the size
  have hlen : o.addresses.length ≤ defaultMaxSize := by
    have hmap : ∀ l : List ShortID, l.length ≤ (l.flatMap writeShortID).length := by
      intro l
      induction l with
      | nil => exact Nat.zero_le _
      | cons a l ih =>
        rw [List.flatMap_cons, List.length_append, writeShortID, length_writeBE, List.length_cons]
        omega
    have := hmap o.addresses
    simp only [pack, List.length_append] at hsize
    omega
  have haddr : ∀ a ∈ o.addresses, Reads readShortID writeShortID a := by
    intro a _ rest
    have hread : Reads (readBE 20) (writeBE 20) a := reads_writeBE a.isLt
    simp only [readShortID, writeShortID, hread rest, Option.map_some, Fin.ofNat_val_eq_self]
  have hthreshold : Reads (readBE 4) (writeBE 4) o.threshold := reads_writeBE o.threshold.isLt
  have hcount : o.addresses.length < 256 ^ 4 := by
    unfold defaultMaxSize at hlen
    omega
  have hunpack : unpack o.pack = some (o, []) := by
    have hmany := reads_flatMap haddr []
    rw [List.append_nil] at hmany
    unfold unpack pack
    rw [hthreshold]
    dsimp only
    rw [reads_writeBE hcount]
    dsimp only
    rw [if_neg (by unfold defaultMaxSize at hlen; omega), hmany]
    simp only [Option.map_some, Fin.ofNat_val_eq_self]
  rw [← hbytes]
  have hversion : readBE 2 (writeBE 2 0 ++ o.pack) = some (0, o.pack) :=
    reads_writeBE (by decide) o.pack
  simp only [unmarshal, if_neg hsize, hversion, hunpack]

end PChainOwner

end Titan.PChain
