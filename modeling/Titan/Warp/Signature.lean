import Titan.Database.MemDB
import Titan.PChain.Types

/-!
# Titan.Warp.Signature — warp messages signed by a quorum

The validator set in its canonical order (`validators/warp.go`) and the check of a
signature by some of them (`warp/signature.go`, `warp/validator.go`).

* Validators are merged by their public keys. The weight of a key is a 64-bit word that
  wraps around, the total weight is a big integer.
* The signers are a big integer, read from its big-endian bytes.
* BLS signatures are an interface. The uncompressed form of a public key determines it.
-/

namespace Titan.Warp

open Lib
open Database (Bytes)
open PChain (NodeID GoMap)

/-- `bls`. -/
structure Bls where
  PublicKey : Type
  Signature : Type
  publicKeyToUncompressedBytes : PublicKey → Bytes
  uncompressed_injective : Function.Injective publicKeyToUncompressedBytes
  signatureFromBytes : Bytes → Option Signature
  aggregatePublicKeys : List PublicKey → Option PublicKey
  verify : PublicKey → Signature → Bytes → Bool

variable (B : Bls)

structure GetValidatorOutput where
  nodeID : NodeID
  publicKey : Option B.PublicKey
  weight : BitVec 64

/-- `validators.Warp`. -/
structure Validator where
  publicKey : B.PublicKey
  publicKeyBytes : Bytes
  weight : BitVec 64
  nodeIDs : List NodeID

structure WarpSet where
  validators : List (Validator B)
  totalWeight : ℕ

/-! ## The canonical validator set -/

variable {B}

/-- One round of the loop of `FlattenValidatorSet`. -/
def addValidator (acc : GoMap Bytes (Validator B) × ℕ) (vdr : GetValidatorOutput B) :
    GoMap Bytes (Validator B) × ℕ :=
  let totalWeight := acc.2 + vdr.weight.toNat
  match vdr.publicKey with
  | none => (acc.1, totalWeight)
  | some pk =>
    let pkBytes := B.publicKeyToUncompressedBytes pk
    let uniqueVdr := (acc.1.lookup pkBytes).getD ⟨pk, pkBytes, 0, []⟩
    (acc.1.insert pkBytes
      { uniqueVdr with
        weight := uniqueVdr.weight + vdr.weight, nodeIDs := uniqueVdr.nodeIDs ++ [vdr.nodeID] },
      totalWeight)

variable (B) in
/-- The orders of the loop over the validator set and of `maps.Values`. -/
structure FlattenOrder where
  vdrSet : Walk (Sigma fun _ : NodeID => GetValidatorOutput B)
  vdrs : Walk (Sigma fun _ : Bytes => Validator B)

def flattenValidatorSet (order : FlattenOrder B) (vdrSet : GoMap NodeID (GetValidatorOutput B)) :
    WarpSet B :=
  let (vdrs, totalWeight) :=
    ((order.vdrSet.order vdrSet.entries).map (·.2)).foldl addValidator (∅, 0)
  ⟨((order.vdrs.order vdrs.entries).map (·.2)).insertionSort
    (fun v w => v.publicKeyBytes ≤ w.publicKeyBytes), totalWeight⟩

/-! ## Bit sets -/

/-- `BitsFromBytes`. -/
def bitsFromBytes (bytes : Bytes) : ℕ := bytes.foldl (fun n b => n * 256 + b) 0

def bitLen (bits : ℕ) : ℕ := if bits = 0 then 0 else bits.log2 + 1

/-- `len(bits.Bytes())`. -/
def numBytes (bits : ℕ) : ℕ := (bitLen bits + 7) / 8

/-! ## The check -/

inductive Err
  | wrongNetworkID
  | invalidBitSet
  | unknownValidator
  | insufficientWeight
  | parseSignature
  /-- The error of `bls.AggregatePublicKeys`. -/
  | aggregatePublicKeys
  | invalidSignature
deriving DecidableEq, Repr

structure UnsignedMessage where
  networkID : BitVec 32
  bytes : Bytes

structure BitSetSignature where
  signers : Bytes
  signature : Bytes

def filterValidators (indices : ℕ) (vdrs : List (Validator B)) : Except Err (List (Validator B)) :=
  if vdrs.length < bitLen indices then .error .unknownValidator
  else .ok ((vdrs.zipIdx.filter fun v => indices.testBit v.2).map (·.1))

def sumWeight (vdrs : List (Validator B)) : ℕ := (vdrs.map fun v => v.weight.toNat).sum

def verifyWeight (sigWeight totalWeight quorumNum quorumDen : ℕ) : Except Err Unit :=
  if sigWeight * quorumDen < totalWeight * quorumNum then .error .insufficientWeight else .ok ()

def BitSetSignature.verify (s : BitSetSignature) (msg : UnsignedMessage) (networkID : BitVec 32)
    (validators : WarpSet B) (quorumNum quorumDen : ℕ) : Except Err Unit := do
  if msg.networkID ≠ networkID then
    throw .wrongNetworkID
  let signerIndices := bitsFromBytes s.signers
  if numBytes signerIndices ≠ s.signers.length then
    throw .invalidBitSet
  let signers ← filterValidators signerIndices validators.validators
  verifyWeight (sumWeight signers) validators.totalWeight quorumNum quorumDen
  match B.signatureFromBytes s.signature with
  | none => throw .parseSignature
  | some aggSig =>
    match B.aggregatePublicKeys (signers.map Validator.publicKey) with
    | none => throw .aggregatePublicKeys
    | some aggPubKey => if B.verify aggPubKey aggSig msg.bytes then return () else throw .invalidSignature

end Titan.Warp
