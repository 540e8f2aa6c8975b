import Titan.Atomic.SharedMemory

/-!
# Titan.Atomic.Verifier — verification of atomic transactions

`Verify` of the two kinds of transactions, the flow checker, the check of the
credentials, and `SemanticVerify`, which puts them together and looks into shared
memory and into the blocks that are processing.

Hashes, the recovery of public keys, the codec and the lookup of the subnet of a
chain are parameters. A credential is always a list of signatures, which is the
only kind the codec knows; a UTXO that was decoded always holds a transfer
output, for the same reason.
-/

namespace Titan.Atomic

open Lib
open PChain (ID Bytes GoMap)
open CChain (Address)

/-! ## Context -/

/-- The part of `extras.Rules` that is read here. -/
structure Rules where
  isApricotPhase1 : Bool
  isApricotPhase2 : Bool
  isApricotPhase3 : Bool
  isApricotPhase5 : Bool
  isBanff : Bool
  isSongbirdCode : Bool
  isSongbirdTransition : Bool
deriving DecidableEq, Repr

/-- The part of `snow.Context` that is read here. -/
structure Context where
  networkID : ℕ
  subnetID : ID
  chainID : ID
  xChainID : ID
  avaxAssetID : ID
  getSubnetID : ID → Except TxError ID

/-- `constants.PlatformChainID`. -/
def platformChainID : ID := 0

/-- The two addresses of a public key. -/
structure PublicKey where
  address : Address
  ethAddress : Address
deriving DecidableEq, Repr

structure Crypto where
  hash256 : Bytes → Bytes
  /-- `accounts.TextHash` of the hexadecimal text of a hash. -/
  textHash : Bytes → Bytes
  recoverPublicKey : Bytes → Bytes → Except TxError PublicKey

/-- `avax.UTXO`. -/
structure UTXO where
  utxoID : UTXOID
  assetID : ID
  out : TransferOutput
deriving DecidableEq, Repr

structure Codec where
  marshalOut : TransferOutput → Except TxError Bytes
  marshalUTXO : UTXO → Except TxError Bytes
  unmarshalUTXO : Bytes → Except TxError UTXO

/-- `secp256k1fx.Fx`. -/
structure Fx where
  clock : ℕ
  bootstrapped : Bool

structure VerifierBackend where
  ctx : Context
  fx : Fx
  crypto : Crypto
  codec : Codec
  inputID : UTXOID → ID
  rules : Rules
  bootstrapped : Bool

/-! ## Well-formedness -/

/-- `bytes.Compare` of the address and then of the asset. -/
def keyLess (a b : Address × ID) : Prop := a.1 < b.1 ∨ a.1 = b.1 ∧ a.2 < b.2

instance : DecidableRel keyLess := fun _ _ => inferInstanceAs (Decidable (_ ∨ _))

def EVMOutput.sortKey (out : EVMOutput) : Address × ID := (out.address, out.assetID)

def EVMInput.sortKey (i : EVMInput) : Address × ID := (i.address, i.assetID)

/-- `UTXOID.Compare`. -/
def UTXOID.less (a b : UTXOID) : Prop :=
  a.txID < b.txID ∨ a.txID = b.txID ∧ a.outputIndex < b.outputIndex

instance : DecidableRel UTXOID.less := fun _ _ => inferInstanceAs (Decidable (_ ∨ _))

def EVMOutput.verify (out : EVMOutput) : Except TxError Unit := do
  ensure (out.amount ≠ 0) .noValueOutput
  ensure (out.assetID ≠ 0) .emptyAssetID

def EVMInput.verify (i : EVMInput) : Except TxError Unit := do
  ensure (i.amount ≠ 0) .noValueInput
  ensure (i.assetID ≠ 0) .emptyAssetID

def OutputOwners.verify (o : OutputOwners) : Except TxError Unit := do
  ensure (¬ o.addrs.length % 2 ^ 32 < o.threshold) (.other "output is unspendable")
  ensure (¬ (o.threshold = 0 ∧ 0 < o.addrs.length)) (.other "output representation should be optimized")
  ensure (o.addrs.IsChain (· < ·)) (.other "addresses not sorted and unique")

def TransferOutput.verify (out : TransferOutput) : Except TxError Unit := do
  ensure (out.amt ≠ 0) .noValueOutput
  out.owners.verify

def TransferInput.verify (i : TransferInput) : Except TxError Unit := do
  ensure (i.amt ≠ 0) .noValueInput
  ensure (i.sigIndices.IsChain (· < ·)) (.other "address indices not sorted and unique")

def TransferableOutput.verify (out : TransferableOutput) : Except TxError Unit := do
  ensure (out.assetID ≠ 0) .emptyAssetID
  out.out.verify

def TransferableInput.verify (i : TransferableInput) : Except TxError Unit := do
  ensure (i.assetID ≠ 0) .emptyAssetID
  i.input.verify

/-- `innerSortTransferableOutputs.Less`. -/
def TransferableOutput.less (codec : Codec) (a b : TransferableOutput) : Bool :=
  if a.assetID < b.assetID then true
  else if b.assetID < a.assetID then false
  else
    match codec.marshalOut a.out, codec.marshalOut b.out with
    | .ok aBytes, .ok bBytes => decide (aBytes < bBytes)
    | _, _ => false

/-- `verify.SameSubnet`. -/
def sameSubnet (ctx : Context) (peerChainID : ID) : Except TxError Unit := do
  ensure (peerChainID ≠ ctx.chainID) (.other "same chainID")
  let subnetID ← ctx.getSubnetID peerChainID
  ensure (ctx.subnetID = subnetID) (.other "mismatched subnetIDs")

/-- The peer chain of a transaction is valid. -/
def verifyPeerChain (ctx : Context) (rules : Rules) (peerChainID : ID) : Except TxError Unit :=
  if rules.isApricotPhase5 then
    match sameSubnet ctx peerChainID with
    | .ok () => .ok ()
    | .error _ => .error .wrongChainID
  else ensure (peerChainID = ctx.xChainID) .wrongChainID

def UnsignedImportTx.verify (ctx : Context) (rules : Rules) (utx : UnsignedImportTx) :
    Except TxError Unit := do
  ensure (utx.importedInputs ≠ []) .noImportInputs
  ensure (utx.networkID = ctx.networkID) .wrongNetworkID
  ensure (ctx.chainID = utx.blockchainID) .wrongChainID
  ensure (¬ (rules.isApricotPhase3 ∧ utx.outs = [])) .noEVMOutputs
  ensure (¬ (rules.isSongbirdCode ∧ ¬ rules.isSongbirdTransition)) .importTxsDisabled
  verifyPeerChain ctx rules utx.sourceChain
  utx.outs.forM (fun out => do
    out.verify
    ensure (¬ (rules.isBanff ∧ out.assetID ≠ ctx.avaxAssetID)) .importNonAVAXOutputBanff)
  utx.importedInputs.forM (fun i => do
    i.verify
    ensure (¬ (rules.isBanff ∧ i.assetID ≠ ctx.avaxAssetID)) .importNonAVAXInputBanff)
  ensure ((utx.importedInputs.map (·.utxoID)).IsChain UTXOID.less) .inputsNotSortedUnique
  if rules.isApricotPhase2 then
    ensure ((utx.outs.map (·.sortKey)).IsChain keyLess) .outputsNotSortedUnique
  else if rules.isApricotPhase1 then
    ensure ((utx.outs.map (·.sortKey)).IsChain (fun a b => ¬ keyLess b a)) .outputsNotSorted
  else .ok ()

def UnsignedExportTx.verify (ctx : Context) (codec : Codec) (rules : Rules) (utx : UnsignedExportTx) :
    Except TxError Unit := do
  ensure (utx.exportedOutputs ≠ []) .noExportOutputs
  ensure (utx.networkID = ctx.networkID) .wrongNetworkID
  ensure (ctx.chainID = utx.blockchainID) .wrongChainID
  ensure (¬ (rules.isSongbirdCode ∧ ¬ rules.isSongbirdTransition)) .exportTxsDisabled
  verifyPeerChain ctx rules utx.destinationChain
  utx.ins.forM (fun i => do
    i.verify
    ensure (¬ (rules.isBanff ∧ i.assetID ≠ ctx.avaxAssetID)) .exportNonAVAXInputBanff)
  utx.exportedOutputs.forM (fun out => do
    out.verify
    ensure (¬ (out.assetID ≠ ctx.avaxAssetID ∧ utx.destinationChain = platformChainID)) .wrongChainID
    ensure (¬ (rules.isBanff ∧ out.assetID ≠ ctx.avaxAssetID)) .exportNonAVAXOutputBanff)
  ensure (utx.exportedOutputs.IsChain (fun a b => TransferableOutput.less codec b a = false))
    .outputsNotSorted
  ensure (¬ (rules.isApricotPhase1 ∧ ¬ (utx.ins.map (·.sortKey)).IsChain keyLess))
    .inputsNotSortedUnique

/-! ## Amounts -/

/-- `CalculateDynamicFee`: the price of the gas in the unit of the X-chain, rounded up. -/
def calculateDynamicFee (cost : ℕ) (baseFee : Option ℤ) : Except TxError ℕ :=
  match baseFee with
  | none => .error .nilBaseFee
  | some baseFee =>
    let fee := (cost * baseFee + (x2cRate - 1)) / x2cRate
    if 0 ≤ fee ∧ fee < 2 ^ 64 then .ok fee.toNat else .error .feeOverflow

/-- `avax.FlowChecker`. -/
structure FlowChecker where
  consumed : GoMap ID ℕ
  produced : GoMap ID ℕ
  err : Option TxError

namespace FlowChecker

def new : FlowChecker := ⟨∅, ∅, none⟩

/-- The new amounts of a map, and the first error. -/
def add (value : GoMap ID ℕ) (err : Option TxError) (assetID : ID) (amount : ℕ) :
    GoMap ID ℕ × Option TxError :=
  match mathAdd ((value.lookup assetID).getD 0) amount with
  | .ok sum => (value.insert assetID sum, err)
  | .error e => (value.insert assetID 0, err.or (some e))

def consume (fc : FlowChecker) (assetID : ID) (amount : ℕ) : FlowChecker :=
  let (consumed, err) := add fc.consumed fc.err assetID amount
  { fc with consumed, err }

def produce (fc : FlowChecker) (assetID : ID) (amount : ℕ) : FlowChecker :=
  let (produced, err) := add fc.produced fc.err assetID amount
  { fc with produced, err }

def verify (fc : FlowChecker) : Except TxError Unit :=
  match fc.err with
  | some e => .error e
  | none =>
    if fc.produced.keys.all (fun assetID =>
      (fc.produced.lookup assetID).getD 0 ≤ (fc.consumed.lookup assetID).getD 0)
    then .ok () else .error .insufficientFunds

end FlowChecker

/-- `ap0.AtomicTxFee`. -/
def atomicTxFee : ℕ := 1000000

/-- The fee a transaction has to pay, if there is one. -/
def Tx.requiredFee (tx : Tx) (rules : Rules) (baseFee : Option ℤ) : Except TxError (Option ℕ) :=
  if rules.isApricotPhase3 then do
    let gasUsed ← tx.gasUsed rules.isApricotPhase5
    let txFee ← calculateDynamicFee gasUsed baseFee
    return some txFee
  else
    match tx.unsigned with
    -- imports pay a fee as of Apricot Phase 2
    | .importTx _ => .ok (if rules.isApricotPhase2 then some atomicTxFee else none)
    | .exportTx _ => .ok (some atomicTxFee)

/-- The transaction consumes at least what it produces, with the fee. -/
def Tx.verifyFlow (tx : Tx) (avaxAssetID : ID) (fee : Option ℕ) : Except TxError Unit :=
  let fc := FlowChecker.new
  let fc := match fee with
    | some txFee => fc.produce avaxAssetID txFee
    | none => fc
  let fc := tx.produces.foldl (fun fc a => fc.produce a.1 a.2) fc
  let fc := tx.consumes.foldl (fun fc a => fc.consume a.1 a.2) fc
  fc.verify

/-! ## Credentials -/

/-- `ownerMatchesPubKey`. -/
def ownerMatchesPubKey (owner : Address) (pk : PublicKey) : Prop :=
  owner = pk.address ∨ owner = pk.ethAddress

instance (owner : Address) (pk : PublicKey) : Decidable (ownerMatchesPubKey owner pk) :=
  inferInstanceAs (Decidable (_ ∨ _))

/-- One signature of `VerifyCredentials`, by an owner or with the Ethereum prefix. -/
def verifySignature (crypto : Crypto) (unsignedBytes : Bytes) (out : OutputOwners) (index : ℕ)
    (sig : Bytes) : Except TxError Unit :=
  let txHash := crypto.hash256 unsignedBytes
  if out.addrs.length % 2 ^ 32 ≤ index then
    .error (.other "input referenced a nonexistent address in the output")
  else
    match out.addrs[index]? with
    | none => .error (.other "input referenced a nonexistent address in the output")
    | some expectedAddress => do
        let pk ← crypto.recoverPublicKey txHash sig
        if ownerMatchesPubKey expectedAddress pk then return
        else do
          let pk ← crypto.recoverPublicKey (crypto.textHash txHash) sig
          ensure (ownerMatchesPubKey expectedAddress pk) (.other "wrong signature")

def Fx.verifyCredentials (fx : Fx) (crypto : Crypto) (unsignedBytes : Bytes) (sigIndices : List ℕ)
    (cred : List Bytes) (out : OutputOwners) : Except TxError Unit := do
  let numSigs := sigIndices.length
  ensure (out.locktime ≤ fx.clock) (.other "output is time locked")
  ensure (¬ out.threshold < numSigs % 2 ^ 32) (.other "input has more signers than expected")
  ensure (¬ numSigs % 2 ^ 32 < out.threshold) (.other "input has less signers than expected")
  ensure (numSigs = cred.length)
    (.other "input expected a different number of signers than provided in the credential")
  if fx.bootstrapped then
    (sigIndices.zip cred).forM (fun s => verifySignature crypto unsignedBytes out s.1 s.2)
  else .ok ()

/-- `VerifySpend`: the amounts agree and the credential is the owner's. -/
def Fx.verifySpend (fx : Fx) (crypto : Crypto) (unsignedBytes : Bytes) (i : TransferInput)
    (cred : List Bytes) (utxo : TransferOutput) : Except TxError Unit := do
  utxo.verify
  i.verify
  ensure (utxo.amt = i.amt) .mismatchedAmounts
  fx.verifyCredentials crypto unsignedBytes i.sigIndices cred utxo.owners

/-- The credential of one input of an export. -/
def verifyEVMInputCredential (b : VerifierBackend) (unsignedBytes : Bytes) (i : EVMInput)
    (cred : List Bytes) : Except TxError Unit :=
  let txHash := b.crypto.hash256 unsignedBytes
  match cred with
  | [sig] => do
      let pubKey ← b.crypto.recoverPublicKey txHash sig
      if i.address = pubKey.ethAddress then return
      else if b.rules.isBanff then do
        let pubKey ← b.crypto.recoverPublicKey (b.crypto.textHash txHash) sig
        ensure (i.address = pubKey.ethAddress) (.other "signature doesn't match public key")
      else throw (.other "signature doesn't match public key")
  | _ => .error (.other "incorrect number of signatures")

/-! ## Blocks -/

/-- A block, as far as atomic transactions go, with the rules at its time. -/
structure Block where
  id : ID
  parentID : ID
  height : ℕ
  baseFee : Option ℤ
  rules : Rules
  txs : List Tx
deriving DecidableEq, Repr

/-- `Set.Overlaps`. -/
def overlaps (a b : List ID) : Prop := ∃ u ∈ a, u ∈ b

instance (a b : List ID) : Decidable (overlaps a b) :=
  decidable_of_iff (a.any (fun u => b.elem u) = true) (by simp [overlaps])

/-- `BlockFetcher`. -/
structure BlockFetcher where
  getExtendedBlock : ID → Option Block
  lastAccepted : Block

/-- Whether the inputs conflict with a transaction of `ancestor` or of one of its
ancestors above the last accepted height. The first argument bounds the walk, which ends
since each parent is below its child. -/
def conflicts (fetcher : BlockFetcher) (inputID : UTXOID → ID) (inputs : List ID) :
    ℕ → Block → Except TxError Unit
  | fuel, ancestor =>
    if ancestor.height ≤ fetcher.lastAccepted.height then .ok ()
    else
      match fuel with
      | 0 => .error (.other "a parent is not below its child")
      | fuel + 1 => do
          ancestor.txs.forM (fun atomicTx =>
            ensure (¬ overlaps inputs (atomicTx.inputUTXOs inputID)) .conflictingAtomicInputs)
          match fetcher.getExtendedBlock ancestor.parentID with
          | none => .error .rejectedParent
          | some next => conflicts fetcher inputID inputs fuel next

/-! ## Semantic verification -/

/-- The UTXO of an imported input, as shared memory has it. -/
def verifyImportedInput (b : VerifierBackend) (utx : UnsignedImportTx) (utxoBytes : Bytes)
    (i : TransferableInput) (cred : List Bytes) : Except TxError Unit := do
  let utxo ← (b.codec.unmarshalUTXO utxoBytes).mapError (fun _ => .failedToUnmarshalUTXO)
  ensure (utxo.assetID = i.assetID) .assetIDMismatch
  b.fx.verifySpend b.crypto utx.metadata.unsignedBytes i.input cred utxo.out

/-- `semanticVerifier.ImportTx`. -/
def verifyImportTx (b : VerifierBackend) (sm : SharedMemory) (fetcher : BlockFetcher) (stx : Tx)
    (utx : UnsignedImportTx) (parent : Block) (baseFee : Option ℤ) : Except TxError Unit := do
  utx.verify b.ctx b.rules
  let fee ← stx.requiredFee b.rules baseFee
  stx.verifyFlow b.ctx.avaxAssetID fee
  ensure (stx.creds.length = utx.importedInputs.length) .incorrectNumCredentials
  if b.bootstrapped then
    let utxoIDs := utx.importedInputs.map (fun i => b.inputID i.utxoID)
    match sm.get utx.sourceChain utxoIDs with
    | .error _ => .error .failedToFetchImportUTXOs
    | .ok allUTXOBytes => do
        (utx.importedInputs.zip (allUTXOBytes.zip stx.creds)).forM
          (fun x => verifyImportedInput b utx x.2.1 x.1 x.2.2)
        conflicts fetcher b.inputID (stx.inputUTXOs b.inputID) parent.height parent
  else .ok ()

/-- `semanticVerifier.ExportTx`. -/
def verifyExportTx (b : VerifierBackend) (stx : Tx) (utx : UnsignedExportTx) (baseFee : Option ℤ) :
    Except TxError Unit := do
  utx.verify b.ctx b.codec b.rules
  let fee ← stx.requiredFee b.rules baseFee
  stx.verifyFlow b.ctx.avaxAssetID fee
  ensure (utx.ins.length = stx.creds.length) .incorrectNumCredentials
  (utx.ins.zip stx.creds).forM
    (fun x => verifyEVMInputCredential b utx.metadata.unsignedBytes x.1 x.2)

def semanticVerify (b : VerifierBackend) (sm : SharedMemory) (fetcher : BlockFetcher) (stx : Tx)
    (parent : Block) (baseFee : Option ℤ) : Except TxError Unit :=
  match stx.unsigned with
  | .importTx utx => verifyImportTx b sm fetcher stx utx parent baseFee
  | .exportTx utx => verifyExportTx b stx utx baseFee

/-- The stages of a successful verification of an import on a bootstrapped node. -/
structure ImportVerified (b : VerifierBackend) (sm : SharedMemory) (fetcher : BlockFetcher) (stx : Tx)
    (utx : UnsignedImportTx) (parent : Block) (baseFee : Option ℤ) : Prop where
  verify : utx.verify b.ctx b.rules = .ok ()
  flow : ∃ fee, stx.requiredFee b.rules baseFee = .ok fee ∧
    stx.verifyFlow b.ctx.avaxAssetID fee = .ok ()
  creds : stx.creds.length = utx.importedInputs.length
  utxos : ∃ allUTXOBytes,
    sm.get utx.sourceChain (utx.importedInputs.map (fun i => b.inputID i.utxoID)) = .ok allUTXOBytes ∧
    (utx.importedInputs.zip (allUTXOBytes.zip stx.creds)).forM
      (fun x => verifyImportedInput b utx x.2.1 x.1 x.2.2) = .ok ()
  conflicts : conflicts fetcher b.inputID (stx.inputUTXOs b.inputID) parent.height parent = .ok ()

variable {utx : UnsignedImportTx}

theorem verifyImportTx_ok {b : VerifierBackend} {sm : SharedMemory} {fetcher : BlockFetcher}
    {stx : Tx} {parent : Block} {baseFee : Option ℤ} (hboot : b.bootstrapped = true)
    (h : verifyImportTx b sm fetcher stx utx parent baseFee = .ok ()) :
    ImportVerified b sm fetcher stx utx parent baseFee := by
  rcases bind_ok h with ⟨_, hverify, hrest⟩
  rcases bind_ok hrest with ⟨fee, hfee, hrest⟩
  rcases bind_ok hrest with ⟨_, hflow, hrest⟩
  rcases bind_ok hrest with ⟨_, hcreds, hrest⟩
  rw [if_pos hboot] at hrest
  dsimp only at hrest
  split at hrest
  next => cases hrest
  next allUTXOBytes hget =>
    rcases bind_ok hrest with ⟨_, hchecks, hconflicts⟩
    exact ⟨hverify, ⟨fee, hfee, hflow⟩, ensure_ok hcreds, ⟨allUTXOBytes, hget, hchecks⟩, hconflicts⟩

/-! ## Order of inputs and outputs -/

theorem keyLess_lt (a b : Address × ID) (h : keyLess a b) : toLex a < toLex b := Prod.Lex.toLex_lt_toLex.mpr h

theorem UTXOID.less_lt (a b : UTXOID) (h : a.less b) : toLex (a.txID, a.outputIndex) < toLex (b.txID, b.outputIndex) :=
  Prod.Lex.toLex_lt_toLex.mpr h

/-- A list that is sorted and unique by a key has no duplicates. -/
theorem nodup_of_isChain {α κ : Type} [Preorder κ] {r : α → α → Prop} {key : α → κ} {l : List α}
    (h : l.IsChain r) (hkey : ∀ a b, r a b → key a < key b) : l.Nodup := by
  have hsorted : (l.map key).IsChain (· < ·) := (List.isChain_map key).mpr (h.imp hkey)
  exact List.Nodup.of_map key ((List.isChain_iff_pairwise.mp hsorted).imp ne_of_lt)

variable {ctx : Context} {rules : Rules}

/-- The imported inputs of a well-formed import are different. -/
theorem UnsignedImportTx.verify_nodup (h : utx.verify ctx rules = .ok ()) :
    (utx.importedInputs.map (·.utxoID)).Nodup := by
  rcases bind_ok h with ⟨_, -, h⟩
  rcases bind_ok h with ⟨_, -, h⟩
  rcases bind_ok h with ⟨_, -, h⟩
  rcases bind_ok h with ⟨_, -, h⟩
  rcases bind_ok h with ⟨_, -, h⟩
  rcases bind_ok h with ⟨_, -, h⟩
  rcases bind_ok h with ⟨_, -, h⟩
  rcases bind_ok h with ⟨_, -, h⟩
  rcases bind_ok h with ⟨_, hsorted, -⟩
  exact nodup_of_isChain (ensure_ok hsorted) UTXOID.less_lt

/-- As of Apricot Phase 1, the inputs of a well-formed export are different. -/
theorem UnsignedExportTx.verify_nodup {codec : Codec} {utx : UnsignedExportTx}
    (hap1 : rules.isApricotPhase1 = true) (h : utx.verify ctx codec rules = .ok ()) :
    (utx.ins.map (·.sortKey)).Nodup := by
  rcases bind_ok h with ⟨_, -, h⟩
  rcases bind_ok h with ⟨_, -, h⟩
  rcases bind_ok h with ⟨_, -, h⟩
  rcases bind_ok h with ⟨_, -, h⟩
  rcases bind_ok h with ⟨_, -, h⟩
  rcases bind_ok h with ⟨_, -, h⟩
  rcases bind_ok h with ⟨_, -, h⟩
  rcases bind_ok h with ⟨_, -, hsorted⟩
  have hsorted := ensure_ok hsorted
  simp only [hap1, true_and, not_not] at hsorted
  exact nodup_of_isChain hsorted keyLess_lt

/-- The UTXOs an import names. -/
def Tx.namedUTXOs (tx : Tx) : Set UTXOID :=
  match tx.unsigned with
  | .importTx utx => {u | u ∈ utx.importedInputs.map (·.utxoID)}
  | .exportTx _ => ∅

/-- Without collisions of their hashes, the UTXOs of a well-formed import have different
IDs. -/
theorem UnsignedImportTx.nodup_inputIDs {inputID : UTXOID → ID}
    (hid : Set.InjOn inputID {u | u ∈ utx.importedInputs.map (·.utxoID)})
    (h : utx.verify ctx rules = .ok ()) :
    (utx.importedInputs.map (fun i => inputID i.utxoID)).Nodup := by
  have hmap := (UnsignedImportTx.verify_nodup h).map_on
    (f := inputID) (fun x hx y hy heq => hid hx hy heq)
  rw [List.map_map] at hmap
  exact hmap

/-! ## A small network -/

/-- A backend of Apricot Phase 3 with the native asset 7. A UTXO is encoded by its asset and
its amount. -/
def sampleBackend : VerifierBackend where
  ctx := ⟨1, 0, 1, 2, 7, fun _ => .ok 0⟩
  fx := ⟨0, true⟩
  crypto := ⟨id, id, fun _ _ => .ok ⟨5, 5⟩⟩
  codec :=
    { marshalOut := fun out => .ok [UInt8.ofNat out.amt]
      marshalUTXO := fun utxo => .ok [UInt8.ofNat utxo.assetID.val, UInt8.ofNat utxo.out.amt]
      unmarshalUTXO := fun
        | [asset, amt] => .ok ⟨⟨0, 0⟩, Fin.ofNat _ asset.toNat, ⟨amt.toNat, ⟨0, 1, [5]⟩⟩⟩
        | _ => .error (.other "malformed UTXO") }
  inputID u := u.txID + Fin.ofNat _ u.outputIndex
  rules := ⟨true, true, true, false, false, false, false⟩
  bootstrapped := true

/-- Shared memory with 3 of asset 7 under the key 10 and 2 of asset 9 under the key 11. -/
def sampleMemory : SharedMemory where
  inbound _ := ((∅ : ValueDB).insert 10 ⟨true, [7, 3], []⟩).insert 11 ⟨true, [9, 2], []⟩
  outbound _ := ∅

def genesis : Block := ⟨1, 0, 0, none, sampleBackend.rules, []⟩

/-- Both UTXOs are imported: 2 of asset 7 and 2 of asset 9 for the account 5. -/
def importBoth (id : ID) : Tx where
  unsigned := .importTx
    { metadata := ⟨id, [0]⟩, networkID := 1, blockchainID := 1, sourceChain := 2,
      importedInputs := [⟨⟨10, 0⟩, 7, ⟨3, [0]⟩⟩, ⟨⟨10, 1⟩, 9, ⟨2, [0]⟩⟩],
      outs := [⟨5, 2, 7⟩, ⟨5, 2, 9⟩] }
  creds := [[[]], [[]]]

theorem importBoth_named (id : ID) :
    Set.InjOn sampleBackend.inputID (importBoth id).namedUTXOs := by
  have hnamed : ∀ u ∈ (importBoth id).namedUTXOs, u = ⟨10, 0⟩ ∨ u = ⟨10, 1⟩ := by
    intro u hu
    simpa [Tx.namedUTXOs, importBoth] using hu
  intro u hu v hv heq
  rcases hnamed u hu with rfl | rfl <;> rcases hnamed v hv with rfl | rfl
  · rfl
  · exact absurd heq (by decide +kernel)
  · exact absurd heq (by decide +kernel)
  · rfl

end Titan.Atomic
