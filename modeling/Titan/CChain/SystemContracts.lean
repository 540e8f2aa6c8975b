import Titan.CChain.FeeDistribution

/-!
# Titan.CChain.SystemContracts — calls the node makes to system contracts

After a successful message call the node itself may call the state connector,
the governance settings, the airdrop or the distribution contract, under a
signalling coinbase address.

`SystemStep` says what any of these can do: change the state database, keep a
sum of balances that fits in 256 bits, and touch nothing else of the transition.
-/

namespace Titan.CChain

variable {σ : Type}

/-! ## What a system call can do -/

/-- Only the state database changes, and balances whose sum fits in 256 bits
still add up to the same. -/
structure SystemStep (st st' : StateTransition σ) : Prop where
  frame : st' = { st with state := st'.state }
  total : st.state.world.totalBalance < 2 ^ 256 →
    st'.state.world.totalBalance = st.state.world.totalBalance

theorem SystemStep.refl (st : StateTransition σ) : SystemStep st st := ⟨rfl, fun _ => rfl⟩

theorem SystemStep.trans {st₁ st₂ st₃ : StateTransition σ}
    (h₁ : SystemStep st₁ st₂) (h₂ : SystemStep st₂ st₃) : SystemStep st₁ st₃ := by
  refine ⟨?_, fun hfit => ?_⟩
  · rw [h₂.frame, h₁.frame]
  · have hkeep := h₁.total hfit
    exact (h₂.total (by omega)).trans hkeep

variable {st : StateTransition σ}

theorem SystemStep.evm_eq {st' : StateTransition σ} (h : SystemStep st st') : st'.evm = st.evm := by
  rw [h.frame]

/-- A call to the recipient of the message, from `coinbaseSignal` and with it as
coinbase; the coinbase is restored afterwards. -/
def signalCall (st : StateTransition σ) (coinbaseSignal : Address) (input : Bytes) :
    Option VMError × StateTransition σ :=
  let context := { st.evm.context with coinbase := coinbaseSignal }
  let (_, result, st') := daemonCall { st with evm := { st.evm with context := context } }
    coinbaseSignal st.toAddress input st.evm.context.gasLimit
  (result.err, { st' with evm := st.evm })

theorem signalCall_systemStep (hevm : st.evm.Conserves) (coinbaseSignal : Address) (input : Bytes) :
    SystemStep st (signalCall st coinbaseSignal input).2 :=
  ⟨rfl, fun _ => hevm.call_total _ _ _ _ _ _ _⟩

/-! ## State connector -/

def stateConnectorAddress : Address := hexToAddress 0x1000000000000000000000000000000000000001

/-- Unix seconds of the activation dates in the source. -/
def flareActivationTime : Uint64 := 1654041600
def costwoActivationTime : Uint64 := 1654041600
def localFlareActivationTime : Uint64 := 1654041600
def songbirdActivationTime : Uint64 := 1648476000
def songbirdOct22ForkTime : Uint64 := 1666191600
def costonActivationTime : Uint64 := 1645808400
def costonOct22ForkTime : Uint64 := 1665068400

/-- The chains whose connector sits at the genesis address from some time on. -/
def calledFrom (activation blockTime : Uint64) (dest : Address) : Bool :=
  activation ≤ blockTime && dest = stateConnectorAddress

/-- The chains whose connector moved in October 2022. -/
def calledAcrossFork (activation fork : Uint64) (before : Address) (blockTime : Uint64)
    (dest : Address) : Bool :=
  if fork < blockTime then dest = hexToAddress 0x0c13aDA1C7143Cf0a0795FFaB93eEBb6FAD6e4e3
  else if activation < blockTime then dest = before
  else false

def getStateConnectorIsActivatedAndCalledFlare : Uint64 → Address → Bool :=
  calledFrom flareActivationTime

def getStateConnectorIsActivatedAndCalledCostwo : Uint64 → Address → Bool :=
  calledFrom costwoActivationTime

def getStateConnectorIsActivatedAndCalledLocalFlare : Uint64 → Address → Bool :=
  calledFrom localFlareActivationTime

def getStateConnectorIsActivatedAndCalledLocal (_ : Uint64) (dest : Address) : Bool :=
  dest = stateConnectorAddress

/-- Active from genesis. -/
def getStateConnectorIsActivatedAndCalledTitan (_ : Uint64) (dest : Address) : Bool :=
  dest = stateConnectorAddress

def getStateConnectorIsActivatedAndCalledSongbird : Uint64 → Address → Bool :=
  calledAcrossFork songbirdActivationTime songbirdOct22ForkTime
    (hexToAddress 0x3A1b3220527aBA427d1e13e4b4c48c31460B4d91)

def getStateConnectorIsActivatedAndCalledCoston : Uint64 → Address → Bool :=
  calledAcrossFork costonActivationTime costonOct22ForkTime
    (hexToAddress 0x947c76694491d3fD67a73688003c4d36C8780A97)

def stateConnectorActivationVariants : ChainValue (Uint64 → Address → Bool) :=
  (ChainValue.new fun _ _ => false)
    |>.addValue flareChainID getStateConnectorIsActivatedAndCalledFlare
    |>.addValue songbirdChainID getStateConnectorIsActivatedAndCalledSongbird
    |>.addValue costwoChainID getStateConnectorIsActivatedAndCalledCostwo
    |>.addValue costonChainID getStateConnectorIsActivatedAndCalledCoston
    |>.addValue localFlareChainID getStateConnectorIsActivatedAndCalledLocalFlare
    |>.addValue localChainID getStateConnectorIsActivatedAndCalledLocal
    |>.addValue titanChainID getStateConnectorIsActivatedAndCalledTitan

def getStateConnectorIsActivatedAndCalled (isDurango : Bool) (chainID : ℕ) (blockTime : Uint64)
    (dest : Address) : Bool :=
  !isDurango && stateConnectorActivationVariants.getValue (some chainID) blockTime dest

def getStateConnectorCoinbaseSignalAddr (chainID : ℕ) (blockTime : Uint64) : Address :=
  if chainID = flareChainID ∨ chainID = costwoChainID ∨ chainID = localFlareChainID ∨
      chainID = titanChainID then
    hexToAddress 0xDEaD1
  else if chainID = songbirdChainID then
    if songbirdOct22ForkTime < blockTime then hexToAddress 0xDEaD1 else feeSink
  else if chainID = costonChainID then
    if costonOct22ForkTime < blockTime then hexToAddress 0xDEaD1 else feeSink
  else
    feeSink

def submitAttestationSelector : Bytes := [0xcf, 0xd1, 0xfd, 0xad]
def getAttestationSelector : Bytes := [0x29, 0xbe, 0x4d, 0xb2]
def finaliseRoundSelector : Bytes := [0xea, 0xeb, 0xf6, 0xd3]

def defaultAttestorsFlareSubmitter : List Address :=
  [0x4E07E1F3DB3Dc9BAd56Cc829747cc0148234329F,
   0xB264Fad6Fdc65767998f93501945aB8F9108809d,
   0x366BeC54195bfD45DBB34b79Ad2dEC4010598947,
   0x2665B179d5fCE1118f06e23B5d6E7617c5Ff733A,
   0x65cBaFaDD7C914179aabcE9C35f918a4E36AfFf9,
   0x7eC6a7C7c4Ef003A75DC6c06352B48B37Ac2191B,
   0xEa9bC2F98eFFC6A27E2C31733c1905961826f73B,
   0xA4aA75a9B49c7f2B4be62b2999d7103E78D004C7,
   0x4DF8436D7578C2d3bc73d33B6644913e131B70FC].map hexToAddress

def defaultAttestorsFlare : List Address :=
  [0x0988Cf4828F4e4eD0cE7c07467E70e19095Ee152,
   0x6BC7DCa62010D418eB72CCdc58561e00C5868Ef1,
   0xE34Bb361536610a9DCcEa5292262e36AfF65c06c,
   0x8A3D627D86A81F5D21683F4963565C63DB5e1309,
   0x2D3e7e4b19bDc920fd9C57BD3072A31F5a59FeC8,
   0x6455dC38fdF739b6fE021b30C7D9672C1c6DEb5c,
   0x49893c5Dfc035F4eE4E46faC014f6D4bC80F7f92,
   0x08e8b2Af4874e920de27723576A13d66008Af523,
   0x5D2f75392DdDa69a2818021dd6a64937904c8352].map hexToAddress

def defaultAttestorsSongbirdSubmitter : List Address :=
  [0xcE397b9a395ace2e328030699bDDf4E2F049A05B,
   0xeDBb013BBC314124a9f842c1887e34cfeB03B052,
   0xb9eF3951ac2D04C6bdD886bF042041E3954E86aF,
   0x816Cec8f3A37Fd673Cfd4229441c59cA8DbD0641,
   0x14c9c4583F0b1af8a69452Ec1b29884240f83bDC,
   0x0049081C2D6def64800cC011Bd9aDe8682c6593a,
   0x53Fcb50a22aFd6e5438d754CB22c4726032d2488,
   0x35f4F0Bb73a6040F24927e1735B089d7769F7674,
   0x3B583C919fD4C863F3A17d11929346C687FfB7c3].map hexToAddress

def defaultAttestorsSongbirdOct22 : List Address :=
  [0x2D3e7e4b19bDc920fd9C57BD3072A31F5a59FeC8,
   0x442DD539Fe78D43A1a9358FF3460CfE63e2bC9CC,
   0x49893c5Dfc035F4eE4E46faC014f6D4bC80F7f92,
   0x5D2f75392DdDa69a2818021dd6a64937904c8352,
   0x6455dC38fdF739b6fE021b30C7D9672C1c6DEb5c,
   0x808441Ec3Fa1721330226E69527Bc160D8d9386a,
   0x823B0f5c7758E9d3bE55bA1EA840E29ccd5D5CcB,
   0x85016969b9eBDB8977975a4743c9FCEeabCEAf8A,
   0x8A3D627D86A81F5D21683F4963565C63DB5e1309].map hexToAddress

def defaultAttestorsSongbird : List Address :=
  [0x0c19f3B4927abFc596353B0f9Ddad5D817736F70].map hexToAddress

def defaultAttestorsCostwo : List Address :=
  [0x30e4b4542b4aAf615838B113f14c46dE1469212e,
   0x3519E14183252794aaA52aA824f34482ef44cE1d,
   0xb445857476181ec378Ec453ab3d122183CfC3b78,
   0x6D755cd7A61A9DCFc96FaE0f927C3a73bE986ce4,
   0xdC0fD24846303D58d2D66AA8820be2685735dBd2,
   0x3F52c41c0500a4f018A38c9f8273b254aD7e2FCc,
   0xdA6d6aA9F1f770c279c5DA0C71f4DC1142A70d5D,
   0x3d895D00d2802120D39d4D2554F7ef09d6845E99,
   0xc36141CFBe5Af6eB2F8b21550Ccd457DA7FaF3C6].map hexToAddress

def defaultAttestorsCoston : List Address :=
  [0x3a6e101103ec3d9267d08f484a6b70e1440a8255].map hexToAddress

def defaultAttestorsLocalFlare : List Address :=
  [0x8db97C7cEcE249c2b98bDC0226Cc4C2A57BF52FC].map hexToAddress

/-- Coston shares Costwo's list after its fork. -/
def getDefaultAttestors (chainID : ℕ) (blockTime : Uint64) : List Address :=
  if chainID = flareChainID then
    if submitterContractActivationTimeFlare < blockTime then defaultAttestorsFlareSubmitter
    else defaultAttestorsFlare
  else if chainID = songbirdChainID then
    if submitterContractActivationTimeSongbird < blockTime then defaultAttestorsSongbirdSubmitter
    else if songbirdOct22ForkTime < blockTime then defaultAttestorsSongbirdOct22
    else defaultAttestorsSongbird
  else if chainID = costwoChainID then
    defaultAttestorsCostwo
  else if chainID = costonChainID then
    if costonOct22ForkTime < blockTime then defaultAttestorsCostwo else defaultAttestorsCoston
  else if chainID = localFlareChainID then
    defaultAttestorsLocalFlare
  else
    []

structure AttestationVotes where
  reachedMajority : Bool := false
  /-- The source keeps the hexadecimal text of these bytes. -/
  majorityDecision : Bytes := []
  majorityAttestors : List Address := []
  divergentAttestors : List Address := []
  abstainedAttestors : List Address := []

/-- `GetAttestation`: the answer counts even when the call failed. -/
def getAttestation (st : StateTransition σ) (attestor : Address) (instructions : Bytes) :
    (Bytes × Option VMError) × StateTransition σ :=
  let (_, result, st') := daemonCall st attestor st.toAddress instructions 21000
  ((result.ret.getD [], result.err), st')

/-- Append an attestor to the entry of a key, as `m[h] = append(m[h], a)`. -/
def appendAt (m : List (Bytes × List Address)) (h : Bytes) (a : Address) :
    List (Bytes × List Address) :=
  match m with
  | [] => [(h, [a])]
  | (key, val) :: rest =>
    if key = h then (key, val ++ [a]) :: rest else (key, val) :: appendAt rest h a

/-- The loop of `GetAttestations`, with its three accumulators. -/
def getAttestations (instructions : Bytes) :
    List Address → AttestationVotes → List (Bytes × List Address) → StateTransition σ →
      (AttestationVotes × List (Bytes × List Address)) × StateTransition σ
  | [], votes, frequencies, st => ((votes, frequencies), st)
  | a :: rest, votes, frequencies, st =>
    let ((h, err), st') := getAttestation st a instructions
    let votes := if err.isSome then
        { votes with abstainedAttestors := votes.abstainedAttestors ++ [a] } else votes
    getAttestations instructions rest votes (appendAt frequencies h a) st'

/-- `CountAttestations`; `order` and `order'` are the orders of its two loops over
the map. -/
def countAttestations (order order' : List (Bytes × List Address) → List (Bytes × List Address))
    (votes : AttestationVotes) (numAttestors : ℕ) (frequencies : List (Bytes × List Address)) :
    AttestationVotes :=
  let plurality := (order frequencies).foldl
    (fun (best : ℕ × Bytes) entry =>
      if best.1 < entry.2.length ∧ 0 < entry.1.length then (entry.2.length, entry.1) else best)
    (0, [])
  let votes := if numAttestors / 2 < plurality.1 then
      { votes with
        reachedMajority := true
        majorityDecision := plurality.2
        majorityAttestors := (frequencies.lookup plurality.2).getD [] }
    else votes
  { votes with divergentAttestors := votes.divergentAttestors ++
      ((order' frequencies).filter (fun entry => entry.1 ≠ plurality.2)).flatMap (·.2) }

inductive SystemError where
  | callFailed (err : VMError)
  | forkingNode (defaultDecision localDecision : Bytes)
deriving DecidableEq, Repr

/-- `FinalisePreviousRound`. Decoding the decision cannot fail: it is the text of
bytes that were encoded before. -/
def finalisePreviousRound (env : Env) (st : StateTransition σ) (chainID : ℕ)
    (timestamp : Uint64) (currentRoundNumber : Bytes) :
    Option SystemError × StateTransition σ :=
  let instructions := getAttestationSelector ++ currentRoundNumber
  let attestors := getDefaultAttestors chainID timestamp
  let ((votes, frequencies), st₁) := getAttestations instructions attestors {} [] st
  let defaultVotes := countAttestations (env.mapOrder 0) (env.mapOrder 1) votes attestors.length
    frequencies
  let ((votes', frequencies'), st₂) := getAttestations instructions env.localAttestors {} [] st₁
  let localVotes := countAttestations (env.mapOrder 2) (env.mapOrder 3) votes'
    env.localAttestors.length frequencies'
  if 0 < env.localAttestors.length ∧ defaultVotes.reachedMajority ∧
      defaultVotes.majorityDecision ≠ localVotes.majorityDecision ∧ env.forkingEnabled then
    (some (.forkingNode defaultVotes.majorityDecision localVotes.majorityDecision), st₂)
  else if defaultVotes.reachedMajority then
    let (err, st₃) := signalCall st₂ (getStateConnectorCoinbaseSignalAddr chainID timestamp)
      (finaliseRoundSelector ++ currentRoundNumber ++ defaultVotes.majorityDecision)
    (err.map .callFailed, st₃)
  else
    (none, st₂)

/-- Collecting votes is a run of system calls, one per attestor. -/
theorem getAttestations_systemStep (instructions : Bytes) (attestors : List Address)
    (votes : AttestationVotes) (frequencies : List (Bytes × List Address))
    (st : StateTransition σ) (hevm : st.evm.Conserves) :
    SystemStep st (getAttestations instructions attestors votes frequencies st).2 := by
  induction attestors generalizing votes frequencies st with
  | nil => exact SystemStep.refl st
  | cons a rest ih =>
    have hcall : SystemStep st (getAttestation st a instructions).2 := ⟨rfl, fun _ => hevm.call_total _ _ _ _ _ _ _⟩
    have hevm' : (getAttestation st a instructions).2.evm.Conserves := by
      exact hevm
    exact hcall.trans (ih _ _ _ hevm')

theorem finalisePreviousRound_systemStep (env : Env) (hevm : st.evm.Conserves) (chainID : ℕ)
    (timestamp : Uint64) (round : Bytes) :
    SystemStep st (finalisePreviousRound env st chainID timestamp round).2 := by
  have h₁ := getAttestations_systemStep (getAttestationSelector ++ round)
    (getDefaultAttestors chainID timestamp) {} [] st hevm
  have h₂ := h₁.trans (getAttestations_systemStep (getAttestationSelector ++ round)
    env.localAttestors {} [] _ (by rw [h₁.evm_eq]; exact hevm))
  unfold finalisePreviousRound
  dsimp only
  split
  · exact h₂
  · split
    · exact h₂.trans (signalCall_systemStep (by rw [h₂.evm_eq]; exact hevm) _ _)
    · exact h₂

/-! ## Governance settings, airdrop and distribution -/

/-- The three Flare chains switch a contract on at their own time and address;
no other chain has it. -/
def activatedAndCalled (flare costwo localFlare : Uint64 × Address) (chainID : ℕ)
    (blockTime : Uint64) (dest : Address) : Bool :=
  if chainID = flareChainID ∧ flare.1 ≤ blockTime then dest = flare.2
  else if chainID = costwoChainID ∧ costwo.1 ≤ blockTime then dest = costwo.2
  else if chainID = localFlareChainID ∧ localFlare.1 ≤ blockTime then dest = localFlare.2
  else false

def getGovernanceSettingIsActivatedAndCalled : ℕ → Uint64 → Address → Bool :=
  activatedAndCalled
    (1662681600, hexToAddress 0x1000000000000000000000000000000000000007)
    (1662595200, hexToAddress 0x1000000000000000000000000000000000000007)
    (1640995200, hexToAddress 0x1000000000000000000000000000000000000007)

def getInitialAirdropChangeIsActivatedAndCalled : ℕ → Uint64 → Address → Bool :=
  activatedAndCalled
    (1668092400, hexToAddress 0x4AeE563140E36abA778944E2Ca68c3988CAd5730)
    (1666900800, hexToAddress 0x28561B938342efD0677f60Fd0912e1931367a612)
    (1640995200, hexToAddress 0x1000000000000000000000000000000000000008)

def getDistributionChangeIsActivatedAndCalled : ℕ → Uint64 → Address → Bool :=
  activatedAndCalled
    (1677682800, hexToAddress 0x4d1c42F41555Ae35DfC1819bd718f7D9Fb28abdD)
    (1674745200, hexToAddress 0xdF1deD5f1905C5012cbeE8367e3F4849afEAE545)
    (1672531200, hexToAddress 0x1000000000000000000000000000000000000009)

def governanceSettingsCoinbaseSignalAddr : Address := hexToAddress 0xDEaD0
def initialAirdropChangeCoinbaseSignalAddr : Address := hexToAddress 0xdead2
def distributionChangeCoinbaseSignalAddr : Address := hexToAddress 0xdeAD3

def setGovernanceAddressSelector : Bytes := [0xcf, 0xc1, 0x62, 0x54]
def setTimelockSelector : Bytes := [0x1e, 0x89, 0x1c, 0x0a]
def updateInitialAirdropAddressSelector : Bytes := [0x7d, 0x1f, 0x99, 0x46]
def updateDistributionAddressSelector : Bytes := [0x5a, 0xce, 0x4f, 0x0d]

def newGovernanceAddressIsPermitted (chainID : ℕ) (blockTime : Uint64)
    (newGovernanceAddress : Address) : Bool :=
  chainID = localFlareChainID && 1640995200 ≤ blockTime &&
    newGovernanceAddress = hexToAddress 0x100000000000000000000000000000000000000f

def newTimelockIsPermitted (chainID : ℕ) (blockTime : Uint64) (newTimelock : ℕ) : Bool :=
  if chainID = flareChainID then 1662681600 ≤ blockTime && newTimelock = 3600
  else if chainID = costwoChainID then 1662595200 ≤ blockTime && newTimelock = 3600
  else if chainID = localFlareChainID then 1640995200 ≤ blockTime && newTimelock = 3600
  else false

def initialAirdropContractAddress : Address :=
  hexToAddress 0x1000000000000000000000000000000000000006

def distributionContractAddress : Address :=
  hexToAddress 0x1000000000000000000000000000000000000004

/-- The airdrop and the distribution have the same targets. -/
def migrationTarget (chainID : ℕ) : Address :=
  if chainID = flareChainID then hexToAddress 0xbe653C54DF337F13Fcb726101388F4a4803049F3
  else if chainID = costwoChainID then hexToAddress 0xC83Ec6a4aFf2099942836860A28C7e248Fabc32C
  else feeSink

def getTargetAirdropContractAddress : ℕ → Address := migrationTarget
def getTargetDistributionContractAddress : ℕ → Address := migrationTarget

/-- `common.BytesToAddress` keeps the last 20 bytes. -/
def bytesToAddress (b : Bytes) : Address := hexToAddress (bytesToNat b)

def setGovernanceAddress (st : StateTransition σ) (chainID : ℕ) (timestamp : Uint64)
    (newGovernanceAddress : Bytes) : Option VMError × StateTransition σ :=
  if newGovernanceAddressIsPermitted chainID timestamp (bytesToAddress newGovernanceAddress) then
    signalCall st governanceSettingsCoinbaseSignalAddr st.msg.data
  else
    (none, st)

def setTimelock (st : StateTransition σ) (chainID : ℕ) (timestamp : Uint64)
    (newTimelock : Bytes) : Option VMError × StateTransition σ :=
  if newTimelockIsPermitted chainID timestamp (bytesToNat ((newTimelock.drop 24).take 8)) then
    signalCall st governanceSettingsCoinbaseSignalAddr st.msg.data
  else
    (none, st)

/-- Signal the contract, then move the whole balance of `source` to `target`. -/
def migrate (st : StateTransition σ) (signal source target : Address) :
    Option VMError × StateTransition σ :=
  match signalCall st signal st.msg.data with
  | (some err, st') => (some err, st')
  | (none, st') =>
    if source ≠ target then
      (none, st'.modify fun w =>
        (w.subBalance source (w.getBalance source)).addBalance target (w.getBalance source))
    else
      (none, st')

def updateInitialAirdropAddress (st : StateTransition σ) (chainID : ℕ) :
    Option VMError × StateTransition σ :=
  migrate st initialAirdropChangeCoinbaseSignalAddr initialAirdropContractAddress
    (getTargetAirdropContractAddress chainID)

def updateDistributionAddress (st : StateTransition σ) (chainID : ℕ) :
    Option VMError × StateTransition σ :=
  migrate st distributionChangeCoinbaseSignalAddr distributionContractAddress
    (getTargetDistributionContractAddress chainID)

theorem migrate_systemStep (hevm : st.evm.Conserves) (signal source target : Address) :
    SystemStep st (migrate st signal source target).2 := by
  have hcall := signalCall_systemStep hevm signal st.msg.data
  unfold migrate
  rcases hr : signalCall st signal st.msg.data with ⟨err, st'⟩
  rw [hr] at hcall
  rcases err with _ | err
  · dsimp only
    split
    · exact hcall.trans ⟨rfl, fun hfit => Lib.total_credit_debit hfit⟩
    · exact hcall
  · exact hcall

/-! ## The handlers -/

/-- The recipient of a call that submits an attestation for the first time in a
round. -/
def submitsAttestation (isDurango : Bool) (chainID : ℕ) (timestamp : Uint64) (dest : Address)
    (data ret : Bytes) : Bool :=
  getStateConnectorIsActivatedAndCalled isDurango chainID timestamp dest &&
    36 ≤ data.length && ret.length = 32 && data.take 4 = submitAttestationSelector &&
    0 < bytesToNat (ret.drop 24)

def handleSongbirdTransitionDbContracts (env : Env) (st : StateTransition σ) (isDurango : Bool)
    (chainID : ℕ) (timestamp : Uint64) (dest : Address) (ret : Bytes) : StateTransition σ :=
  if submitsAttestation isDurango chainID timestamp dest st.msg.data ret then
    (finalisePreviousRound env st chainID timestamp ((st.msg.data.drop 4).take 32)).2
  else
    st

def handleFlareTransitionDbContracts (env : Env) (st : StateTransition σ) (isDurango : Bool)
    (chainID : ℕ) (timestamp : Uint64) (dest : Address) (ret : Bytes) : StateTransition σ :=
  let data := st.msg.data
  if st.evm.context.coinbase ≠ systemCoinbase then
    st
  else if submitsAttestation isDurango chainID timestamp dest data ret then
    (finalisePreviousRound env st chainID timestamp ((data.drop 4).take 32)).2
  else if getGovernanceSettingIsActivatedAndCalled chainID timestamp dest ∧ data.length = 36 then
    if data.take 4 = setGovernanceAddressSelector then
      (setGovernanceAddress st chainID timestamp (data.drop 4)).2
    else if data.take 4 = setTimelockSelector then
      (setTimelock st chainID timestamp (data.drop 4)).2
    else st
  else if getInitialAirdropChangeIsActivatedAndCalled chainID timestamp dest ∧
      data.length = 4 then
    if data = updateInitialAirdropAddressSelector then
      (updateInitialAirdropAddress st chainID).2
    else st
  else if getDistributionChangeIsActivatedAndCalled chainID timestamp dest ∧ data.length = 4 then
    if data = updateDistributionAddressSelector then
      (updateDistributionAddress st chainID).2
    else st
  else
    st

section Handlers

variable (env : Env) (hevm : st.evm.Conserves) (isDurango : Bool) (chainID : ℕ) (timestamp : Uint64)
  (dest : Address) (ret : Bytes)

include hevm

theorem handleSongbirdTransitionDbContracts_systemStep :
    SystemStep st (handleSongbirdTransitionDbContracts env st isDurango chainID timestamp dest ret) := by
  unfold handleSongbirdTransitionDbContracts
  split
  · exact finalisePreviousRound_systemStep env hevm _ _ _
  · exact SystemStep.refl st

theorem handleFlareTransitionDbContracts_systemStep :
    SystemStep st (handleFlareTransitionDbContracts env st isDurango chainID timestamp dest ret) := by
  have hrefl := SystemStep.refl st
  have hgov : SystemStep st (setGovernanceAddress st chainID timestamp (st.msg.data.drop 4)).2 := by
    unfold setGovernanceAddress
    split
    · exact signalCall_systemStep hevm _ _
    · exact hrefl
  have hlock : SystemStep st (setTimelock st chainID timestamp (st.msg.data.drop 4)).2 := by
    unfold setTimelock
    split
    · exact signalCall_systemStep hevm _ _
    · exact hrefl
  have hmove := fun signal source target => migrate_systemStep hevm signal source target
  unfold handleFlareTransitionDbContracts
  dsimp only
  -- one goal per exit of the dispatch
  split_ifs
  · exact hrefl
  · exact finalisePreviousRound_systemStep env hevm _ _ _
  · exact hgov
  · exact hlock
  · exact hrefl
  · exact hmove _ _ _
  · exact hrefl
  · exact hmove _ _ _
  · exact hrefl
  · exact hrefl

end Handlers

end Titan.CChain
