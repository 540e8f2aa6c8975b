import Titan.CChain.Message

/-!
# Titan.CChain.Config — per-chain parameters of the state transition

Chain identifiers, the `ChainValue` tables keyed by them, the burn address and
nominal gas price of each chain, and the prioritised contract calls.
-/

namespace Titan.CChain

def flareChainID : ℕ := 14
def costonChainID : ℕ := 16
def songbirdChainID : ℕ := 19
def costwoChainID : ℕ := 114
def localFlareChainID : ℕ := 162
def titanChainID : ℕ := 888
def localChainID : ℕ := 4294967295

/-- `utils.ChainValue`: a table keyed by the low 64 bits of a chain ID. -/
structure ChainValue (T : Type) where
  valueMap : List (ℕ × T)
  defaultValue : T

namespace ChainValue

variable {T : Type}

def new (defaultValue : T) : ChainValue T where
  valueMap := []
  defaultValue := defaultValue

/-- A later entry overrides an earlier one. -/
def addValue (cv : ChainValue T) (chainID : ℕ) (v : T) : ChainValue T :=
  { cv with valueMap := (chainID % 2 ^ 64, v) :: cv.valueMap }

def addValues (cv : ChainValue T) (chainIDs : List ℕ) (v : T) : ChainValue T :=
  chainIDs.foldl (fun cv chainID => cv.addValue chainID v) cv

/-- `GetValue`: the default for a `nil` chain ID. -/
def getValue (cv : ChainValue T) : Option ℕ → T
  | some chainID => (cv.valueMap.lookup (chainID % 2 ^ 64)).getD cv.defaultValue
  | none => cv.defaultValue

end ChainValue

/-! ## Burn address and nominal price -/

/-- The address block producers must name as coinbase on the Songbird networks. -/
def systemCoinbase : Address := hexToAddress 0x0100000000000000000000000000000000000000

/-- `0x…dEaD`. -/
def feeSink : Address := hexToAddress 0xdEaD

/-- `ap4.MinBaseFee`: 25 GWei. -/
def ap4MinBaseFee : Uint64 := 25000000000

structure StateTransitionParams where
  burnAddress : Address
  nominalGasPrice : Uint64
  isFlare : Bool
  isSongbird : Bool

/-- Used in tests. -/
def nonFlareChain (_coinbase : Address) : Option StateTransitionParams :=
  some ⟨feeSink, ap4MinBaseFee, false, false⟩

def stateTransitionParamsFlare (_coinbase : Address) : Option StateTransitionParams :=
  some ⟨feeSink, ap4MinBaseFee, true, false⟩

/-- Fails with `invalid value for block.coinbase`. -/
def stateTransitionParamsSongbird (coinbase : Address) : Option StateTransitionParams :=
  if coinbase = systemCoinbase then some ⟨coinbase, 225000000000, false, true⟩ else none

def stateTransitionVariants : ChainValue (Address → Option StateTransitionParams) :=
  (((ChainValue.new nonFlareChain).addValues
    [flareChainID, costwoChainID, localFlareChainID, titanChainID] stateTransitionParamsFlare).addValues
    [songbirdChainID, costonChainID, localChainID] stateTransitionParamsSongbird)

/-! ## Prioritised contract calls -/

structure PrioritisedParams where
  submitterActivationTime : Uint64
  submitterAddress : Address
  maxGasLimit : Uint64
  dataPrefixActivationTime : Uint64
  submitterDataPrefixes : List Bytes
  ftsoDataPrefixes : List Bytes

/-- Unix seconds of the activation dates in the source. -/
def submitterContractActivationTimeFlare : Uint64 := 1711454400
def submitterContractActivationTimeCostwo : Uint64 := 1709812800
def submitterContractActivationTimeSongbird : Uint64 := 1710504000
def submitterContractActivationTimeCoston : Uint64 := 1709208000

def prioritisedFTSOContractAddress : Address :=
  hexToAddress 0x1000000000000000000000000000000000000003

def prioritisedSubmitterContractAddress : Address :=
  hexToAddress 0x2cA6571Daa15ce734Bbd0Bf27D5C9D16787fc33f

def submitterDataPrefixes : List Bytes :=
  [[0x6c, 0x53, 0x2f, 0xae], [0x9d, 0x00, 0xc9, 0xfd], [0xe1, 0xb1, 0x57, 0xe7],
   [0x57, 0xee, 0xd5, 0x80], [0x83, 0x3b, 0xf6, 0xc0]]

def prioritisedFTSOContractDataPrefixesFlareNetworks : List Bytes :=
  [[0x8f, 0xc6, 0xf6, 0x67], [0xe2, 0xdb, 0x5a, 0x52]]

def prioritisedFTSOContractDataPrefixesSongbirdNetworks : List Bytes :=
  [[0xc5, 0xad, 0xc5, 0x39], [0x60, 0x84, 0x8b, 0x44]]

def prioritisedCallDataCap : ℕ := 4500

def maxUint64 : Uint64 := BitVec.allOnes 64

/-- What a node takes from its environment and its runtime. -/
structure Env where
  /-- `SUBMITTER_CONTRACT_ADDRESS`. -/
  submitterContractAddress : Address
  /-- `SC_LOCAL_ATTESTATORS`. -/
  localAttestors : List Address
  /-- `SC_FORKING_ENABLED`. -/
  forkingEnabled : Bool
  /-- The order in which the n-th loop over a Go map visits its entries. -/
  mapOrder : ℕ → List (Bytes × List Address) → List (Bytes × List Address)

def prioritisedContractVariants (env : Env) : ChainValue PrioritisedParams :=
  (ChainValue.new (PrioritisedParams.mk 0 (hexToAddress 0) 0 0 [] []))
    |>.addValue flareChainID
      ⟨submitterContractActivationTimeFlare, prioritisedSubmitterContractAddress, 3000000, 1728572400,
        submitterDataPrefixes, prioritisedFTSOContractDataPrefixesFlareNetworks⟩
    |>.addValue costwoChainID
      ⟨submitterContractActivationTimeCostwo, prioritisedSubmitterContractAddress, 3000000, 1728554400,
        submitterDataPrefixes, prioritisedFTSOContractDataPrefixesFlareNetworks⟩
    |>.addValue songbirdChainID
      ⟨submitterContractActivationTimeSongbird, prioritisedSubmitterContractAddress, maxUint64, 1728565200,
        submitterDataPrefixes, prioritisedFTSOContractDataPrefixesSongbirdNetworks⟩
    |>.addValue costonChainID
      ⟨submitterContractActivationTimeCoston, prioritisedSubmitterContractAddress, maxUint64, 1728547200,
        submitterDataPrefixes, prioritisedFTSOContractDataPrefixesSongbirdNetworks⟩
    |>.addValue localFlareChainID
      ⟨0, env.submitterContractAddress, 3000000, 0, [], []⟩
    |>.addValue localChainID
      ⟨0, env.submitterContractAddress, maxUint64, 0, [], []⟩
    |>.addValue titanChainID
      ⟨0, prioritisedSubmitterContractAddress, 3000000, 0,
        submitterDataPrefixes, prioritisedFTSOContractDataPrefixesFlareNetworks⟩

def isZeroSlice (s : Bytes) : Bool := s.all (· = 0)

def checkDataPrefix (data : Bytes) (prefixes : List Bytes) : Bool :=
  if data.length < 4 then false else prefixes.any (fun pre => data.take 4 = pre)

/-- `IsPrioritisedContractCall`. -/
def isPrioritisedContractCall (env : Env) (chainID : Option ℕ) (blockTime : Uint64)
    (dest : Option Address) (data : Bytes) (ret : Option Bytes) (initialGas : Uint64) : Bool :=
  match dest, chainID with
  | some dest, some id =>
    let chainValue := (prioritisedContractVariants env).getValue (some id)
    if chainValue.maxGasLimit < initialGas then
      false
    else if dest = prioritisedFTSOContractAddress then
      if chainValue.dataPrefixActivationTime < blockTime then
        checkDataPrefix data chainValue.ftsoDataPrefixes
      else
        true
    else if dest = chainValue.submitterAddress ∧ chainValue.submitterActivationTime < blockTime ∧
        ¬ isZeroSlice (ret.getD []) then
      if chainValue.dataPrefixActivationTime < blockTime then
        data.length ≤ prioritisedCallDataCap && checkDataPrefix data chainValue.submitterDataPrefixes
      else
        true
    else
      false
  | _, _ => false

end Titan.CChain
