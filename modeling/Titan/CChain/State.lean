import Titan.Lib.Checked
import Titan.Lib.Ledger

/-!
# Titan.CChain.State — world state, EVM and block context

The parts of the C-chain execution environment that the state transition reads
and writes:

* `World` is the content of the state database: balances, nonces, code hashes,
  the refund counter, and everything else (`rest`: code, storage, access lists,
  transient storage, logs), which the state transition never looks into.
* `StateDB` adds the stack of revisions behind `Snapshot` and
  `RevertToSnapshot`.
* `EVM` is the interpreter. It is not part of this repository, so its `call`
  and `create` are parameters; what the results assume of them is stated where
  it is used.
-/

namespace Titan.CChain

abbrev Uint256 := BitVec 256
abbrev Uint64 := BitVec 64
abbrev Address := Fin (2 ^ 160)
abbrev Hash := BitVec 256
abbrev Bytes := List UInt8

/-- `common.HexToAddress` of a literal. -/
def hexToAddress (n : ℕ) : Address := Fin.ofNat (2 ^ 160) n

/-! ## The state database -/

structure World (σ : Type) where
  balance : Address → Uint256
  nonce : Address → Uint64
  codeHash : Address → Hash
  refund : Uint64
  rest : σ

namespace World

variable {σ : Type}

def getBalance (w : World σ) (a : Address) : Uint256 := w.balance a

def addBalance (w : World σ) (a : Address) (amount : Uint256) : World σ :=
  { w with balance := Lib.credit w.balance a amount }

def subBalance (w : World σ) (a : Address) (amount : Uint256) : World σ :=
  { w with balance := Lib.debit w.balance a amount }

def setNonce (w : World σ) (a : Address) (n : Uint64) : World σ :=
  { w with nonce := Function.update w.nonce a n }

/-- The sum of all balances. -/
def totalBalance (w : World σ) : ℕ := Lib.total w.balance

@[simp] theorem addBalance_zero (w : World σ) (a : Address) : w.addBalance a 0 = w := by
  simp [addBalance, Lib.credit]

theorem totalBalance_addBalance {w : World σ} {a : Address} {v : Uint256}
    (h : w.totalBalance + v.toNat < 2 ^ 256) :
    (w.addBalance a v).totalBalance = w.totalBalance + v.toNat :=
  Lib.total_credit h

theorem totalBalance_subBalance {w : World σ} {a : Address} {v : Uint256}
    (h : v.toNat ≤ (w.getBalance a).toNat) :
    (w.subBalance a v).totalBalance + v.toNat = w.totalBalance :=
  Lib.total_debit h

end World

/-- The state database: the current content and the revisions that `snapshot`
recorded, oldest first. A revision's identifier is its position. -/
structure StateDB (σ : Type) where
  world : World σ
  revisions : List (World σ)

namespace StateDB

variable {σ : Type}

def snapshot (s : StateDB σ) : ℕ × StateDB σ :=
  (s.revisions.length, { s with revisions := s.revisions ++ [s.world] })

/-- Go back to the content recorded under `id` and forget later revisions. The
library panics on an unknown identifier; here the state then stays. -/
def revertToSnapshot (s : StateDB σ) (id : ℕ) : StateDB σ :=
  match s.revisions[id]? with
  | some w => { world := w, revisions := s.revisions.take id }
  | none => s

/-- Apply a change of the content. -/
def modify (s : StateDB σ) (f : World σ → World σ) : StateDB σ :=
  { s with world := f s.world }

end StateDB

/-! ## The EVM -/

structure BlockContext where
  coinbase : Address
  time : Uint64
  gasLimit : Uint64
  /-- `nil` before the dynamic fee upgrades. -/
  baseFee : Option ℕ
  blobBaseFee : Option ℕ

/-- The rules in force at a block, as far as the state transition asks. -/
structure Rules where
  isHomestead : Bool
  isIstanbul : Bool
  isLondon : Bool
  isCancun : Bool
  isApricotPhase1 : Bool
  isDurango : Bool

/-- The error of an EVM execution; its text plays no role in consensus. -/
inductive VMError where
  | executionReverted
  | other (reason : String)
deriving DecidableEq, Repr

/-- Result of `evm.Call` and `evm.Create`. A Go slice distinguishes `nil` from
an empty slice, hence the option. -/
structure CallResult (σ : Type) where
  world : World σ
  ret : Option Bytes
  leftOverGas : Uint64
  err : Option VMError

structure EVM (σ : Type) where
  /-- `ChainConfig().ChainID`, a `*big.Int` that may be `nil`. -/
  chainID : Option ℕ
  rules : Rules
  context : BlockContext
  /-- `Config.NoBaseFee`. -/
  noBaseFee : Bool
  call : BlockContext → World σ → (caller addr : Address) → Bytes → Uint64 → Uint256 →
    CallResult σ
  create : BlockContext → World σ → (caller : Address) → Bytes → Uint64 → Uint256 →
    CallResult σ
  /-- `PredicateGas` of the predicater contract at an address, when there is
  one. -/
  predicater : Address → Option (List Hash → Except String Uint64)
  /-- `rulesExtra.PredicatersExist()`. -/
  predicatersExist : Bool
  /-- `StateDB.Prepare`: access list and transient storage. -/
  prepare : σ → σ
  /-- `ExecutionInvalidated()` at the end of the transition. -/
  executionInvalidated : World σ → Option VMError

/-- `evm.Call` and `evm.Create` move balances between accounts, and never
return more gas than they were given. -/
structure EVM.Conserves {σ : Type} (evm : EVM σ) : Prop where
  call_total : ∀ ctx w caller addr input gas value,
    (evm.call ctx w caller addr input gas value).world.totalBalance = w.totalBalance
  create_total : ∀ ctx w caller code gas value,
    (evm.create ctx w caller code gas value).world.totalBalance = w.totalBalance
  call_gas : ∀ ctx w caller addr input gas value,
    (evm.call ctx w caller addr input gas value).leftOverGas ≤ gas
  create_gas : ∀ ctx w caller code gas value,
    (evm.create ctx w caller code gas value).leftOverGas ≤ gas

end Titan.CChain
