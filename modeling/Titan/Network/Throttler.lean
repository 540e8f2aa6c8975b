import Titan.Lib.Pool

/-!
# Titan.Network.Throttler — inbound messages wait for bytes

Before a message is read, `Acquire` takes as many bytes as it has from two pools: one that
all nodes share, of which a node may hold a limited part, and one for validators. What is
missing is waited for; `release` gives bytes back and hands them on to messages that wait
(`network/throttling/inbound_msg_byte_throttler.go`).

* A call of `Acquire` is a record with the fields of its `msgMetadata`. `waitingToAcquire`
  has references to these records, as its pointers.
* A step is what is done while the lock is held. A call that waits is resumed after its
  channel is closed, or after its context is cancelled; if both happened, either may be.
* The size of a node's validator allocation, which follows from weights, is an argument.
* A counter that would wrap around is a fault, as is a channel that is closed twice.
  The differences that are taken without a check have a minimum as their second argument.

Not modelled: metrics and logs.
-/

namespace Titan.Network

open Lib

/-- `MsgByteThrottlerConfig`. -/
structure Config where
  vdrAllocSize : UInt64
  atLargeAllocSize : UInt64
  nodeMaxAtLargeBytes : UInt64

inductive Fault
  | overflow
  | underflow
  | closeOfClosedChannel
  | nilPointer
deriving DecidableEq, Repr

/-- Where a call of `Acquire` is. -/
inductive Phase
  /-- At the `select`. -/
  | blocked
  /-- It returned with all of its bytes. -/
  | acquired
  /-- It returned since its context is cancelled. -/
  | cancelled
  /-- It returned at once, since its node was waiting already. -/
  | refused
  /-- The function that it returned was called. -/
  | released
deriving DecidableEq, Repr

variable {N : Type} [DecidableEq N]

/-- A call of `Acquire`, with its `msgMetadata`. -/
structure Call (N : Type) where
  nodeID : N
  msgSize : ℕ
  bytesNeeded : ℕ
  msgID : UInt64
  /-- `closeOnAcquireChan` is closed. -/
  closed : Bool
  phase : Phase
deriving DecidableEq

/-- `inboundMsgByteThrottler`, and all calls of `Acquire`. -/
structure Throttler (N : Type) [DecidableEq N] where
  nodeMaxAtLargeBytes : ℕ
  /-- `remainingVdrBytes` and `nodeToVdrBytesUsed`. -/
  vdr : Pool N
  /-- `remainingAtLargeBytes` and `nodeToAtLargeBytesUsed`. -/
  atLarge : Pool N
  nextMsgID : UInt64
  nodeToWaitingMsgID : AList fun _ : N => UInt64
  /-- Oldest first. -/
  waitingToAcquire : List (UInt64 × ℕ)
  calls : List (Call N)

def newInboundMsgByteThrottler (config : Config) : Throttler N where
  nodeMaxAtLargeBytes := config.nodeMaxAtLargeBytes.toNat
  vdr := Pool.new config.vdrAllocSize.toNat
  atLarge := Pool.new config.atLargeAllocSize.toNat
  nextMsgID := 0
  nodeToWaitingMsgID := ∅
  waitingToAcquire := []
  calls := []

namespace Throttler

variable (t : Throttler N)

/-- Bytes of the pool that all nodes share for a message that needs some, within the node's limit. -/
def takeAtLarge (nodeID : N) (bytesNeeded : ℕ) : Except Fault (Pool N × ℕ) := do
  let limit ← checkedSub Fault.underflow t.nodeMaxAtLargeBytes (t.atLarge.held nodeID)
  let bytes := min bytesNeeded (min limit t.atLarge.remaining)
  if 0 < bytes then
    let atLarge ← t.atLarge.take Fault.overflow Fault.underflow nodeID bytes
    return (atLarge, bytes)
  else return (t.atLarge, 0)

/-- Bytes of the validators' pool, up to the node's allocation. -/
def takeVdr (nodeID : N) (bytesNeeded vdrAllocationSize : ℕ) : Except Fault (Pool N × ℕ) := do
  let vdrBytesAlreadyUsed := t.vdr.held nodeID
  let vdrBytesAllowed :=
    if vdrAllocationSize ≤ vdrBytesAlreadyUsed then 0 else vdrAllocationSize - vdrBytesAlreadyUsed
  let bytes := min t.vdr.remaining (min bytesNeeded vdrBytesAllowed)
  if 0 < bytes then
    let vdr ← t.vdr.take Fault.overflow Fault.underflow nodeID bytes
    return (vdr, bytes)
  else return (t.vdr, 0)

def acquire (nodeID : N) (msgSize vdrAllocationSize : ℕ) : Except Fault (Throttler N) := do
  if (t.nodeToWaitingMsgID.lookup nodeID).isSome then
    return { t with calls := t.calls ++ [⟨nodeID, msgSize, msgSize, 0, false, .refused⟩] }
  let (atLarge, atLargeBytesUsed) ← t.takeAtLarge nodeID msgSize
  let bytesNeeded := msgSize - atLargeBytesUsed
  if 0 < atLargeBytesUsed ∧ bytesNeeded = 0 then
    return { t with
      atLarge := atLarge
      calls := t.calls ++ [⟨nodeID, msgSize, bytesNeeded, 0, false, .acquired⟩] }
  let (vdr, vdrBytesUsed) ← t.takeVdr nodeID bytesNeeded vdrAllocationSize
  let bytesNeeded := bytesNeeded - vdrBytesUsed
  if 0 < vdrBytesUsed ∧ bytesNeeded = 0 then
    return { t with
      atLarge := atLarge
      vdr := vdr
      calls := t.calls ++ [⟨nodeID, msgSize, bytesNeeded, 0, false, .acquired⟩] }
  let msgID := t.nextMsgID + 1
  return { t with
    atLarge := atLarge
    vdr := vdr
    nextMsgID := msgID
    nodeToWaitingMsgID := t.nodeToWaitingMsgID.insert nodeID msgID
    -- `Put` of a key that is there moves it to the back
    waitingToAcquire := t.waitingToAcquire.filter (·.1 ≠ msgID) ++ [(msgID, t.calls.length)]
    calls := t.calls ++ [⟨nodeID, msgSize, bytesNeeded, msgID, false, .blocked⟩] }

/-- The call goes on after its channel was closed. -/
def wake (i : ℕ) (call : Call N) : Throttler N :=
  { t with calls := t.calls.set i { call with phase := .acquired } }

/-- The call goes on after its context was cancelled. -/
def cancel (i : ℕ) (call : Call N) : Throttler N :=
  { t with
    nodeToWaitingMsgID := t.nodeToWaitingMsgID.erase call.nodeID
    waitingToAcquire := t.waitingToAcquire.filter (·.1 ≠ call.msgID)
    calls := t.calls.set i { call with phase := .cancelled } }

/-- Give bytes to a message of a node that waits. One that has all of its bytes does not wait any more. -/
def give (nodeID : N) (msgID : UInt64) (i : ℕ) (call : Call N) (bytes : ℕ) : Except Fault (Throttler N) := do
  let bytesNeeded := call.bytesNeeded - bytes
  if bytesNeeded = 0 then
    if call.closed then .error .closeOfClosedChannel
    else return { t with
      nodeToWaitingMsgID := t.nodeToWaitingMsgID.erase nodeID
      waitingToAcquire := t.waitingToAcquire.filter (·.1 ≠ msgID)
      calls := t.calls.set i { call with bytesNeeded := bytesNeeded, closed := true } }
  else return { t with calls := t.calls.set i { call with bytesNeeded := bytesNeeded } }

/-- The loop of `release` over the messages that wait. -/
def handOut (t : Throttler N) : List (UInt64 × ℕ) → (atLargeBytesToReturn : ℕ) → Except Fault (Throttler N)
  | [], _ => return t
  | (msgID, i) :: rest, atLargeBytesToReturn =>
    if t.atLarge.remaining = 0 then return t
    else
      match t.calls[i]? with
      | none => .error .nilPointer
      | some call => do
          let (atLarge, bytes) ← t.takeAtLarge call.nodeID call.bytesNeeded
          let atLargeBytesToReturn ← checkedSub Fault.underflow atLargeBytesToReturn bytes
          let t ← { t with atLarge := atLarge }.give call.nodeID msgID i call bytes
          t.handOut rest atLargeBytesToReturn

/-- The message of a node that waits, if any, takes over validator bytes of its node. What is left
is returned. -/
def handOver (nodeID : N) (vdrBytesToReturn : ℕ) : Except Fault (Throttler N × ℕ) :=
  match t.nodeToWaitingMsgID.lookup nodeID with
  | none => return (t, vdrBytesToReturn)
  | some msgID =>
    if vdrBytesToReturn = 0 then return (t, vdrBytesToReturn)
    else
      match t.waitingToAcquire.find? (·.1 = msgID) with
      | none => return (t, vdrBytesToReturn)
      | some (_, i) =>
        match t.calls[i]? with
        | none => .error .nilPointer
        | some call => do
            let bytesToGive := min call.bytesNeeded vdrBytesToReturn
            let t ← t.give nodeID msgID i call bytesToGive
            return (t, vdrBytesToReturn - bytesToGive)

/-- Bytes go back to the pool that all nodes share, and to messages that wait for them. -/
def returnAtLarge (nodeID : N) (atLargeBytesToReturn : ℕ) : Except Fault (Throttler N) :=
  if 0 < atLargeBytesToReturn then do
    let atLarge ← t.atLarge.giveBack Fault.overflow Fault.underflow nodeID atLargeBytesToReturn
    { t with atLarge := atLarge }.handOut t.waitingToAcquire atLargeBytesToReturn
  else .ok t

/-- Bytes go back to the validators' pool. -/
def returnVdr (nodeID : N) (vdrBytesToReturn : ℕ) : Except Fault (Throttler N) :=
  if 0 < vdrBytesToReturn then do
    let vdr ← t.vdr.giveBack Fault.overflow Fault.underflow nodeID vdrBytesToReturn
    return { t with vdr := vdr }
  else .ok t

def release (i : ℕ) (call : Call N) : Except Fault (Throttler N) := do
  let releasedBytes ← checkedSub Fault.underflow call.msgSize call.bytesNeeded
  let vdrBytesToReturn := min releasedBytes (t.vdr.held call.nodeID)
  let atLargeBytesToReturn := releasedBytes - vdrBytesToReturn
  let t := { t with calls := t.calls.set i { call with phase := .released } }
  let t ← t.returnAtLarge call.nodeID atLargeBytesToReturn
  let (t, vdrBytesToReturn) ← t.handOver call.nodeID vdrBytesToReturn
  t.returnVdr call.nodeID vdrBytesToReturn

end Throttler

/-! ## Runs -/

inductive Event (N : Type)
  | acquire (nodeID : N) (msgSize vdrAllocationSize : ℕ)
  /-- The channel of a call is closed. -/
  | wake (i : ℕ)
  /-- The context of a call is done. -/
  | cancel (i : ℕ)
  | release (i : ℕ)
deriving DecidableEq, Repr

/-- What a call does, if it exists. -/
def Throttler.step (t : Throttler N) : Event N → Except Fault (Throttler N)
  | .acquire nodeID msgSize vdrAllocationSize => t.acquire nodeID msgSize vdrAllocationSize
  | .wake i =>
    match t.calls[i]? with
    | none => .error .nilPointer
    | some call => return t.wake i call
  | .cancel i =>
    match t.calls[i]? with
    | none => .error .nilPointer
    | some call => return t.cancel i call
  | .release i =>
    match t.calls[i]? with
    | none => .error .nilPointer
    | some call => t.release i call

/-- A message of the node waits for bytes. -/
def Throttler.Waiting (t : Throttler N) (nodeID : N) : Prop :=
  ∃ call ∈ t.calls, call.nodeID = nodeID ∧ call.phase = .blocked ∧ call.closed = false

instance (t : Throttler N) (nodeID : N) : Decidable (t.Waiting nodeID) :=
  inferInstanceAs (Decidable (∃ call ∈ t.calls, _))

/-- The events that can happen: a node has one message that waits at most, a call that is blocked
goes on after its channel is closed or its context is done, and what it returned is called once. -/
def Throttler.Enabled (t : Throttler N) : Event N → Prop
  | .acquire nodeID _ _ => ¬ t.Waiting nodeID
  | .wake i => ∃ call ∈ t.calls[i]?, call.phase = .blocked ∧ call.closed = true
  | .cancel i => ∃ call ∈ t.calls[i]?, call.phase = .blocked
  | .release i => ∃ call ∈ t.calls[i]?, call.phase = .acquired ∨ call.phase = .cancelled

instance (t : Throttler N) : (event : Event N) → Decidable (t.Enabled event)
  | .acquire nodeID _ _ => inferInstanceAs (Decidable (¬ t.Waiting nodeID))
  | .wake i => inferInstanceAs (Decidable (∃ call ∈ t.calls[i]?, _))
  | .cancel i => inferInstanceAs (Decidable (∃ call ∈ t.calls[i]?, _))
  | .release i => inferInstanceAs (Decidable (∃ call ∈ t.calls[i]?, _))

/-- The runs of a throttler whose steps can happen and meet a condition. -/
def Runs (Meets : Throttler N → Event N → Prop) : Throttler N → List (Event N) → Prop
  | _, [] => True
  | t, event :: events => t.Enabled event ∧ Meets t event ∧
      match t.step event with
      | .error _ => True
      | .ok t' => Runs Meets t' events

instance decidableRuns (Meets : Throttler N → Event N → Prop) [∀ t event, Decidable (Meets t event)] :
    (t : Throttler N) → (events : List (Event N)) → Decidable (Runs Meets t events)
  | _, [] => inferInstanceAs (Decidable True)
  | t, event :: events =>
    have : Decidable (match t.step event with
        | .error _ => True
        | .ok t' => Runs Meets t' events) :=
      match t.step event with
      | .error _ => inferInstanceAs (Decidable True)
      | .ok t' => decidableRuns Meets t' events
    inferInstanceAs (Decidable (t.Enabled event ∧ Meets t event ∧ _))

def Throttler.run (t : Throttler N) (events : List (Event N)) : Except Fault (Throttler N) :=
  events.foldlM Throttler.step t

end Titan.Network
