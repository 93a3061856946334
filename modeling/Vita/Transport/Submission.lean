import Vita.Transport.Framing
import Vita.Transaction.Admission
import Vita.Completion.Lifecycle
import Mathlib.Data.List.Basic

/-!
# Submissions to a transport (`transport/types.hpp`, `stream/counters.hpp`, `memory/pool.hpp`)

What a transport is given and what it borrows: the packet counters, the pools of receive buffers, the
tickets of the completion arena and the submission itself. The entries of a counter registry are never
removed, so the array is a list with a capacity. A ticket is a slot of the completion arena in one of
its generations; nothing reserves it a second time.
-/

namespace Vita.Transport

open Words Checked Codec
open Completion (CompletionResult CompletionStatus)
open Transaction (AdmissionPool AdmissionBundle AdmissionRequest Resource)

/-! ## Packet counters -/

structure CounterKey where
  sender : UInt64 := 0
  streamId : Option UInt32 := none
  type : PacketType := .signal
deriving DecidableEq

structure CounterRegistry where
  capacity : ℕ
  entries : List (CounterKey × UInt8) := []
  frozen : Bool := false

namespace CounterRegistry

/-- A key names a stream exactly if its packet type has one. -/
def malformed (key : CounterKey) : Bool :=
  (key.type = .signalWithoutSid ∨ key.type = .extensionWithoutSid) = key.streamId.isSome

/-- A new entry starts with the count 0. -/
def insert (conflict : ErrorCode) (r : CounterRegistry) (key : CounterKey) :
    Result CounterRegistry := do
  rejectIf (malformed key) (failure .invalidArgument)
  rejectIf (key ∈ r.entries.map Prod.fst) (failure conflict)
  rejectIf (r.entries.length ≥ r.capacity) (failure .capacityExhausted)
  return { r with entries := r.entries ++ [(key, 0)] }

def add (r : CounterRegistry) (key : CounterKey) : Result CounterRegistry := do
  rejectIf r.frozen (failure .invalidState)
  insert .invalidArgument r key

/-- `install`: the whole batch or nothing, also after `freeze`. -/
def install (r : CounterRegistry) (batch : List CounterKey) : Result CounterRegistry :=
  batch.foldlM (insert .identityConflict) r

def freeze (r : CounterRegistry) : CounterRegistry := { r with frozen := true }

def next (r : CounterRegistry) (key : CounterKey) : Result UInt8 := do
  rejectIf (¬r.frozen) (failure .invalidState)
  match r.entries.find? (·.1 = key) with
  | some e => return e.2
  | none => throw (failure .invalidArgument)

/-- The loop of `accept`. -/
def acceptIn (key : CounterKey) (encodedCount : UInt8) :
    List (CounterKey × UInt8) → Result (List (CounterKey × UInt8))
  | [] => throw (failure .invalidArgument)
  | (k, count) :: rest =>
    if k = key then
      if count ≠ encodedCount then throw (failure .staleGeneration)
      else return (k, (count + 1) &&& 15) :: rest
    else do
      let rest ← acceptIn key encodedCount rest
      return (k, count) :: rest

def accept (r : CounterRegistry) (key : CounterKey) (encodedCount : UInt8) :
    Result CounterRegistry := do
  rejectIf (¬r.frozen) (failure .invalidState)
  let entries ← acceptIn key encodedCount r.entries
  return { r with entries }

end CounterRegistry

/-! ## Buffer pools -/

/-- A block of a pool; `device` is its memory domain, `address` whether the CPU can reach it. -/
structure Block where
  capacity : ℕ
  alignment : ℕ := 1
  device : Bool := false
  address : Bool := true
  references : ℕ := 0

/-- `ExternalPool`; a pool that was never created has no blocks. -/
structure ExternalPool where
  provider : ℕ
  blocks : List Block := []

structure BufferRequest where
  capacity : ℕ
  alignment : ℕ := 1
  device : Bool := false
  cpuAccess : Bool := true

def Block.fits (b : Block) (request : BufferRequest) : Bool :=
  b.references = 0 ∧ b.capacity ≥ request.capacity ∧ b.alignment ≥ request.alignment ∧
    b.device = request.device ∧ (request.cpuAccess → b.address)

namespace ExternalPool

/-- The loop of `acquire`: the first of the smallest free blocks that fit. -/
def select (request : BufferRequest) (blocks : List Block) : Option (ℕ × Block) :=
  blocks.zipIdx.foldl (fun selected b =>
    if b.1.fits request ∧ ∀ best ∈ selected, b.1.capacity < best.2.capacity then some (b.2, b.1)
    else selected) none

/-- `power_of_two`. -/
def powerOfTwo (v : ℕ) : Bool := v ≠ 0 ∧ v &&& (v - 1) = 0

/-- `acquire`: the index of the block that is leased. -/
def acquire (p : ExternalPool) (request : BufferRequest) : Result (ℕ × ExternalPool) := do
  rejectIf (p.blocks = [] ∨ request.capacity = 0 ∨ ¬powerOfTwo request.alignment)
    (failure .invalidArgument)
  match select request p.blocks with
  | none => throw (failure .capacityExhausted)
  | some (i, b) => return (i, { p with blocks := p.blocks.set i { b with references := 1 } })

/-- The only lease of a block is reset. -/
def release (p : ExternalPool) (i : ℕ) : ExternalPool :=
  { p with blocks := p.blocks.modify i fun b => { b with references := b.references - 1 } }

def sharesProviderWith (p other : ExternalPool) : Bool := p.blocks ≠ [] ∧ p.provider = other.provider

end ExternalPool

/-! ## Tickets -/

/-- The tickets of the arena, with the results published so far. -/
structure Tickets where
  reserved : ℕ → Bool := fun _ => false
  published : List (ℕ × CompletionResult) := []

namespace Tickets

/-- `CompletionPublisher::publish`: only a reserved ticket is claimed. -/
def publish (t : Tickets) (ticket : ℕ) (result : CompletionResult) : Bool × Tickets :=
  if t.reserved ticket then
    (true, { reserved := Function.update t.reserved ticket false
             published := t.published ++ [(ticket, result)] })
  else (false, t)

/-- `reserve` finds a ticket that nobody has had. -/
def reserve (t : Tickets) (ticket : ℕ) : Tickets :=
  if ticket ∈ t.published.map Prod.fst then t
  else { t with reserved := Function.update t.reserved ticket true }

/-- How often a ticket was published. -/
def publications (t : Tickets) (ticket : ℕ) : ℕ := (t.published.map Prod.fst).count ticket

end Tickets

structure CompletionToken where
  ticket : ℕ
  active : Bool := true
deriving DecidableEq

namespace CompletionToken

def isReserved (token : CompletionToken) (tickets : Tickets) : Bool :=
  token.active ∧ tickets.reserved token.ticket

def publish (token : CompletionToken) (result : CompletionResult) (tickets : Tickets) :
    Bool × Tickets :=
  if token.active then tickets.publish token.ticket result else (false, tickets)

end CompletionToken

/-! ## Submissions -/

structure PeerSession where
  peer : UInt64 := 0
  generation : UInt64 := 0
deriving DecidableEq

/-- `transport::Fault`: the faults that a test injects. -/
structure InjectedFault where
  synchronousReject : Bool := false
  lose : Bool := false
  duplicate : Bool := false
  failCompletion : Bool := false
  holdQuiescence : Bool := false
deriving DecidableEq

/-- `TxSubmission`; `creditOwned` says that the completion credit is of the transport's own pool. -/
structure TxSubmission where
  storage : TxStorage
  completion : CompletionToken
  source : PeerSession
  counter : CounterKey
  fault : InjectedFault := {}
  completionCredit : AdmissionBundle := none
  creditOwned : Bool := true

structure TxToken where
  slot : ℕ := 0
  generation : ℕ := 0
deriving DecidableEq

structure Capabilities where
  maxPacketBytes : ℕ := 65535 * 4
  maxTxSegments : ℕ := 3
  maxRxFragments : ℕ := 16
  cpuRequired : Bool := true
  copiesToReceivePool : Bool := true
  completionIsDelivery : Bool := false
  reservedControlSlots : ℕ := 1
  reservedCancellationSlots : ℕ := 1
  perStreamDataLimit : ℕ := 256
deriving DecidableEq

/-- What both transports require of their capabilities with `n` slots. -/
def Capabilities.unusable (c : Capabilities) (n : ℕ) : Bool :=
  c.reservedControlSlots = 0 ∨ c.reservedCancellationSlots = 0 ∨ c.reservedControlSlots ≥ n ∨
    c.reservedCancellationSlots ≥ n - c.reservedControlSlots ∨ c.perStreamDataLimit = 0 ∨
    c.perStreamDataLimit > 256 ∨ c.maxTxSegments = 0 ∨ c.maxTxSegments > 3 ∨ c.maxRxFragments = 0 ∨
    c.maxRxFragments > 16 ∨ ¬c.cpuRequired ∨ ¬c.copiesToReceivePool ∨ c.completionIsDelivery

/-! ## Lanes -/

inductive Lane where
  | data | control | cancellation
deriving DecidableEq, Repr

/-- `Udp::lane`, and the choice that `Loopback` makes. -/
def lane (type : PacketType) (cancel : Bool) : Lane :=
  if isData type then .data else if cancel then .cancellation else .control

def Lane.queue : Lane → Resource
  | .data => .dataQueue
  | .control => .ordinaryQueue
  | .cancellation => .cancellationQueue

/-- The slots of a lane: its first one and the one after its last. -/
def Lane.range (c : Capabilities) (n : ℕ) : Lane → ℕ × ℕ
  | .data => (0, n - c.reservedControlSlots - c.reservedCancellationSlots)
  | .control => (n - c.reservedControlSlots - c.reservedCancellationSlots,
      n - c.reservedCancellationSlots)
  | .cancellation => (n - c.reservedCancellationSlots, n)

/-- The loop over the slots of a lane. -/
def Lane.slots (c : Capabilities) (n : ℕ) (l : Lane) : List (Fin n) :=
  (List.finRange n).filter fun i => (l.range c n).1 ≤ i ∧ i < (l.range c n).2

end Vita.Transport
