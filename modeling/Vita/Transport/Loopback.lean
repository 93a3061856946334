import Vita.Transport.Host
import Vita.Common.Slots

/-!
# The loopback transport (`adapters/loopback/loopback.hpp`)

A submission is copied into a receive buffer when it is accepted and delivered to its route when it is
progressed. Callbacks may submit more work; a call of `progress` from a callback is refused.

`log` records what was accepted, delivered and completed; nothing reads it. The calls that a callback
makes are part of a move.

Main definitions:
- `Loopback.trySend`, `Loopback.progress`, `Loopback.progressNext`, `Loopback.proveQuiescent`;
- `Loopback.step`: the moves.
-/

namespace Vita.Transport

open Words Checked Codec Slots
open Completion (CompletionResult CompletionStatus)
open Transaction (AdmissionPool AdmissionBundle AdmissionRequest Resource)

namespace Loopback

/-- `QuiescenceGuard`, with the storage that is held back. -/
structure QuiescenceGuard where
  storage : Option TxStorage := none
  generation : ℕ := 0

namespace QuiescenceGuard

def arm (g : QuiescenceGuard) (storage : TxStorage) : Result QuiescenceGuard := do
  rejectIf g.storage.isSome (failure .invalidState)
  rejectIf (g.generation = sizeMax) (failure .overflow)
  return { storage := some storage, generation := g.generation + 1 }

end QuiescenceGuard

/-- A receive buffer: a block of a lane's pool and the bytes in it. -/
structure Lease where
  lane : Lane
  block : ℕ
  bytes : Bytes

structure Slot where
  generation : ℕ := 1
  sequence : ℕ := 0
  processing : Bool := false
  quarantined : Bool := false
  retired : Bool := false
  submission : Option TxSubmission := none
  receive : Option Lease := none
  credits : AdmissionBundle := none
  quiescence : QuiescenceGuard := {}

/-- The slot can take a submission. -/
def Slot.available (slot : Slot) : Bool :=
  slot.submission.isNone ∧ ¬slot.quarantined ∧ ¬slot.retired

end Loopback

open Loopback in
structure Loopback (n : ℕ) where
  slots : Fin n → Slot := fun _ => {}
  nextSequence : ℕ := 1
  isOpen : Bool := true
  progressing : Bool := false
  capabilities : Capabilities
  host : HostBindings
  log : List TxEvent := []

namespace Loopback

variable {n : ℕ}

def setSlot (s : Loopback n) (i : Fin n) (slot : Slot) : Loopback n :=
  { s with slots := Function.update s.slots i slot }

def note (s : Loopback n) (e : TxEvent) : Loopback n := { s with log := s.log ++ [e] }

def outstanding (s : Loopback n) (token : TxToken) : Bool :=
  if h : token.slot < n then
    let slot := s.slots ⟨token.slot, h⟩
    slot.generation = token.generation ∧ (slot.submission.isSome ∨ slot.quarantined)
  else false

def close (s : Loopback n) : Loopback n := { s with isOpen := false }

/-- A receive buffer is reset. -/
def dropLease (h : HostBindings) (receive : Option Lease) : HostBindings :=
  receive.elim h fun lease => h.releaseBlock lease.lane lease.block

/-- `release_slot`. -/
def releaseSlot (s : Loopback n) (i : Fin n) : Loopback n :=
  let slot := s.slots i
  let host := dropLease s.host slot.receive
  let host := slot.submission.elim host host.dropSubmission
  let host := host.resetCredits slot.credits
  let slot := { slot with
    receive := none, submission := none, credits := none, processing := false, quarantined := false }
  { s.setSlot i (if slot.generation = sizeMax then { slot with retired := true }
      else { slot with generation := slot.generation + 1 }) with host }

/-! ## Parsing -/

/-- `parse`, without the callback `before_decode`. -/
def parse (routes : RouteRegistry) (source : PeerSession) (bytes : Bytes) : Decoded PacketView := do
  let header ← decodeEnvelope bytes
  let (_, route) ← (routes.lookup source header.envelope).decoded
  rejectIf (header.payload.length < route.minimumPayloadBytes ∨
    header.payload.length > route.maximumPayloadBytes) (Fault.error (failure .unsupportedCapability))
  if isExtension header.envelope.type then (route.validExtension header).decoded
  Route.decodePacket bytes (route.options header.envelope)

/-- `parse` gets to the callback `before_decode`. -/
def callsBeforeDecode (routes : RouteRegistry) (source : PeerSession) (bytes : Bytes) : Bool :=
  match decodeEnvelope bytes with
  | .ok header =>
    match routes.lookup source header.envelope with
    | .ok (_, route) => route.beforeDecode
    | .error _ => false
  | .error _ => false

/-! ## Sending -/

/-- The submission's own credit is one completion of this pool, or nothing. -/
def checkCredit (submission : TxSubmission) : Result Unit :=
  let credit := submission.completionCredit
  if credit.held .completion ≠ 0 then do
    rejectIf (¬submission.creditOwned ∨ credit.held .completion ≠ 1) (failure .invalidArgument)
    rejectIf (∃ r ∈ Resource.all, r ≠ .completion ∧ credit.held r ≠ 0) (failure .invalidArgument)
  else rejectIf (∃ r ∈ Resource.all, credit.held r ≠ 0) (failure .invalidArgument)

/-- The configuration is usable and the lanes' pools are separate. -/
def checkConfiguration (s : Loopback n) : Result Unit :=
  let pools := s.host.pools
  rejectIf (s.capabilities.unusable n ∨ (pools .data).blocks = [] ∨ (pools .control).blocks = [] ∨
    (pools .cancellation).blocks = [] ∨ (pools .data).sharesProviderWith (pools .control) ∨
    (pools .data).sharesProviderWith (pools .cancellation) ∨
    (pools .control).sharesProviderWith (pools .cancellation)) (failure .invalidArgument)

/-- The loop that copies the header. -/
def headerBytes : List TxSegment → Bytes → Result Bytes
  | [], copied => return copied
  | s :: rest, copied => do
    if copied.length < 4 then
      let part ← s.bytes
      headerBytes rest (copied ++ part.take (4 - copied.length))
    else return copied

/-- The first slot of a lane that is available. -/
def findSlot (s : Loopback n) (l : Lane) : Option (Fin n) :=
  (l.slots s.capabilities n).find? fun i => (s.slots i).available

/-- The submissions with a counter key. -/
def pending (s : Loopback n) (key : CounterKey) : ℕ :=
  (List.finRange n).countP fun i => (s.slots i).submission.any (·.counter = key)

/-- The checks of `try_send` before it takes a buffer: the lane and the slot of the submission. -/
def preflight (s : Loopback n) (submission : TxSubmission) : Except Refusal (Lane × Fin n) := do
  rejectIf (¬s.isOpen) { error := failure .invalidState }
  Refusal.of (checkCredit submission)
  Refusal.of s.checkConfiguration
  rejectIf submission.fault.synchronousReject { error := failure .capacityExhausted }
  rejectIf (¬submission.completion.isReserved s.host.tickets ∨ submission.source.generation = 0 ∨
    submission.fault.holdQuiescence ∧ ¬submission.fault.failCompletion)
    { error := failure .invalidArgument }
  let bytes := submission.storage.byteSize
  rejectIf (bytes = 0 ∨ bytes > s.capabilities.maxPacketBytes ∨
    submission.storage.segments.length > s.capabilities.maxTxSegments)
    { error := failure .unsupportedCapability }
  rejectIf (bytes < 4) { error := { code := .shortInput, offset := 0, requiredCapacity := 4 } }
  let header ← Refusal.of (headerBytes submission.storage.segments [])
  let type := submission.counter.type
  let l := lane type (isCommand type && bit ((wordAt header 0).getD 0) 24)
  rejectIf (isData type ∧ s.pending submission.counter ≥ s.capabilities.perStreamDataLimit)
    { error := failure .capacityExhausted }
  match s.findSlot l with
  | none => throw { error := failure .capacityExhausted, noSlot := true }
  | some i =>
    rejectIf (s.nextSequence = sizeMax) { error := failure .overflow }
    return (l, i)

/-- The checks of `try_send` on the copy of the packet: the lane and the slot of the packet itself, and
its count. -/
def checkPacket (s : Loopback n) (submission : TxSubmission) (i : Fin n) :
    Except Refusal (Bytes × Lane × Fin n × UInt8) := do
  let bytes ← Refusal.of (copySegments submission.storage.segments)
  match parse s.host.routes submission.source bytes with
  | .error e => throw { error := faultError e }
  | .ok packet =>
    let e := packet.envelope.envelope
    rejectIf (e.streamId ≠ submission.counter.streamId ∨ e.type ≠ submission.counter.type)
      { error := failure .invalidArgument }
    let expected ← Refusal.of (s.host.counters.next submission.counter)
    rejectIf (expected ≠ e.packetCount) (.uncounted (failure .staleGeneration))
    if isData submission.counter.type then return (bytes, .data, i, e.packetCount)
    else
      let l := if e.cancel then .cancellation else .control
      match s.findSlot l with
      | none => throw { error := failure .capacityExhausted, noSlot := true }
      | some i => return (bytes, l, i, e.packetCount)

/-- A slot takes a submission and the buffer with its packet. -/
def place (s : Loopback n) (i : Fin n) (submission : TxSubmission) (receive : Lease)
    (credits : AdmissionBundle) (packetCount : UInt8) : Loopback n :=
  let slot := s.slots i
  let token : TxToken := { slot := i, generation := slot.generation }
  let s := s.setSlot i { slot with
    receive := some receive, credits, sequence := s.nextSequence, submission := some submission }
  { s.note (.accepted token s.nextSequence submission packetCount) with
    nextSequence := s.nextSequence + 1 }

/-- `try_send`. A rejection hands the submission back; what was taken for it is released. -/
def trySend (s : Loopback n) (submission : TxSubmission) : Except Rejected TxToken × Loopback n :=
  match s.preflight submission with
  | .error refusal => (.error { refusal, submission }, s)
  | .ok (l, i) =>
    match (s.host.pools l).acquire { capacity := submission.storage.byteSize } with
    | .error error => (.error { refusal := { error }, submission }, s)
    | .ok (block, pool) =>
      -- the block has an address and enough bytes, so writing to it and `set_size` succeed
      let s := { s with host := { s.host with pools := Function.update s.host.pools l pool } }
      match s.checkPacket submission i with
      | .error refusal =>
        (.error { refusal, submission }, { s with host := s.host.releaseBlock l block })
      | .ok (bytes, queue, i, packetCount) =>
        match s.host.admission.acquire (creditRequest submission queue) with
        | .error error =>
          (.error { refusal := { error }, submission },
            { s with host := s.host.releaseBlock l block })
        | .ok (credits, admission) =>
          let s := { s with host := { s.host with admission } }
          match s.host.counters.accept submission.counter packetCount with
          | .error error =>
            (.error { refusal := .uncounted error, submission },
              { s with host := (s.host.resetCredits credits).releaseBlock l block })
          | .ok counters =>
            let s := { s with host := { s.host with counters } }
            (.ok { slot := i, generation := (s.slots i).generation },
              s.place i submission { lane := l, block, bytes } credits packetCount)

/-! ## Calls -/

/-- `prove_quiescent`. -/
def proveQuiescent (s : Loopback n) (token : TxToken) : Result Unit × Loopback n :=
  if h : token.slot < n then
    let i : Fin n := ⟨token.slot, h⟩
    let slot := s.slots i
    if slot.generation ≠ token.generation ∨ ¬slot.quarantined then
      (.error (failure .staleGeneration), s)
    else if slot.quiescence.storage.isNone then (.error (failure .invalidState), s)
    else
      let s := s.setSlot i { slot with quiescence := { slot.quiescence with storage := none } }
      (.ok (), s.releaseSlot i)
  else (.error (failure .invalidArgument), s)

/-- A ticket is in a slot. A token is moved, so nobody else has one for it. -/
def holdsTicket (s : Loopback n) (ticket : ℕ) : Bool :=
  ∃ i, ∃ submission ∈ (s.slots i).submission, submission.completion.ticket = ticket

/-- What a callback can do with the transport. -/
inductive Call where
  | send (submission : TxSubmission)
  | close
  | proveQuiescent (token : TxToken)
  /-- A ticket is reserved. -/
  | reserve (ticket : ℕ)
  /-- Another publisher of a ticket publishes. -/
  | publish (ticket : ℕ) (result : CompletionResult)
  | outside (o : Outside)
  | install (batch : List CounterKey)

def call (s : Loopback n) : Call → Loopback n
  | .send submission =>
    if s.holdsTicket submission.completion.ticket then s else (s.trySend submission).2
  | .close => s.close
  | .proveQuiescent token => (s.proveQuiescent token).2
  | .reserve ticket => { s with host := { s.host with tickets := s.host.tickets.reserve ticket } }
  | .publish ticket result =>
    { s with host := { s.host with tickets := (s.host.tickets.publish ticket result).2 } }
  | .outside o => { s with host := s.host.outside o }
  | .install batch => { s with host := s.host.install batch }

def calls (s : Loopback n) (l : List Call) : Loopback n := l.foldl call s

/-! ## Progress -/

/-- The calls that the callbacks of a delivery make. -/
structure Callbacks where
  beforeDecode : List Call := []
  receive : List Call := []
  again : List Call := []

/-- A packet is handed to its route, twice if it is to be duplicated. -/
def handOver (s : Loopback n) (submission : TxSubmission) (sequence route : ℕ) (packet : PacketView)
    (rx : RxEnvelope) (callbacks : Callbacks) : Loopback n :=
  let s := (s.note (.delivered sequence route packet rx)).calls callbacks.receive
  if submission.fault.duplicate then
    (s.note (.delivered sequence route packet rx)).calls callbacks.again
  else s

/-- The delivery in `progress`: the result for the ticket. -/
def deliver (s : Loopback n) (i : Fin n) (submission : TxSubmission) (callbacks : Callbacks) :
    Result CompletionResult × Loopback n :=
  let completion : CompletionResult := { value := UInt64.ofNat submission.storage.byteSize }
  if submission.fault.failCompletion then
    (.ok { completion with status := .failed, error := failure .callbackFailure }, s)
  else if submission.fault.lose then (.ok completion, s)
  else
    match (s.slots i).receive with
    | none => (.error (failure .invalidState), s)
    | some lease =>
      -- the registry keeps its routes, whatever `before_decode` does
      let routes := s.host.routes
      let sequence := (s.slots i).sequence
      let s := if callsBeforeDecode routes submission.source lease.bytes then
        s.calls callbacks.beforeDecode else s
      match parse routes submission.source lease.bytes with
      | .error e => (.ok { completion with status := .failed, error := faultError e }, s)
      | .ok packet =>
        let s := s.setSlot i { s.slots i with receive := none }
        let dropped := fun (s : Loopback n) =>
          { s with host := s.host.releaseBlock lease.lane lease.block }
        match routes.lookup submission.source packet.envelope.envelope,
            RxEnvelope.ofPacket lease.bytes packet.envelope with
        | .error _, _ => (.error (failure .invalidState), dropped s)
        | .ok _, .error e => (.error e, dropped s)
        | .ok (route, _), .ok rx =>
          (.ok completion, dropped (s.handOver submission sequence route packet rx callbacks))

/-- The ticket is published and the slot released, unless its storage is to be held. -/
def finish (s : Loopback n) (i : Fin n) (submission : TxSubmission) (result : CompletionResult) :
    Result Unit × Loopback n :=
  let slot := s.slots i
  let (published, host) := s.host.publish submission result
  let s := { s.note (.completed slot.sequence result) with host }
  let answer := if published then .ok () else .error (failure .invalidState)
  if slot.quarantined then
    let host := (dropLease s.host slot.receive).dropSubmission submission
    (answer, { s.setSlot i { slot with
      receive := none, submission := none, processing := false } with host })
  else (answer, s.releaseSlot i)

/-- `progress` stops with an error; the slot keeps its submission. -/
def stop (s : Loopback n) (i : Fin n) (e : Error) : Result Unit × Loopback n :=
  (.error e, s.setSlot i { s.slots i with processing := false })

/-- The body of `progress`. -/
def process (s : Loopback n) (i : Fin n) (submission : TxSubmission) (callbacks : Callbacks) :
    Result Unit × Loopback n :=
  let s := s.setSlot i { s.slots i with processing := true }
  match s.deliver i submission callbacks with
  | (.error e, s) => s.stop i e
  | (.ok result, s) =>
    if submission.fault.holdQuiescence then
      match (s.slots i).quiescence.arm submission.storage with
      | .error e => s.stop i e
      | .ok quiescence =>
        (s.setSlot i { s.slots i with quiescence, quarantined := true }).finish i submission result
    else s.finish i submission result

def progress (s : Loopback n) (token : TxToken) (callbacks : Callbacks) : Result Unit × Loopback n :=
  if s.progressing then (.error (failure .wouldDeadlock), s)
  else if h : token.slot < n then
    let i : Fin n := ⟨token.slot, h⟩
    let slot := s.slots i
    match slot.submission with
    | none => (.error (failure .staleGeneration), s)
    | some submission =>
      if slot.generation ≠ token.generation ∨ slot.processing ∨ slot.quarantined then
        (.error (failure .staleGeneration), s)
      else
        let r := process { s with progressing := true } i submission callbacks
        (r.1, { r.2 with progressing := false })
  else (.error (failure .invalidArgument), s)

/-- The submission that is next: the oldest that is not being processed. -/
def nextSlot (s : Loopback n) : Option (Fin n) :=
  (oldest (fun i => (s.slots i).submission.isSome ∧ ¬(s.slots i).processing)
    (fun i => (s.slots i).sequence) sizeMax (List.finRange n)).1

def progressNext (s : Loopback n) (callbacks : Callbacks) : Result Bool × Loopback n :=
  if s.progressing then (.error (failure .wouldDeadlock), s)
  else match s.nextSlot with
    | none => (.ok false, s)
    | some i =>
      let r := s.progress { slot := i, generation := (s.slots i).generation } callbacks
      (r.1.map fun _ => true, r.2)

/-! ## Runs -/

inductive Move where
  | call (c : Call)
  | progress (token : TxToken) (callbacks : Callbacks)
  | progressNext (callbacks : Callbacks)

def step (s : Loopback n) : Move → Loopback n
  | .call c => s.call c
  | .progress token callbacks => (s.progress token callbacks).2
  | .progressNext callbacks => (s.progressNext callbacks).2

/-- A transport that was just made; no ticket of its arena has been published. -/
def new (n : ℕ) (capabilities : Capabilities) (host : HostBindings) : Loopback n :=
  { capabilities, host := { host with tickets := {} } }

def run (s : Loopback n) (moves : List Move) : Loopback n := moves.foldl step s

end Loopback

end Vita.Transport
