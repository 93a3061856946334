import Vita.Transport.Host
import Vita.Common.Slots

/-!
# The UDP transport (`adapters/posix_udp/udp.hpp`)

Data, control and cancellation packets have slots, sockets and buffers of their own. A call of
`progress_next` serves the three lanes in turn, sending and receiving alternately, until one of them
has done something.

A socket is the queue of the datagrams that have arrived: a peek returns the head and a receive removes
it. What the system calls return besides is part of a move, as are the calls that a callback makes.
`log` records what was accepted, sent, received and completed; nothing reads it.

Main definitions:
- `Udp.trySend`, `Udp.transmit`, `Udp.receive`, `Udp.progressNext`, `Udp.detach`;
- `Udp.step`: the moves.
-/

namespace Vita.Transport

open Words Checked Codec Slots
open Completion (CompletionResult CompletionStatus)
open Transaction (AdmissionPool AdmissionBundle AdmissionRequest Resource)

/-! ## Sockets -/

inductive Family where
  | ipv4 | ipv6
deriving DecidableEq

structure Address where
  family : Family := .ipv4
  bytes : Fin 16 → UInt8 := fun _ => 0
  port : UInt16 := 0
  scope : UInt32 := 0
deriving DecidableEq

def Address.canonical (a : Address) : Bool :=
  a.family = .ipv4 → a.scope = 0 ∧ ∀ i : Fin 16, 4 ≤ i.val → a.bytes i = 0

/-- The part of `SocketConfig` that the transport reads. -/
structure SocketConfig where
  family : Family := .ipv4
  ipMtu : ℕ := 1500

structure Datagram where
  source : Address
  bytes : Bytes

/-- An error of a system call. -/
structure IoError where
  error : Error := { code := .callbackFailure }
  retryable : Bool := false

structure Received where
  source : Address
  bytes : Bytes
  truncated : Bool

/-- What a receive into a buffer of a size returns of the head of a queue. -/
def Datagram.into (d : Datagram) (size : ℕ) : Received :=
  { source := d.source, bytes := d.bytes.take size, truncated := size < d.bytes.length }

/-- The results of the system calls during one `progress_next`; a receive without an error returns the
head of the queue. -/
structure Io where
  send : Lane → Except IoError ℕ
  peek : Lane → Option IoError := fun _ => none
  receive : Lane → Option IoError := fun _ => none

/-! ## The transport -/

structure PeerBinding where
  localSource : PeerSession
  remoteSource : PeerSession
  remote : Lane → Address

/-- `transport::Association`. -/
structure Association where
  localSession : PeerSession
  remoteSession : PeerSession
  sid : UInt32

namespace Udp

structure Config where
  sockets : Lane → SocketConfig := fun _ => {}
  capabilities : Capabilities := { maxPacketBytes := 65507, maxRxFragments := 1 }
  peers : ℕ := 64

structure Slot where
  submission : Option TxSubmission := none
  credits : AdmissionBundle := none
  destination : Address := {}
  generation : ℕ := 1
  sequence : ℕ := 0
  retired : Bool := false

end Udp

open Udp in
structure Udp (n : ℕ) where
  slots : Fin n → Slot := fun _ => {}
  sockets : Lane → List Datagram := fun _ => []
  config : Config
  peers : List PeerBinding := []
  nextSequence : ℕ := 1
  cursor : ℕ := 0
  dataAttempts : ℕ := 0
  controlAttempts : ℕ := 0
  isOpen : Bool := true
  progressing : Bool := false
  aborting : Bool := false
  detached : Bool := false
  host : HostBindings
  log : List TxEvent := []

namespace Udp

variable {n : ℕ}

def setSlot (s : Udp n) (i : Fin n) (slot : Slot) : Udp n :=
  { s with slots := Function.update s.slots i slot }

def note (s : Udp n) (e : TxEvent) : Udp n := { s with log := s.log ++ [e] }

/-- The largest packet of a lane. -/
def maximum (s : Udp n) (l : Lane) : ℕ :=
  let socket := s.config.sockets l
  min s.config.capabilities.maxPacketBytes
    (socket.ipMtu - (if socket.family = .ipv4 then 28 else 48))

def laneSlots (s : Udp n) (l : Lane) : List (Fin n) := l.slots s.config.capabilities n

def outstanding (s : Udp n) (token : TxToken) : Bool :=
  if h : token.slot < n then
    let slot := s.slots ⟨token.slot, h⟩
    slot.generation = token.generation ∧ slot.submission.isSome
  else false

/-- `release`. -/
def release (s : Udp n) (i : Fin n) : Udp n :=
  let slot := s.slots i
  let host := slot.submission.elim s.host s.host.dropSubmission
  let host := host.resetCredits slot.credits
  let slot := { slot with submission := none, credits := none }
  { s.setSlot i (if slot.generation = sizeMax then { slot with retired := true }
      else { slot with generation := slot.generation + 1 }) with host }

/-- The ticket of a slot's submission is published and the slot released. -/
def complete (s : Udp n) (i : Fin n) (submission : TxSubmission) (result : CompletionResult) :
    Bool × Udp n :=
  let (published, host) := s.host.publish submission result
  (published, Udp.release { s.note (.completed (s.slots i).sequence result) with host } i)

/-! ## Transmission -/

/-- The oldest submission of a lane. -/
def nextSlot (s : Udp n) (l : Lane) : Option (Fin n) :=
  (oldest (fun i => (s.slots i).submission.isSome) (fun i => (s.slots i).sequence) sizeMax
    (s.laneSlots l)).1

/-- The attempts of a lane in this cycle are used up. -/
def exhausted (s : Udp n) (l : Lane) : Bool :=
  if l = .data then s.dataAttempts = 64 else s.controlAttempts = 32

def countAttempt (s : Udp n) (l : Lane) : Udp n :=
  if l = .data then { s with dataAttempts := s.dataAttempts + 1 }
  else { s with controlAttempts := s.controlAttempts + 1 }

/-- The result of a transmission. -/
def transmitted : Except IoError ℕ → CompletionResult
  | .ok sent => { value := UInt64.ofNat sent }
  | .error e => { status := .failed, error := e.error }

def transmit (s : Udp n) (l : Lane) (io : Io) : Result Bool × Udp n :=
  match s.nextSlot l with
  | none => (.ok false, s)
  | some i =>
    match (s.slots i).submission with
    | none => (.ok false, s)
    | some submission =>
      if s.exhausted l then (.ok false, s)
      else
        let s := s.countAttempt l
        match copySegments submission.storage.segments with
        | .error e => (.error e, s)
        | .ok _ =>
          let sent := if s.aborting then .error { error := failure .invalidState } else io.send l
          let s := if s.aborting then s else s.note (.sent (s.slots i).sequence)
          match sent with
          | .error { error := e, retryable := retry } =>
            if retry then (.ok false, s)
            else
              let (published, s) := s.complete i submission (transmitted (.error { error := e }))
              (if published then .ok true else .error (failure .invalidState), s)
          | .ok count =>
            let (published, s) := s.complete i submission (transmitted (.ok count))
            (if published then .ok true else .error (failure .invalidState), s)

/-! ## Sending -/

/-- The submission's own credit is one completion of this pool, or nothing. -/
def checkCredit (submission : TxSubmission) : Result Unit := do
  let credit := submission.completionCredit
  rejectIf (credit.held .completion ≠ 0 ∧
    (¬submission.creditOwned ∨ credit.held .completion ≠ 1)) (failure .invalidArgument)
  rejectIf (∃ r ∈ Resource.all, r ≠ .completion ∧ credit.held r ≠ 0) (failure .invalidArgument)

/-- The submissions of a lane with a counter key. -/
def pending (s : Udp n) (l : Lane) (key : CounterKey) : ℕ :=
  (s.laneSlots l).countP fun i => (s.slots i).submission.any (·.counter = key)

def findSlot (s : Udp n) (l : Lane) : Option (Fin n) :=
  (s.laneSlots l).find? fun i => (s.slots i).submission.isNone ∧ ¬(s.slots i).retired

/-- The peer of a local session: the last binding counts. -/
def findPeer (s : Udp n) (source : PeerSession) : Option PeerBinding :=
  (s.peers.filter (·.localSource = source)).getLast?

/-- The checks of `try_send`: the peer, the lane, the slot and the count of the packet. -/
def preflight (s : Udp n) (submission : TxSubmission) :
    Except Refusal (PeerBinding × Lane × Fin n × UInt8) := do
  rejectIf (¬s.isOpen) { error := failure .invalidState }
  rejectIf (submission.fault ≠ {}) { error := failure .unsupportedCapability }
  rejectIf (¬submission.completion.isReserved s.host.tickets ∨
    submission.storage.segments.length > s.config.capabilities.maxTxSegments)
    { error := failure .invalidArgument }
  match s.findPeer submission.source with
  | none => throw { error := failure .identityConflict }
  | some peer =>
    match inspect submission.storage with
    | .error e => throw { error := faultError e }
    | .ok frame =>
      let l := lane frame.envelope.type frame.envelope.cancel
      rejectIf (frame.packetBytes > s.maximum l)
        { error := { code := .shortOutput, offset := 0, requiredCapacity := s.maximum l } }
      rejectIf (submission.counter.sender ≠ submission.source.peer ∨
        submission.counter.streamId ≠ frame.envelope.streamId ∨
        submission.counter.type ≠ frame.envelope.type) { error := failure .identityConflict }
      Refusal.of (checkCredit submission)
      match s.findSlot l with
      | none => throw { error := failure .capacityExhausted, noSlot := true }
      | some i =>
        rejectIf (l = .data ∧
          s.pending l submission.counter ≥ s.config.capabilities.perStreamDataLimit)
          { error := failure .capacityExhausted }
        rejectIf (s.nextSequence = sizeMax) { error := failure .overflow }
        return (peer, l, i, frame.envelope.packetCount)

/-- A slot takes a submission. -/
def place (s : Udp n) (i : Fin n) (submission : TxSubmission) (destination : Address)
    (credits : AdmissionBundle) (packetCount : UInt8) : Udp n :=
  let slot := s.slots i
  let token : TxToken := { slot := i, generation := slot.generation }
  let s := s.setSlot i
    { slot with destination, credits, sequence := s.nextSequence, submission := some submission }
  { s.note (.accepted token s.nextSequence submission packetCount) with
    nextSequence := s.nextSequence + 1 }

/-- `try_send`. A rejection hands the submission back; what was taken for it is released. -/
def trySend (s : Udp n) (submission : TxSubmission) : Except Rejected TxToken × Udp n :=
  match s.preflight submission with
  | .error refusal => (.error { refusal, submission }, s)
  | .ok (peer, l, i, packetCount) =>
    match s.host.admission.acquire (creditRequest submission l) with
    | .error error => (.error { refusal := { error }, submission }, s)
    | .ok (credits, admission) =>
      let s := { s with host := { s.host with admission } }
      match s.host.counters.accept submission.counter packetCount with
      | .error error =>
        (.error { refusal := .uncounted error, submission },
          { s with host := s.host.resetCredits credits })
      | .ok counters =>
        let s := { s with host := { s.host with counters } }
        (.ok { slot := i, generation := (s.slots i).generation },
          s.place i submission (peer.remote l) credits packetCount)

/-! ## Setting up and tearing down -/

def beginCycle (s : Udp n) : Udp n :=
  if ¬s.progressing ∧ ¬s.detached then { s with dataAttempts := 0, controlAttempts := 0 } else s

def close (s : Udp n) : Udp n := { s with isOpen := false }

def abort (s : Udp n) : Udp n := { s with isOpen := false, aborting := true }

/-- What `detach` does with a slot. -/
def failSlot (s : Udp n) (i : Fin n) : Udp n :=
  match (s.slots i).submission with
  | none => s
  | some submission =>
    (s.complete i submission { status := .failed, error := failure .invalidState }).2

/-- `detach`, and the destructor. -/
def detach (s : Udp n) : Udp n :=
  if s.detached then s
  else
    let s := { s with isOpen := false, aborting := true, detached := true }
    { (List.finRange n).foldl failSlot s with sockets := fun _ => [] }

def Lane.all : List Lane := [.data, .control, .cancellation]

def addPeer (s : Udp n) (peer : PeerBinding) : Result (Udp n) := do
  rejectIf (¬s.isOpen ∨ peer.localSource.generation = 0 ∨ peer.remoteSource.generation = 0)
    (failure .invalidArgument)
  rejectIf (∃ l ∈ Lane.all, ¬(peer.remote l).canonical ∨ (peer.remote l).port = 0 ∨
    (peer.remote l).family ≠ (s.config.sockets l).family) (failure .invalidArgument)
  rejectIf (∃ existing ∈ s.peers, existing.localSource = peer.localSource) (failure .identityConflict)
  rejectIf (s.peers.length ≥ s.config.peers) (failure .capacityExhausted)
  return { s with peers := s.peers ++ [peer] }

/-- One association of a batch. -/
def associateOne (capacity : ℕ) (peers : List PeerBinding) (a : Association) :
    Result (List PeerBinding) := do
  rejectIf (a.sid = 0 ∨ a.localSession.generation = 0 ∨ a.remoteSession.generation = 0)
    (failure .invalidArgument)
  let alike := peers.filter fun p =>
    p.localSource.peer = a.localSession.peer ∧ p.remoteSource.peer = a.remoteSession.peer
  if ∃ p ∈ alike, p.localSource = a.localSession ∧ p.remoteSource = a.remoteSession then return peers
  else
    match alike.getLast? with
    | none => throw (failure .identityConflict)
    | some prototype =>
      rejectIf (peers.length ≥ capacity) (failure .capacityExhausted)
      return peers ++ [{ prototype with localSource := a.localSession, remoteSource := a.remoteSession }]

def associate (s : Udp n) (batch : List Association) (commit : Bool) : Result (Udp n) := do
  rejectIf (¬s.isOpen) (failure .invalidState)
  let candidate ← batch.foldlM (associateOne s.config.peers) s.peers
  return if commit then { s with peers := candidate } else s

/-! ## Calls -/

/-- A ticket is in a slot. A token is moved, so nobody else has one for it. -/
def holdsTicket (s : Udp n) (ticket : ℕ) : Bool :=
  ∃ i, ∃ submission ∈ (s.slots i).submission, submission.completion.ticket = ticket

/-- What a callback can do with the transport. -/
inductive Call where
  | send (submission : TxSubmission)
  | beginCycle
  | close
  | abort
  | detach
  | addPeer (peer : PeerBinding)
  | associate (batch : List Association) (commit : Bool)
  /-- A ticket is reserved. -/
  | reserve (ticket : ℕ)
  /-- Another publisher of a ticket publishes. -/
  | publish (ticket : ℕ) (result : CompletionResult)
  | outside (o : Outside)
  | install (batch : List CounterKey)
  /-- A datagram reaches a socket. -/
  | arrive (l : Lane) (d : Datagram)

/-- A failed call changes nothing. -/
def ok (s : Udp n) : Result (Udp n) → Udp n
  | .ok s => s
  | .error _ => s

def call (s : Udp n) : Call → Udp n
  | .send submission =>
    if s.holdsTicket submission.completion.ticket then s else (s.trySend submission).2
  | .beginCycle => s.beginCycle
  | .close => s.close
  | .abort => s.abort
  | .detach => s.detach
  | .addPeer peer => s.ok (s.addPeer peer)
  | .associate batch commit => s.ok (s.associate batch commit)
  | .reserve ticket => { s with host := { s.host with tickets := s.host.tickets.reserve ticket } }
  | .publish ticket result =>
    { s with host := { s.host with tickets := (s.host.tickets.publish ticket result).2 } }
  | .outside o => { s with host := s.host.outside o }
  | .install batch => { s with host := s.host.install batch }
  | .arrive l d => { s with sockets := Function.update s.sockets l (s.sockets l ++ [d]) }

def calls (s : Udp n) (l : List Call) : Udp n := l.foldl call s

/-! ## Reception -/

/-- The calls that the callbacks of a packet make. -/
structure Callbacks where
  beforeDecode : List Call := []
  receive : List Call := []

/-- The head of a queue is removed. -/
def removeHead (s : Udp n) (l : Lane) : Udp n :=
  { s with sockets := Function.update s.sockets l (s.sockets l).tail }

/-- `discard`: a receive whose result does not matter. -/
def discard (s : Udp n) (l : Lane) (io : Io) : Udp n :=
  if (io.receive l).isSome then s else s.removeHead l

/-- The route of a packet: all bindings of its sender's address have to agree on it. -/
def findRoute (s : Udp n) (l : Lane) (source : Address) (e : Envelope) : Option (ℕ × Route) :=
  let candidates := s.peers.filterMap fun peer =>
    if peer.remote l = source then
      match s.host.routes.lookup peer.remoteSource e with
      | .ok found => some found
      | .error _ => none
    else none
  match candidates with
  | [] => none
  | first :: rest => if ∀ c ∈ rest, c.1 = first.1 then some first else none

/-- The packet in a receive buffer is decoded and handed to its route. -/
def dispatch (s : Udp n) (l : Lane) (source : Address) (wire : Bytes) (callbacks : Callbacks) :
    Result Bool × Udp n :=
  match decodeEnvelope wire with
  | .error _ => (.ok true, s)
  | .ok view =>
    match s.findRoute l source view.envelope with
    | none => (.ok true, s)
    | some (position, route) =>
      let s := if route.beforeDecode then s.calls callbacks.beforeDecode else s
      if view.payload.length < route.minimumPayloadBytes ∨
          view.payload.length > route.maximumPayloadBytes then (.ok true, s)
      else if isExtension view.envelope.type ∧ (route.validExtension view).isOk = false then
        (.ok true, s)
      else
        match Route.decodePacket wire (route.options view.envelope) with
        | .error _ => (.ok true, s)
        | .ok packet =>
          match RxEnvelope.ofPacket wire packet.envelope with
          | .error e => (.error e, s)
          | .ok rx => (.ok true, (s.note (.received position packet rx)).calls callbacks.receive)

/-- A datagram is received into a buffer and dispatched. -/
def accept (s : Udp n) (l : Lane) (peeked : Address) (declared : ℕ) (io : Io)
    (callbacks : Callbacks) : Result Bool × Udp n :=
  match io.receive l, s.sockets l with
  | some e, _ => if e.retryable then (.ok false, s) else (.error e.error, s)
  | none, [] => (.ok false, s)
  | none, d :: _ =>
    let s := s.removeHead l
    let received := d.into declared
    if received.source ≠ peeked then (.ok true, s)
    else if received.truncated then (.ok true, s)
    else if received.bytes.length ≠ declared then (.ok true, s)
    else s.dispatch l received.source received.bytes callbacks

/-- A buffer is taken for a datagram; it is released with its envelope in the end. -/
def fill (s : Udp n) (l : Lane) (peeked : Address) (declared block : ℕ) (pool : ExternalPool)
    (io : Io) (callbacks : Callbacks) : Result Bool × Udp n :=
  let s := { s with host := { s.host with pools := Function.update s.host.pools l pool } }
  let r := s.accept l peeked declared io callbacks
  (r.1, { r.2 with host := r.2.host.releaseBlock l block })

def receive (s : Udp n) (l : Lane) (io : Io) (callbacks : Callbacks) : Result Bool × Udp n :=
  if ¬s.isOpen then (.ok false, s)
  else match io.peek l, s.sockets l with
    | some e, _ => if e.retryable then (.ok false, s) else (.error e.error, s)
    -- nothing has arrived: the call would block
    | none, [] => (.ok false, s)
    | none, d :: _ =>
      let peek := d.into 4
      if ¬∃ peer ∈ s.peers, peer.remote l = peek.source then (.ok true, s.discard l io)
      else if peek.bytes.length ≠ 4 then (.ok true, s.discard l io)
      else
        let word := (wordAt peek.bytes 0).getD 0
        -- the nibble is cast without a check; types above 7 count as commands
        let code := bits word 28 4
        let type := PacketType.ofCode code
        let cancel := code ≥ 6 ∧ bit word 24
        if lane type cancel ≠ l then (.ok true, s.discard l io)
        else
          let declared := bits word 0 16 * 4
          if declared < 4 then (.ok true, s.discard l io)
          else if declared > s.maximum l then (.ok true, s.discard l io)
          else
            match (s.host.pools l).acquire { capacity := declared } with
            | .error _ => (.ok true, s.discard l io)
            | .ok (block, pool) => s.fill l peek.source declared block pool io callbacks

/-! ## Progress -/

/-- The lane of a position of the cursor. -/
def cursorLane (position : ℕ) : Lane :=
  match position / 2 with
  | 0 => .data
  | 1 => .control
  | _ => .cancellation

/-- One turn of `progress_next`. -/
def turn (s : Udp n) (io : Io) (callbacks : Callbacks) : Result Bool × Udp n :=
  let current := s.cursor
  let s := { s with cursor := (s.cursor + 1) % 6 }
  if current % 2 ≠ 0 then s.receive (cursorLane current) io callbacks
  else s.transmit (cursorLane current) io

/-- The loop of `progress_next`. -/
def turns (io : Io) (callbacks : Callbacks) : ℕ → Udp n → Result Bool × Udp n
  | 0, s => (.ok false, s)
  | attempts + 1, s =>
    match s.turn io callbacks with
    | (.error e, s) => (.error e, s)
    | (.ok true, s) => (.ok true, s)
    | (.ok false, s) => turns io callbacks attempts s

def progressNext (s : Udp n) (io : Io) (callbacks : Callbacks) : Result Bool × Udp n :=
  if s.detached then (.ok false, s)
  else if s.progressing then (.error (failure .wouldDeadlock), s)
  else
    let r := turns io callbacks 6 { s with progressing := true }
    (r.1, { r.2 with progressing := false })

/-! ## Runs -/

inductive Move where
  | call (c : Call)
  | progressNext (io : Io) (callbacks : Callbacks)

def step (s : Udp n) : Move → Udp n
  | .call c => s.call c
  | .progressNext io callbacks => (s.progressNext io callbacks).2

/-- What `create` requires of a configuration. -/
def Config.usable (config : Config) (n : ℕ) : Bool :=
  ¬config.capabilities.unusable n ∧ 4 ≤ config.capabilities.maxPacketBytes ∧
    config.capabilities.maxPacketBytes ≤ 65507

/-- A transport that was just made; no ticket of its arena has been published. -/
def new (n : ℕ) (config : Config) (host : HostBindings) : Udp n :=
  { config, host := { host with tickets := {} } }

def run (s : Udp n) (moves : List Move) : Udp n := moves.foldl step s

end Udp

end Vita.Transport
