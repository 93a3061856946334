import Vita.Transport.Host

/-!
# What the runtime hands to its transport (`runtime/public/runtime.hpp`)

The runtime builds a packet with the next count of its counter and submits it. Data is built earlier and
may be held back: its header is written again with the count of the moment when it is handed over.
Where a packet is built, its fields and its payload are given; `encode_packet`, `encode_diagnostic` and
`encode_prologue` all write the envelope that they are given.

Main definitions:
- `Site`, `Bank.build`: the places that build a packet;
- `finalize`: the header of held Data;
- `Bank.submission`: what `send` submits.
-/

namespace Vita.Runtime

open Checked Codec Transport
open Transaction (AdmissionBundle)

/-- The identity of a `Stream`. -/
structure Bank where
  controllerPeer : UInt64
  controlleePeer : UInt64
  sid : UInt32
  generation : UInt64

namespace Bank

def counter (s : Bank) (type : PacketType) (controller : Bool := false) : CounterKey :=
  ⟨if controller then s.controllerPeer else s.controlleePeer, some s.sid, type⟩

/-- The session that a packet is sent from. -/
def source (s : Bank) (controller : Bool) : PeerSession :=
  ⟨if controller then s.controllerPeer else s.controlleePeer, s.generation⟩

end Bank

/-! ## Building -/

/-- The places that build a packet and send it at once. -/
inductive Site where
  /-- `send_context`. -/
  | context
  /-- `command`. -/
  | command
  /-- `cancel`. -/
  | cancel
  /-- The replies of `service`. -/
  | reply
  /-- `reject`. -/
  | rejection
deriving DecidableEq

namespace Site

def type : Site → PacketType
  | .context => .context
  | _ => .command

def controller : Site → Bool
  | .command | .cancel => true
  | _ => false

/-- The count that a packet is built with. `envelope` leaves 0 when there is none. -/
def count (site : Site) (counters : CounterRegistry) (key : CounterKey) : Result UInt8 :=
  match site with
  | .context | .command => .ok ((counters.next key).toOption.getD 0)
  | _ => counters.next key

end Site

/-- `TxStorage::append` to an empty storage. -/
def appendOnly (bytes : Bytes) : Result TxStorage :=
  if h : 0 < bytes.length then
    .ok { segments := [{ lease := { contents := bytes }, offset := 0, length := bytes.length
                         nonempty := h, inside := by simp }]
          count := by simp }
  else .error (failure .invalidArgument)

/-- A packet in a buffer of 2048 bytes. -/
def Bank.build (s : Bank) (site : Site) (counters : CounterRegistry) (e : Envelope) (payload : Bytes) :
    Result TxStorage := do
  let packetCount ← site.count counters (s.counter site.type site.controller)
  let bytes ← encodeEnvelope { e with packetCount } payload none 2048
  appendOnly bytes

/-! ## Held Data -/

/-- Bytes are written to the start of a segment. -/
def overwrite (s : TxSegment) (bytes : Bytes) : TxSegment where
  lease := { s.lease with
    contents := s.lease.contents.take s.offset ++ (bytes.take s.length ++
      s.lease.contents.drop (s.offset + (bytes.take s.length).length)) }
  offset := s.offset
  length := s.length
  nonempty := s.nonempty
  inside := by
    have hinside := s.inside
    simp only [List.length_append, List.length_take, List.length_drop]
    omega

/-- The part of `send_data` before it sends: the header gets the count of its turn. -/
def finalize (counters : CounterRegistry) (key : CounterKey) (storage : TxStorage) :
    Result TxStorage := do
  match storage with
  | ⟨[], _⟩ => throw (failure .invalidArgument)
  | ⟨first :: rest, h⟩ =>
    let header ← first.bytes
    match inspect storage with
    | .error e => throw (faultError e)
    | .ok framing =>
      let packetCount ← counters.next key
      let output ← encodePrologue { framing.envelope with packetCount } framing.payloadBytes header
      return ⟨overwrite first output.bytes :: rest, h⟩

/-! ## Sending -/

/-- A packet of the runtime. -/
inductive Draft where
  | built (site : Site) (e : Envelope) (payload : Bytes)
  | held (storage : TxStorage)

namespace Draft

def type : Draft → PacketType
  | .built site _ _ => site.type
  | .held _ => .signal

def controller : Draft → Bool
  | .built site _ _ => site.controller
  | .held _ => false

end Draft

namespace Bank

/-- The bytes of a packet at its handoff. -/
def storage (s : Bank) (counters : CounterRegistry) : Draft → Result TxStorage
  | .built site e payload => s.build site counters e payload
  | .held storage => finalize counters (s.counter .signal) storage

/-- What `send` submits, with the ticket and the credit that it has got. -/
def submission (s : Bank) (draft : Draft) (storage : TxStorage) (ticket : CompletionToken)
    (fault : InjectedFault) (completionCredit : AdmissionBundle) : TxSubmission where
  storage
  completion := ticket
  source := s.source draft.controller
  counter := s.counter draft.type draft.controller
  fault
  completionCredit

end Bank

end Vita.Runtime
