import Vita.Transport.Submission
import Vita.Codec.Packet

/-!
# Routes (`stream/routing.hpp`) and received packets (`memory/envelope.hpp`)

A route is found by the sender's session and the envelope of a packet. The callbacks of a route are
functions of what they are given; what a callback does to its context is not part of a route. The
routes of a registry are never removed, so the array is a list with a capacity, and a pointer to a
route is its position.
-/

namespace Vita.Transport

open Words Checked Codec

/-! ## Keys -/

/-- `same_identifier`: only the words that are on the wire count. -/
def sameIdentifier (a b : Identifier) : Bool := a.kind = b.kind ∧ a.wireWords = b.wireWords

/-- `same_class`: the padding bits do not count. -/
def sameClass : Option ClassId → Option ClassId → Bool
  | none, none => true
  | some a, some b =>
    a.oui = b.oui ∧ a.informationClass = b.informationClass ∧ a.packetClass = b.packetClass
  | _, _ => false

structure RouteKey where
  source : PeerSession
  streamId : Option UInt32 := none
  type : PacketType := .signal
  packetClass : Option ClassId := none
  controllee : Identifier := {}
  controller : Identifier := {}

def sameRoute (a b : RouteKey) : Bool :=
  a.source = b.source ∧ a.streamId = b.streamId ∧ a.type = b.type ∧
    sameClass a.packetClass b.packetClass ∧ sameIdentifier a.controllee b.controllee ∧
    sameIdentifier a.controller b.controller

/-! ## The registry -/

structure Route where
  key : RouteKey
  context : ℕ
  requestContext : Option (Envelope → Option RequestContext) := none
  validateExtension : Option (EnvelopeView → Result Unit) := none
  minimumPayloadBytes : ℕ := 0
  maximumPayloadBytes : ℕ := 65535 * 4
  beforeDecode : Bool := false

structure RouteRegistry where
  capacity : ℕ
  routes : List Route := []
  frozen : Bool := false

namespace RouteRegistry

/-- A UUID that names nothing. -/
def emptyUuid (id : Identifier) : Bool :=
  id.kind = .uuid ∧ id.words 0 ||| id.words 1 ||| id.words 2 ||| id.words 3 = 0

def add (r : RouteRegistry) (route : Route) : Result RouteRegistry := do
  rejectIf r.frozen (failure .invalidState)
  rejectIf (route.key.source.generation = 0 ∨ route.minimumPayloadBytes > route.maximumPayloadBytes)
    (failure .invalidArgument)
  rejectIf (∃ c ∈ route.key.packetClass, c.oui > 0xffffff) (failure .invalidArgument)
  rejectIf (emptyUuid route.key.controllee ∨ emptyUuid route.key.controller) (failure .invalidArgument)
  rejectIf (isExtension route.key.type ∧
    (route.key.packetClass = none ∨ route.validateExtension.isNone)) (failure .unsupportedCapability)
  rejectIf ((¬hasSid route.key.type) = route.key.streamId.isSome) (failure .invalidArgument)
  rejectIf (¬isCommand route.key.type ∧
    (route.key.controllee.kind ≠ .absent ∨ route.key.controller.kind ≠ .absent))
    (failure .invalidArgument)
  rejectIf (∃ existing ∈ r.routes, sameRoute existing.key route.key) (failure .invalidArgument)
  rejectIf (r.routes.length ≥ r.capacity) (failure .capacityExhausted)
  return { r with routes := r.routes ++ [route] }

/-- `install`: the whole batch or nothing, also after `freeze`. -/
def install (r : RouteRegistry) (batch : List Route) : Result RouteRegistry := do
  let candidate ← batch.foldlM add { r with frozen := false }
  return { candidate with frozen := r.frozen }

/-- `detach`: the routes of a context stay, without their callbacks. -/
def detach (r : RouteRegistry) (context : ℕ) : RouteRegistry :=
  { r with routes := r.routes.map fun route =>
      if route.context = context then
        { route with context := 0, requestContext := none, beforeDecode := false }
      else route }

def freeze (r : RouteRegistry) : RouteRegistry := { r with frozen := true }

/-- The key that a packet is looked up by. -/
def wanted (peer : PeerSession) (e : Envelope) : RouteKey :=
  { source := peer, streamId := e.streamId, type := e.type, packetClass := e.classId
    controllee := e.command.elim {} Command.controllee
    controller := e.command.elim {} Command.controller }

/-- `lookup`: the position of the only route of a packet. -/
def lookup (r : RouteRegistry) (peer : PeerSession) (e : Envelope) : Result (ℕ × Route) := do
  rejectIf (¬r.frozen) (failure .invalidState)
  match r.routes.zipIdx.filter fun route => sameRoute route.1.key (wanted peer e) with
  | [] => throw (failure .unsupportedCapability)
  | [(route, i)] => return (i, route)
  | _ => throw (failure .invalidState)

end RouteRegistry

namespace Route

/-- `decode_packet` with its capacities. -/
def decodePacket (wire : Bytes) (options : DecodeOptions) : Decoded PacketView :=
  decodePacketBounded 16 64 wire options

/-- The options that a packet of a route is decoded with. -/
def options (route : Route) (e : Envelope) : DecodeOptions :=
  { request := route.requestContext.elim none (· e) }

/-- The validator of an extension route; `add` lets none in without one. -/
def validExtension (route : Route) (view : EnvelopeView) : Result Unit :=
  route.validateExtension.elim (.error (failure .invalidState)) (· view)

end Route

/-! ## Received packets -/

structure SegmentRef where
  offset : ℕ
  length : ℕ
deriving DecidableEq

/-- `RxEnvelope` with the one buffer that the transports give it. -/
structure RxEnvelope where
  lease : Option Bytes := none
  payload : List SegmentRef := []
  prologue : Option SegmentRef := none
  trailer : Option SegmentRef := none
deriving DecidableEq

namespace RxEnvelope

def valid (rx : RxEnvelope) (s : SegmentRef) : Bool :=
  ∃ b ∈ rx.lease, s.offset ≤ b.length ∧ s.length ≤ b.length - s.offset

def addBuffer (rx : RxEnvelope) (bytes : Bytes) : RxEnvelope := { rx with lease := some bytes }

def setPrologue (rx : RxEnvelope) (s : SegmentRef) : Result RxEnvelope := do
  rejectIf (¬rx.valid s) (failure .invalidArgument)
  return { rx with prologue := some s }

def appendPayload (rx : RxEnvelope) (s : SegmentRef) : Result RxEnvelope := do
  rejectIf (¬rx.valid s ∨ s.length = 0) (failure .invalidArgument)
  rejectIf (rx.payload.length = 16) (failure .capacityExhausted)
  return { rx with payload := rx.payload ++ [s] }

def setTrailer (rx : RxEnvelope) (s : SegmentRef) : Result RxEnvelope := do
  rejectIf (¬rx.valid s) (failure .invalidArgument)
  return { rx with trailer := some s }

/-- The bytes of a segment. -/
def bytes (rx : RxEnvelope) (s : SegmentRef) : Bytes :=
  ((rx.lease.getD []).drop s.offset).take s.length

/-- The prologue, the payload fragments and the trailer, joined. -/
def content (rx : RxEnvelope) : Bytes :=
  rx.prologue.elim [] rx.bytes ++ rx.payload.flatMap rx.bytes ++ rx.trailer.elim [] rx.bytes

/-- The envelope that each of the transports makes of a decoded packet in a buffer. -/
def ofPacket (buffer : Bytes) (view : EnvelopeView) : Result RxEnvelope := do
  let rx := addBuffer {} buffer
  let rx ← rx.setPrologue ⟨0, view.payloadOffset⟩
  let rx ← if view.payload ≠ [] then rx.appendPayload ⟨view.payloadOffset, view.payload.length⟩
    else pure rx
  if view.trailer.isSome then rx.setTrailer ⟨view.payloadOffset + view.payload.length, 4⟩
  else pure rx

end RxEnvelope

end Vita.Transport
