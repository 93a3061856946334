import Vita.Transport.Host

/-!
# Packets from a byte stream (`transport/stream_framer.hpp`)

`StreamIngress` frames the bytes of one peer and hands every packet to its route. The packet is copied
into a buffer of its lane, which its callback gets; the buffer is free again when the callback returns.

Main definitions:
- `StreamIngress.routePacket`: the sink of the framer;
- `StreamIngress.feed`, `StreamIngress.feeds`: one chunk, and several.
-/

namespace Vita.Transport

open Words Checked Codec

/-- A call of a receive callback. -/
structure Reception where
  route : ℕ
  packet : PacketView
  rx : RxEnvelope

/-- The pools of a `StreamIngress` and the calls of its callbacks; nothing reads the latter. -/
structure Ingress where
  pools : Lane → ExternalPool
  receptions : List Reception := []

structure StreamIngress where
  routes : RouteRegistry
  peer : PeerSession
  link : Link Ingress

namespace StreamIngress

/-- The packet is handed over in a buffer. -/
def handOver (route : Route) (position : ℕ) (header : EnvelopeView) (wire : Bytes) (g : Ingress) :
    Result Unit × Ingress :=
  let l := lane header.envelope.type header.envelope.cancel
  match (g.pools l).acquire { capacity := wire.length } with
  | .error e => (.error e, g)
  | .ok (block, pool) =>
    -- the buffer holds a copy of the packet, which is decoded again
    let released := { g with pools := Function.update g.pools l (pool.release block) }
    match Route.decodePacket wire (route.options header.envelope) with
    | .error e => (.error (faultError e), released)
    | .ok stable =>
      match RxEnvelope.ofPacket wire stable.envelope with
      | .error e => (.error e, released)
      | .ok rx => (.ok (), { released with receptions := g.receptions ++ [⟨position, stable, rx⟩] })

/-- `route_packet`. -/
def routePacket (routes : RouteRegistry) (peer : PeerSession) : Sink Ingress := fun g wire =>
  match decodeEnvelope wire with
  | .error e => (.error (faultError e), g)
  | .ok header =>
    match routes.lookup peer header.envelope with
    | .error e => (.error e, g)
    | .ok (position, route) =>
      if header.payload.length < route.minimumPayloadBytes ∨
          header.payload.length > route.maximumPayloadBytes then
        (.error (failure .unsupportedCapability), g)
      else
        match (if isExtension header.envelope.type then route.validExtension header else .ok ()) with
        | .error e => (.error e, g)
        | .ok _ =>
          match Route.decodePacket wire (route.options header.envelope) with
          | .error e => (.error (faultError e), g)
          | .ok _ => handOver route position header wire g

def feed (s : StreamIngress) (input : Bytes) : Option (Result ℕ × StreamIngress) :=
  if s.peer.generation = 0 then some (.error (failure .invalidState), s)
  else (s.link.feed (routePacket s.routes s.peer) input).map fun r => (r.1, { s with link := r.2 })

/-- Chunks are fed one after the other until one fails. -/
def feeds : List Bytes → StreamIngress → Option (Result ℕ × StreamIngress)
  | [], s => some (.ok 0, s)
  | chunk :: rest, s =>
    match s.feed chunk with
    | none => none
    | some (.error e, s) => some (.error e, s)
    | some (.ok n, s) =>
      match feeds rest s with
      | none => none
      | some (.error e, s) => some (.error e, s)
      | some (.ok m, s) => some (.ok (n + m), s)

def disconnect (s : StreamIngress) : Result Unit × StreamIngress :=
  let r := s.link.framer.disconnect
  (r.1, { s with link := { s.link with framer := r.2 } })

def reconnect (s : StreamIngress) (peer : PeerSession) : Result StreamIngress := do
  rejectIf (peer.generation = 0) (failure .invalidArgument)
  return { s with peer, link := { s.link with framer := s.link.framer.reconnect } }

def shutdown (s : StreamIngress) : StreamIngress := { s with link := s.link.shutdown }

/-- The calls of callbacks so far. -/
def receptions (s : StreamIngress) : List Reception := s.link.context.receptions

end StreamIngress

end Vita.Transport
