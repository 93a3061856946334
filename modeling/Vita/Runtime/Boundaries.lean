import Vita.Runtime.StreamConfig
import Vita.Timing.CatchUp
import Vita.Transaction.Engine

/-!
# Candidate boundaries (`operation_context` of `public/runtime.hpp`)

A stream tells its engine the packet boundaries at which a command may take effect. There are too many to
list all: only the next one to be sent, those around the present time and those around the time of each
timed command are listed.

Main definitions:
- `candidateIntervals`: the boundaries that are listed, as numbers of packets;
- `operationContext`.
-/

namespace Vita.Runtime

open Checked Timing
open Transaction (Config Engine OperationContext)

/-! ## The list of boundaries -/

/-- `TimingCapabilities::deterministic`. -/
def deterministicTiming : TimingCapabilities where
  deviceEarlyPs := 1000000
  deviceLatePs := 1000000
  applicationEarlyPs := 1000000000
  applicationLatePs := 1000000000
  preparationLeadNs := 1000000
  horizonNs := 10000000000
  injected := true

/-- A command that waits, with its requested time and its timing mode. -/
structure PendingTime where
  requested : ProtocolTime
  mode : ℕ

/-- `Engine::pending_times`. -/
def pendingTimes {σ : Type} (c : Config σ) (w : Engine σ) : List PendingTime :=
  (List.range c.transactions).filterMap fun i =>
    let slot := w.slots i
    if slot.live ∧ slot.action = 2 then some ⟨slot.requestedTime, slot.request.cam.timing⟩ else none

/-- The time of a timestamp. -/
def timeOf (stamp : Codec.Timestamp) : ProtocolTime :=
  { seconds := stamp.integer.toNat, picoseconds := stamp.fractional.toNat }

def makeBoundary (t : SampleTimeline) (mappingGeneration : ℕ) (backendReady : Bool := true) : Boundary :=
  { time := t.time, sampleOrdinal := t.ordinal, mappingGeneration, backendReady
    quantizationUncertaintyPs := if t.current.numerator ≠ 0 then 1 else 0 }

/-- The boundary after a number of packets, if the timeline comes to it. -/
def packetBoundary (t : SampleTimeline) (mappingGeneration pairs intervals : ℕ) : Option Boundary :=
  match t.advance (intervals * pairs) with
  | .ok copy => some (makeBoundary copy mappingGeneration)
  | .error _ => none

/-- `append_boundary`, on an array with room for a number of boundaries. -/
def appendBoundary (t : SampleTimeline) (mappingGeneration pairs capacity : ℕ)
    (boundaries : List Boundary) (intervals : ℕ) : List Boundary :=
  if boundaries.length = capacity ∨ intervals > uint64Max / pairs then boundaries
  else match packetBoundary t mappingGeneration pairs intervals with
    | none => boundaries
    | some b =>
      if boundaries.any fun other => other.sampleOrdinal = b.sampleOrdinal then boundaries
      else boundaries ++ [b]

/-- The last boundary up to a time, and the next. -/
def intervalsAround (t : SampleTimeline) (pairs : ℕ) (target : ProtocolTime) : List ℕ :=
  match t.intervalsOn target pairs with
  | some at' => [at', (at' + 1) % (uint64Max + 1)]
  | none => []

/-- The times of the commands that have one. -/
def requestedTimes (pending : List PendingTime) (extra : Option Codec.Timestamp) : List ProtocolTime :=
  (pending.filter (·.mode ≠ 0)).map (·.requested) ++
    (extra.toList.filter (·.tsi ≠ .none)).map timeOf

/-- The boundaries that `operation_context` appends, as numbers of packets. -/
def candidateIntervals (t : SampleTimeline) (now : ProtocolTime) (pairs : ℕ)
    (requested : List ProtocolTime) : List ℕ :=
  0 :: intervalsAround t pairs now ++ requested.flatMap (intervalsAround t pairs)

def candidateBoundaries (transactions : ℕ) (t : SampleTimeline) (clock : ClockSnapshot) (pairs : ℕ)
    (requested : List ProtocolTime) : List Boundary :=
  (candidateIntervals t clock.time pairs requested).foldl
    (appendBoundary t clock.mappingGeneration pairs (transactions * 2 + 3)) []

/-- What `operation_context` reads of a stream and of its runtime. -/
structure StreamView where
  config : StreamConfig
  timeline : SampleTimeline
  generation : ℕ
  running : Bool
  operation : ℕ
  timing : TimingCapabilities
  clockSnapshot : Option ClockSnapshot

def operationContext {σ : Type} (c : Config σ) (engine : Engine σ) (s : StreamView)
    (extra : Option Codec.Timestamp) : OperationContext :=
  let clock := s.clockSnapshot.getD {}
  { operation := s.operation
    associationGeneration := s.generation
    clock
    boundaries := match packetSamples s.config with
      | .ok pairs => candidateBoundaries c.transactions s.timeline clock pairs
          (requestedTimes (pendingTimes c engine) extra)
      | .error _ => []
    timing := s.timing
    dataRunning := s.running }

end Vita.Runtime
