import Vita.Context.Receiver
import Vita.Memory.Leases

/-!
# Data of a receiver (`context/receiver.hpp`)

A receiver hands Data on with the metadata of their sample time. Data whose metadata are not known yet
are retained and wait in a slot; each call of `progress` looks at all of them again, and gives up those
that have waited for 10 ms.

Every call of `receive_data` brings a packet of its own, with the next number. The log has what the two
callbacks were told, and what became of the packets otherwise; the receiver never reads it.
-/

namespace Vita.Context

open Checked Timing State Codec Transaction Memory

/-- `ReceiverHistory::detach`. -/
def ReceiverHistory.detach (generation : ℕ) (epoch : Tsi) (reference : Option UInt32)
    (h : ReceiverHistory) : Result ReceiverHistory := do
  rejectIf (generation ≤ h.generation) (failure .staleGeneration)
  return { h with entries := [], generation, epoch, reference }

/-- `ContextReceiver::Pending`. -/
structure ContextReceiver.Pending where
  packet : ℕ
  sample : ProtocolTime
  arrival : ℕ
deriving DecidableEq

/-- `ReceiverBinding`: which callbacks there are. -/
structure ReceiverBinding where
  deliver : Bool := true
  drop : Bool := true

/-- What happens to a packet. -/
inductive Happening where
  /-- `receive_data` succeeds. -/
  | accepted (packet : ℕ) (sample : ProtocolTime) (now : ℕ)
  /-- The callback `deliver` is called, with the envelope itself or with what was retained; `history` is
  the history at that time. -/
  | delivered (packet : ℕ) (retained : Bool) (sample : ProtocolTime) (now : ℕ)
    (metadata : MetadataSnapshot) (history : ReceiverHistory)
  /-- The callback `drop` is called. -/
  | dropped (packet : ℕ) (confidence : Confidence)
  /-- A packet has waited for too long. -/
  | expired (packet : ℕ) (arrival now : ℕ)
  /-- A packet was waiting at `detach`. -/
  | discarded (packet : ℕ)

structure ContextReceiver where
  history : ReceiverHistory
  binding : ReceiverBinding
  waiting : List (Option ContextReceiver.Pending)
  waitingCount : ℕ := 0
  localQuota : Quota
  allowUnknown : Bool := false
  fixedFormat : Option UInt64 := none
  nextPacket : ℕ := 0
  log : List Happening := []

namespace ContextReceiver

/-- `deliverable`. -/
def deliverable (metadata : MetadataSnapshot) : Bool :=
  metadata.confidence = .known ∧ metadata.validData

/-- Metadata that are not known, with a payload format that is fixed. -/
def unknownMetadata (metadata : MetadataSnapshot) (format : UInt64) : MetadataSnapshot :=
  let fields := fun i =>
    let f := metadata.state.fields i
    if f.validity = .known then { f with validity := .unknown } else f
  { metadata with
    state := setField { metadata.state with fields } 3
      { id := Field.dataPayloadFormat, value := .payloadFormat format, validity := .known } }

def emit (r : ContextReceiver) (happenings : List Happening) : ContextReceiver :=
  { r with log := r.log ++ happenings }

/-- A unit of the local quota is given back. -/
def releaseLocal (r : ContextReceiver) : ContextReceiver :=
  { r with localQuota := { r.localQuota with active := r.localQuota.active - 1 } }

/-- The envelope is retained with the local and the global quota. Whether the global one, which others
use too, has a unit is an input. -/
def retain (fragments : ℕ) (globalFree : Bool) (r : ContextReceiver) :
    Result Unit × ContextReceiver :=
  if fragments = 0 then (.error (failure .invalidState), r)
  else if ¬(r.localQuota.enabled ∧ r.localQuota.active < r.localQuota.limit) then
    (.error (failure .capacityExhausted), r)
  else
    let taken := { r with localQuota := { r.localQuota with active := r.localQuota.active + 1 } }
    if globalFree then (.ok (), taken) else (.error (failure .capacityExhausted), taken.releaseLocal)

/-- A packet waits in the first free slot; without one it is dropped at once. -/
def wait (p : Pending) (confidence : Confidence) (r : ContextReceiver) :
    Result Unit × ContextReceiver :=
  match r.waiting.findIdx? Option.isNone with
  | some k =>
    (.ok (), { r with waiting := r.waiting.set k (some p), waitingCount := r.waitingCount + 1 })
  | none =>
    (.error (failure .capacityExhausted),
      (r.emit (if r.binding.drop then [.dropped p.packet confidence] else [])).releaseLocal)

/-- `receive_data`, without the log of its success. -/
def handle (packet fragments : ℕ) (globalFree : Bool) (sample : ProtocolTime) (generation now : ℕ)
    (r : ContextReceiver) : Result Unit × ContextReceiver :=
  if generation ≠ r.history.generation then (.error (failure .staleGeneration), r)
  else if ¬r.binding.deliver ∨ ¬sample.valid ∨ r.allowUnknown ∧ r.fixedFormat = none then
    (.error (failure .invalidArgument), r)
  else
    let metadata := r.history.resolve sample now
    if deliverable metadata then
      (.ok (), r.emit [.delivered packet false sample now metadata r.history])
    else if r.allowUnknown ∧ metadata.confidence ≠ .known then
      (.ok (), r.emit [.delivered packet false sample now
        (unknownMetadata metadata (r.fixedFormat.getD 0)) r.history])
    else
      match r.retain fragments globalFree with
      | (.error e, r) => (.error e, r)
      | (.ok _, r) => r.wait { packet, sample, arrival := now } metadata.confidence

/-- `receive_data`. -/
def receiveData (fragments : ℕ) (globalFree : Bool) (sample : ProtocolTime) (generation now : ℕ)
    (r : ContextReceiver) : Result Unit × ContextReceiver :=
  let packet := r.nextPacket
  let r := { r with nextPacket := packet + 1 }
  match r.handle packet fragments globalFree sample generation now with
  | (.ok _, r) => (.ok (), r.emit [.accepted packet sample now])
  | (.error e, r) => (.error e, r)

/-- The slot is free again, and the quotas are given back. -/
def clear (k : ℕ) (r : ContextReceiver) : ContextReceiver :=
  { r with waiting := r.waiting.set k none, waitingCount := r.waitingCount - 1 }.releaseLocal

/-- How long Data wait, in nanoseconds. -/
def longestWait : ℕ := 10000000

/-- One slot in the loop of `progress`. -/
def visit (now : ℕ) (r : ContextReceiver) (k : ℕ) : ContextReceiver :=
  match r.waiting[k]? with
  | some (some p) =>
    let metadata := r.history.resolve p.sample now
    if now ≥ p.arrival ∧ now - p.arrival ≥ longestWait then
      (r.emit ((if r.binding.drop then [.dropped p.packet metadata.confidence] else []) ++
        [.expired p.packet p.arrival now])).clear k
    else if deliverable metadata then
      (r.emit [.delivered p.packet true p.sample now metadata r.history]).clear k
    else r
  | _ => r

def progress (now : ℕ) (r : ContextReceiver) : ContextReceiver :=
  let r := (List.range r.waiting.length).foldl (visit now) r
  { r with history := r.history.expire now }

/-- `receive_context`. -/
def receiveContext (n : ℕ) (packet : PacketView) (generation now : ℕ) (full : Bool)
    (r : ContextReceiver) : Result Unit × ContextReceiver :=
  match r.history.receive n packet generation now full with
  | .error e => (.error e, r)
  | .ok history => (.ok (), { r with history }.progress now)

/-- One slot in the loop of `detach`. -/
def discard (r : ContextReceiver) (k : ℕ) : ContextReceiver :=
  match r.waiting[k]? with
  | some (some p) => ({ r with waiting := r.waiting.set k none }.emit [.discarded p.packet]).releaseLocal
  | _ => r

def detach (generation : ℕ) (epoch : Tsi) (reference : Option UInt32) (r : ContextReceiver) :
    Result Unit × ContextReceiver :=
  match r.history.detach generation epoch reference with
  | .error e => (.error e, r)
  | .ok history =>
    (.ok (), { (List.range r.waiting.length).foldl discard { r with history } with waitingCount := 0 })

/-! ## Runs -/

inductive Input where
  | receiveData (fragments : ℕ) (globalFree : Bool) (sample : ProtocolTime) (generation now : ℕ)
  | receiveContext (packet : PacketView) (generation now : ℕ) (full : Bool)
  | progress (now : ℕ)
  | detach (generation : ℕ) (epoch : Tsi) (reference : Option UInt32)

def step (n : ℕ) (r : ContextReceiver) : Input → ContextReceiver
  | .receiveData fragments globalFree sample generation now =>
    (r.receiveData fragments globalFree sample generation now).2
  | .receiveContext packet generation now full => (r.receiveContext n packet generation now full).2
  | .progress now => r.progress now
  | .detach generation epoch reference => (r.detach generation epoch reference).2

/-- A new receiver, with `m` slots. -/
def initial (m : ℕ) (binding : ReceiverBinding) (generation : ℕ) (epoch : Tsi) (allowUnknown : Bool)
    (reference : Option UInt32) (fixedFormat : Option UInt64) (profile : IqProfile) :
    ContextReceiver :=
  { history := { generation, epoch, reference, profile }, binding, waiting := List.replicate m none
    localQuota := { limit := m }, allowUnknown, fixedFormat }

/-- A receiver in some run. -/
def Reachable (n : ℕ) (r : ContextReceiver) : Prop :=
  ∃ m binding generation epoch allowUnknown reference fixedFormat profile inputs,
    r = List.foldl (step n)
      (initial m binding generation epoch allowUnknown reference fixedFormat profile) inputs

end ContextReceiver

end Vita.Context
