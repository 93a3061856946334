import Vita.Common.Timeline
import Vita.Context.Revisions
import Vita.Transaction.Request

/-!
# Context history of a receiver (`context/receiver.hpp`)

A receiver keeps the Context it has received in the order of the effective times. An entry is full, or
it changes the entries before it. Entries of one effective time that disagree are marked. The metadata
of a sample are those of the last entry at or before its time, with a confidence.

The arrival times are those of the monotonic clock, in nanoseconds.
-/

namespace Vita.Context

open Checked Timing State Codec Transaction

inductive Confidence where
  | known | missing | stale | ambiguous | incompleteDelta
deriving DecidableEq

structure MetadataSnapshot where
  state : StateSnapshot := {}
  effective : ProtocolTime := {}
  confidence : Confidence := .missing
  events : UInt32 := 0
  validData : Bool := false

/-- `same_snapshot`. -/
def sameSnapshot (a b : StateSnapshot) : Bool := sameState a b

def validDataEnable : UInt32 := 0x40000000

def validDataIndicator : UInt32 := 0x40000

def sampleLossEnable : UInt32 := 0x1000000

def sampleLossIndicator : UInt32 := 0x1000

/-- The state with another entry for a field. -/
def setField (s : StateSnapshot) (i : Fin 8) (f : FieldState) : StateSnapshot :=
  { s with fields := Function.update s.fields i f }

/-- `ReceiverHistory::Entry`. -/
structure Entry where
  state : StateSnapshot
  effective : ProtocolTime
  arrival : ℕ
  events : UInt32
  full : Bool
  conflict : Bool := false

/-- The arguments of `insert`. -/
structure Observation where
  state : StateSnapshot
  effective : ProtocolTime
  arrival : ℕ
  full : Bool := true
  events : UInt32 := 0

structure ReceiverHistory where
  entries : List Entry := []
  profile : IqProfile := .generatorV1
  generation : ℕ := 1
  epoch : Tsi := .none
  reference : Option UInt32 := none

namespace ReceiverHistory

/-! ## Insertion -/

/-- A lost sample is an event and not part of the state. -/
def takeLoss (state : StateSnapshot) (events : UInt32) : Result (StateSnapshot × UInt32) :=
  let loss := sampleLossEnable ||| sampleLossIndicator
  if state.knows 2 then
    match asWord (state.fields 2).value with
    | none => .error (failure .invalidArgument)
    | some indicators =>
      .ok (setField state 2 { state.fields 2 with value := .word (indicators &&& ~~~loss) },
        events ||| (indicators &&& loss))
  else .ok (state, events)

/-- The entry of an observation. The checks of each field are those of `validateSnapshot`. -/
def entryOf (profile : IqProfile) (x : Observation) : Result Entry := do
  validateSnapshot x.state
  rejectIf (x.state.profile ≠ profile) (failure .identityConflict)
  rejectIf (¬x.effective.valid) (failure .invalidArgument)
  let (state, events) ← takeLoss x.state x.events
  return { state, effective := x.effective, arrival := x.arrival, events, full := x.full }

/-- The entry differs from one of the same effective time. -/
def disagrees (existing e : Entry) : Bool :=
  existing.full ≠ e.full ∨ ¬sameSnapshot existing.state e.state ∨ existing.events ≠ e.events

def mergeEntry (existing e : Entry) : Entry :=
  { existing with conflict := existing.conflict ∨ disagrees existing e }

/-- `insert`, with room for `n` entries. -/
def insert (n : ℕ) (x : Observation) (h : ReceiverHistory) : Result ReceiverHistory := do
  let e ← entryOf h.profile x
  match Timeline.placeBounded Entry.effective n mergeEntry e h.entries with
  | none => throw (failure .capacityExhausted)
  | some entries => return { h with entries }

/-- `profile_field`. -/
def profileField (profile : IqProfile) (id : FieldId) : Bool :=
  ∃ i ∈ fieldIndex id, i.val < 4 ∨ i.val = 4 ∧ profile ≠ .generatorV1 ∨ profile = .sdrRadio

/-- One field of a Context packet. -/
def addContextField (profile : IqProfile) (snapshot : StateSnapshot) (view : FieldView) :
    Result StateSnapshot :=
  match fieldIndex view.id with
  | none => throw (failure .unsupportedCapability)
  | some i => do
    rejectIf (¬profileField profile view.id ∨ view.kind ≠ .values ∨ view.attr ≠ .current)
      (failure .unsupportedCapability)
    let value ← readResult view.value
    return setField snapshot i { id := view.id, value, validity := .known }

/-- What a radio does not send is fixed by its profile. -/
def completeSdr (profile : IqProfile) (packet : PacketView) (reference : Option UInt32)
    (snapshot : StateSnapshot) : Result StateSnapshot :=
  if profile ≠ .sdrRadio then return snapshot
  else do
    let e := packet.envelope.envelope
    rejectIf (e.classId.isSome ∨ e.timestamp.tsi ≠ .utc ∨ packet.fields.length ≠ 4)
      (failure .invalidArgument)
    rejectIf (¬(snapshot.knows 1 ∧ snapshot.knows 4 ∧ snapshot.knows 5 ∧ snapshot.knows 6))
      (failure .invalidArgument)
    let known (i : Fin 8) (value : SemanticValue) : FieldState :=
      { id := stateField i, value, validity := .known }
    let snapshot := setField snapshot 0 (known 0 (.word (reference.getD (e.streamId.getD 0))))
    let snapshot := setField snapshot 2 (known 2 (.word (validDataEnable ||| validDataIndicator)))
    return setField snapshot 3 (known 3 (.payloadFormat 0x200003cf00000000))

/-- `receive`. -/
def receive (n : ℕ) (packet : PacketView) (generation arrival : ℕ) (full : Bool)
    (h : ReceiverHistory) : Result ReceiverHistory := do
  let e := packet.envelope.envelope
  rejectIf (generation ≠ h.generation) (failure .staleGeneration)
  rejectIf (e.type ≠ .context ∨ packet.isOpaque ∨ e.tsm ∨ e.timestamp.tsi = .none ∨
    e.timestamp.tsf ≠ .picoseconds ∨ h.epoch ≠ .none ∧ e.timestamp.tsi ≠ h.epoch)
    (failure .unsupportedCapability)
  let snapshot ← packet.fields.foldlM (addContextField h.profile) { profile := h.profile }
  let snapshot ← completeSdr h.profile packet h.reference snapshot
  rejectIf (∃ r ∈ h.reference, ¬(snapshot.knows 0 ∧ asWord (snapshot.fields 0).value = some r))
    (failure .identityConflict)
  insert n
    { state := snapshot, arrival, full
      effective := { seconds := e.timestamp.integer.toNat
                     picoseconds := e.timestamp.fractional.toNat } } h

/-! ## Resolution -/

/-- What the loop of `resolve` has found. -/
structure Reading where
  state : StateSnapshot := {}
  anchored : Bool := false
  ambiguous : Bool := false
  delta : Bool := false

def Reading.apply (r : Reading) (e : Entry) : Reading :=
  if e.full then { state := e.state, anchored := true, ambiguous := e.conflict, delta := false }
  else
    { r with
      state := { r.state with fields := fun i =>
        if (e.state.fields i).validity ≠ .absent then e.state.fields i else r.state.fields i }
      ambiguous := r.ambiguous ∨ e.conflict, delta := true }

/-- The age after which Context is not trusted, in nanoseconds. -/
def staleAge : ℕ := 2000000000

/-- The entry is younger than `staleAge`. -/
def Entry.fresh (e : Entry) (now : ℕ) : Bool := e.arrival ≤ now ∧ now - e.arrival < staleAge

/-- The sample is so late after the entry that the entry does not apply any more. -/
def Entry.outlived (e : Entry) (sample : ProtocolTime) : Bool :=
  match add e.effective { seconds := 2 } with
  | .ok last => ¬sample.before last
  | .error _ => false

/-- The entries at or before the time of a sample. -/
def upTo (sample : ProtocolTime) (entries : List Entry) : List Entry :=
  entries.takeWhile fun e => e.effective ≤ sample

/-- The confidence in the last entry. -/
def confidenceOf (r : Reading) (last : Entry) (sample : ProtocolTime) (now : ℕ) : Confidence :=
  if r.ambiguous then .ambiguous
  else if ¬Entry.fresh last now then .stale
  else if Entry.outlived last sample then .stale
  else if ¬r.anchored ∨ ¬requiredKnown r.state then .missing
  else if r.delta then .incompleteDelta
  else .known

/-- The Data are declared valid. -/
def dataValid (state : StateSnapshot) : Bool :=
  state.knows 2 ∧ ∃ v ∈ asWord (state.fields 2).value,
    v &&& validDataEnable ≠ 0 ∧ v &&& validDataIndicator ≠ 0

def resolve (h : ReceiverHistory) (sample : ProtocolTime) (now : ℕ) : MetadataSnapshot :=
  let seen := upTo sample h.entries
  match seen.getLast? with
  | none => {}
  | some last =>
    let r := seen.foldl Reading.apply {}
    let confidence := confidenceOf r last sample now
    { state := r.state, effective := last.effective
      events := if sample = last.effective then last.events else 0
      confidence
      validData := (confidence = .known ∨ confidence = .incompleteDelta) ∧ dataValid r.state }

/-- The entry survives `expire`. -/
def Entry.kept (e : Entry) (now : ℕ) : Bool := now < e.arrival ∨ now - e.arrival < staleAge

def expire (now : ℕ) (h : ReceiverHistory) : ReceiverHistory :=
  { h with entries := h.entries.filter (Entry.kept · now) }

/-! ## Runs -/

inductive Operation where
  | insert (x : Observation)
  | receive (packet : PacketView) (generation arrival : ℕ) (full : Bool)
  | expire (now : ℕ)

/-- An operation; a failed one changes nothing. -/
def step (n : ℕ) (h : ReceiverHistory) : Operation → ReceiverHistory
  | .insert x => (insert n x h).toOption.getD h
  | .receive packet generation arrival full => (receive n packet generation arrival full h).toOption.getD h
  | .expire now => expire now h

/-- A history of some run. -/
def Reachable (n : ℕ) (h : ReceiverHistory) : Prop :=
  ∃ generation epoch reference profile operations,
    h = List.foldl (step n) { generation, epoch, reference, profile } operations

end ReceiverHistory

end Vita.Context
