import Vita.Transaction.Observer
import Vita.Transaction.Retention

/-!
# The controller's registry (`transaction/controller.hpp`)

A relationship is a wire identity under which commands are sent, with the message number of the next
one. A record is a command that was sent: its deadline, its cancellation, its observer and what its
answers said of the state. A record is freed some time after its phases have ended.

Times are in nanoseconds of the monotonic clock. The registry also lists the message numbers it issued,
and a record when its phases ended; nothing reads these.

Main definitions:
- `Registry.track`, `Registry.registerCancel`, `Registry.receive`, `Registry.advance`,
  `Registry.expire`;
- `Registry.call`: one call of the registry.
-/

namespace Vita.Transaction.Controller

open Checked Timing State Codec

/-! ## Observations of the state -/

structure StateObservation where
  state : StateSnapshot := {}
  selectedMask : Fin 8 → Bool := fun _ => false
  timestamp : Timestamp := {}
  hypothetical : Bool := false
  late : Bool := false

structure CapabilityRange (α : Type) where
  minimum : α
  maximum : α
deriving DecidableEq

/-- The bound of a range that an attribute names. -/
def CapabilityRange.set {α : Type} (r : CapabilityRange α) (isMinimum : Bool) (v : α) :
    CapabilityRange α :=
  if isMinimum then { r with minimum := v } else { r with maximum := v }

structure CapabilityObservation where
  centerFrequency : CapabilityRange Int64 := ⟨0, 0⟩
  sampleRate : CapabilityRange Int64 := ⟨0, 0⟩
  bandwidth : CapabilityRange Int64 := ⟨0, 0⟩
  gain : CapabilityRange GainStages := ⟨⟨0, 0⟩, ⟨0, 0⟩⟩
  selectedMask : Fin 8 → Bool := fun _ => false
  timestamp : Timestamp := {}
  late : Bool := false

/-! ## The registry -/

structure Relationship where
  used : Bool := false
  sdrProfile : Bool := false
  identity : TransactionKey := {}
  nextMid : ℕ := 1

structure Record where
  used : Bool := false
  ordinaryActive : Bool := false
  cancelRegistered : Bool := false
  cancelActive : Bool := false
  capabilityQuery : Bool := false
  sdrProfile : Bool := false
  generation : ℕ := 1
  references : ℕ := 0
  key : TransactionKey := {}
  request : Envelope := {}
  cancelCam : UInt32 := 0
  requestedFields : Fin 8 → Bool := fun _ => false
  cancelFields : Fin 8 → Bool := fun _ => false
  seenOrdinary : UInt8 := 0
  seenCancel : UInt8 := 0
  deadline : ℕ := 0
  cancelDeadline : ℕ := 0
  expires : ℕ := 0
  observer : ControllerObserver := {}
  cancelMeaning : Bytes := []
  ordinaryState : Option StateObservation := none
  cancelState : Option StateObservation := none
  ordinaryCapabilities : Option CapabilityObservation := none
  /-- When the command's own phase ended. -/
  ordinaryTerminal : Option ℕ := none
  /-- When the phase of the cancellation ended. -/
  cancelTerminal : Option ℕ := none

structure ControllerHandle where
  slot : ℕ := 0
  generation : ℕ := 0
deriving DecidableEq

/-- `Records`, `MaxCancelBytes` and `Relationships`. -/
structure Sizes where
  records : ℕ
  maxCancelBytes : ℕ
  relationships : ℕ

structure Registry (sizes : Sizes) where
  relationships : Fin sizes.relationships → Relationship := fun _ => {}
  records : Fin sizes.records → Record := fun _ => {}
  /-- The message numbers that were issued, with the relationship. -/
  issued : List (Fin sizes.relationships × UInt32) := []

def minimumRetentionNs : ℕ := 30000000000

/-- `timing::deadline`. -/
def deadlineAfter (now delay : ℕ) : Result ℕ := do
  rejectIf (delay > uint64Max - now) (failure .overflow)
  return now + delay

def sameWireRelationship (a b : TransactionKey) : Bool :=
  a.peer.peer = b.peer.peer ∧ a.streamId = b.streamId ∧
    Engine.sameIdentifier a.controller b.controller ∧
    Engine.sameIdentifier a.controllee b.controllee

def requestedResponses (cam : UInt32) : UInt8 := UInt8.ofNat (Words.bits cam 18 3)

/-! ## Records -/

namespace Record

def active (r : Record) (cancellation : Bool) : Bool :=
  if cancellation then r.cancelActive else r.ordinaryActive

def limit (r : Record) (cancellation : Bool) : ℕ :=
  if cancellation then r.cancelDeadline else r.deadline

/-- The CAM word that the answers of a phase refer to. -/
def original (r : Record) (cancellation : Bool) : UInt32 :=
  if cancellation then r.cancelCam else (r.request.command.getD {}).cam

def fieldMask (r : Record) (cancellation : Bool) : Fin 8 → Bool :=
  if cancellation then r.cancelFields else r.requestedFields

def stateOf (r : Record) (cancellation : Bool) : Option StateObservation :=
  if cancellation then r.cancelState else r.ordinaryState

/-- `terminal`: a phase that is active ends. -/
def terminal (r : Record) (cancellation : Bool) (now : ℕ) : Result Record :=
  if ¬r.active cancellation then return r
  else do
    let retained ← deadlineAfter now minimumRetentionNs
    let r := if cancellation then { r with cancelActive := false, cancelTerminal := some now }
      else { r with ordinaryActive := false, ordinaryTerminal := some now }
    return { r with expires := max retained r.expires }

/-- A deadline that has passed ends its phase. -/
def expireDeadline (r : Record) (cancellation : Bool) (now : ℕ) : Result Record :=
  if r.active cancellation ∧ now ≥ r.limit cancellation then do
    let r ← r.terminal cancellation (r.limit cancellation)
    return { r with observer := r.observer.timeout cancellation }
  else return r

/-! ## Capturing answers -/

/-- The profile that an answer's state belongs to. -/
def profile (r : Record) : IqProfile :=
  if r.sdrProfile then .sdrRadio
  else if ∃ c ∈ r.request.classId, c.informationClass = 2 ∧ c.packetClass = 0x120 then .frequencyTunable
  else .generatorV1

/-- A field of a state answer. -/
def captureField (mask : Fin 8 → Bool) (out : StateObservation) (field : FieldView) :
    Result StateObservation := do
  match fieldIndex field.id with
  | none => throw (failure .unsupportedCapability)
  | some index =>
    rejectIf (¬mask index ∨ field.kind ≠ .values ∨ field.attr ≠ .current)
      (failure .unsupportedCapability)
    let value ← readResult field.value
    let known : FieldState := { id := field.id, value, validity := .known }
    return { out with
      state := { out.state with fields := Function.update out.state.fields index known }
      selectedMask := Function.update out.selectedMask index true }

def captureState (packet : PacketView) (r : Record) (cancellation : Bool) : Result StateObservation := do
  let e := packet.envelope.envelope
  rejectIf (e.timestamp.tsf = .picoseconds ∧ e.timestamp.fractional.toNat ≥ picosecondsPerSecond)
    (failure .invalidArgument)
  let blank : StateSnapshot := {}
  let out : StateObservation :=
    { state := { profile := r.profile, fields := fun i =>
        if r.fieldMask cancellation i then { blank.fields i with validity := .unknown }
        else blank.fields i }
      timestamp := e.timestamp
      hypothetical := Words.bits (e.command.getD {}).cam 23 2 = 1
      late := r.observer.isLate cancellation }
  packet.fields.foldlM (captureField (r.fieldMask cancellation)) out

/-- What two state answers agree on; how late they were does not matter. -/
def sameState (a b : StateObservation) : Bool :=
  a.selectedMask = b.selectedMask ∧ a.hypothetical = b.hypothetical ∧ a.timestamp = b.timestamp ∧
    ∀ i, (a.state.fields i).id = (b.state.fields i).id ∧
      (a.state.fields i).validity = (b.state.fields i).validity ∧
      ((a.state.fields i).validity = .known → (a.state.fields i).value = (b.state.fields i).value)

/-- The bound of a range that a field's value is for. -/
def assign (out : CapabilityObservation) (id : FieldId) (isMinimum : Bool) (value : SemanticValue) :
    Option CapabilityObservation :=
  if id = Field.rfReferenceFrequency then
    match value with
    | .hertz q => some { out with centerFrequency := out.centerFrequency.set isMinimum q }
    | _ => none
  else if id = Field.sampleRate then
    match value with
    | .hertz q => some { out with sampleRate := out.sampleRate.set isMinimum q }
    | _ => none
  else if id = Field.bandwidth then
    match value with
    | .hertz q => some { out with bandwidth := out.bandwidth.set isMinimum q }
    | _ => none
  else if id = Field.gain then
    match value with
    | .gainStages g => some { out with gain := out.gain.set isMinimum g }
    | _ => none
  else none

/-- The ranges so far, with the fields whose minimum and whose maximum was seen. -/
structure Ranges where
  out : CapabilityObservation := {}
  minimum : Fin 8 → Bool := fun _ => false
  maximum : Fin 8 → Bool := fun _ => false

/-- A field of a capability answer. -/
def captureRange (mask : Fin 8 → Bool) (s : Ranges) (field : FieldView) : Result Ranges := do
  match fieldIndex field.id with
  | none => throw (failure .unsupportedCapability)
  | some index =>
    rejectIf (¬mask index ∨ (field.attr ≠ .minimum ∧ field.attr ≠ .maximum))
      (failure .unsupportedCapability)
    let value ← readResult field.value
    let isMinimum : Bool := field.attr = .minimum
    match assign s.out field.id isMinimum value with
    | none => throw (failure .invalidArgument)
    | some out =>
      return if isMinimum then { s with out, minimum := Function.update s.minimum index true }
        else { s with out, maximum := Function.update s.maximum index true }

def captureCapabilities (packet : PacketView) (r : Record) : Result CapabilityObservation := do
  let s ← packet.fields.foldlM (captureRange r.requestedFields)
    { out := { timestamp := packet.envelope.envelope.timestamp, late := r.observer.timedOut } }
  let selectedMask := fun i => s.minimum i && s.maximum i
  rejectIf (selectedMask ≠ r.requestedFields) (failure .invalidArgument)
  return { s.out with selectedMask }

/-- What two capability answers agree on, including how late they were. -/
def sameCapabilities (a b : CapabilityObservation) : Bool :=
  a.centerFrequency = b.centerFrequency ∧ a.sampleRate = b.sampleRate ∧ a.bandwidth = b.bandwidth ∧
    a.gain = b.gain ∧ a.selectedMask = b.selectedMask ∧ a.timestamp = b.timestamp ∧ a.late = b.late

/-! ## Receiving -/

/-- What is known of an answer before its record is looked at again: it belongs to the record, and its
body decodes. -/
def matchAnswer (r : Record) (wire : Bytes) (e : Envelope) (cam : UInt32) : Result PacketView := do
  rejectIf (e.classId ≠ r.request.classId) (failure .identityConflict)
  rejectIf (e.cancel ∧ ¬r.cancelRegistered) (failure .invalidState)
  let original := r.original e.cancel
  rejectIf (cam &&& 0xffe00000 ≠ original &&& 0xffe00000) (failure .identityConflict)
  rejectIf (requestedResponses cam &&& requestedResponses original = 0) (failure .invalidArgument)
  readResult (decodePacketBounded 16 64 wire { request := some { cam := original } })

/-- What an answer says of the state or of the capabilities, if it is not in conflict with what is
known. -/
def capture (r : Record) (cancel : Bool) (cam : UInt32) (parsed : PacketView) :
    Result (Option StateObservation × Option CapabilityObservation) := do
  if Words.bit cam 18 ∧ r.capabilityQuery ∧ ¬cancel then
    let captured ← captureCapabilities parsed r
    rejectIf (∃ known ∈ r.ordinaryCapabilities, ¬sameCapabilities known captured)
      (failure .identityConflict)
    return (none, some captured)
  else if Words.bit cam 18 then
    let captured ← captureState parsed r cancel
    rejectIf (∃ known ∈ r.stateOf cancel, ¬sameState known captured) (failure .identityConflict)
    return (some captured, none)
  else return (none, none)

/-- What was captured is stored once. -/
def store (r : Record) (cancel : Bool) (captured : Option StateObservation × Option CapabilityObservation) :
    Record :=
  let r := if cancel then { r with cancelState := r.cancelState.or captured.1 }
    else { r with ordinaryState := r.ordinaryState.or captured.1 }
  { r with ordinaryCapabilities := r.ordinaryCapabilities.or captured.2 }

/-- The phases whose answer was seen. -/
def markSeen (r : Record) (cancel : Bool) (cam : UInt32) : Record :=
  if cancel then { r with seenCancel := r.seenCancel ||| requestedResponses cam }
  else { r with seenOrdinary := r.seenOrdinary ||| requestedResponses cam }

def seen (r : Record) (cancel : Bool) : UInt8 := if cancel then r.seenCancel else r.seenOrdinary

/-- A record whose answers have all been seen ends the phase. -/
def complete (r : Record) (cancel : Bool) (now : ℕ) : Result Unit × Record :=
  let expected := requestedResponses (r.original cancel)
  if r.seen cancel &&& expected = expected then
    match r.terminal cancel now with
    | .error e => (.error e, r)
    | .ok r => (.ok (), r)
  else (.ok (), r)

/-- `receive` on the record of an answer. -/
def receive (r : Record) (wire : Bytes) (e : Envelope) (cam : UInt32) (now : ℕ) :
    Result Unit × Record :=
  match r.matchAnswer wire e cam with
  | .error err => (.error err, r)
  | .ok parsed =>
    match r.expireDeadline e.cancel now with
    | .error err => (.error err, r)
    | .ok r =>
      match r.capture e.cancel cam parsed with
      | .error err => (.error err, r)
      | .ok captured =>
        match readResult (r.observer.receive parsed) with
        | .error err => (.error err, r)
        | .ok observer =>
          (({ r with observer }.store e.cancel captured).markSeen e.cancel cam).complete e.cancel now

end Record

/-! ## Calls -/

namespace Registry

variable {sizes : Sizes}

def setRecord (s : Registry sizes) (i : Fin sizes.records) (r : Record) : Registry sizes :=
  { s with records := Function.update s.records i r }

def setRelationship (s : Registry sizes) (j : Fin sizes.relationships) (r : Relationship) :
    Registry sizes :=
  { s with relationships := Function.update s.relationships j r }

def find (s : Registry sizes) (handle : ControllerHandle) : Option (Fin sizes.records) :=
  if h : handle.slot < sizes.records then
    if (s.records ⟨handle.slot, h⟩).used ∧
        (s.records ⟨handle.slot, h⟩).generation = handle.generation then some ⟨handle.slot, h⟩
    else none
  else none

/-- The first relationship that is the identity, or that shares its wire identity. -/
def registered (s : Registry sizes) (identity : TransactionKey) : Option (Fin sizes.relationships) :=
  (List.finRange sizes.relationships).find? fun j => (s.relationships j).used ∧
    (sameKey (s.relationships j).identity identity ∨
      sameWireRelationship (s.relationships j).identity identity)

def registerRelationship (identity : TransactionKey) (nextMid : UInt32) (profile : IqProfile)
    (s : Registry sizes) : Result ℕ × Registry sizes :=
  if identity.bindingGeneration = 0 ∨ identity.peer.generation = 0 then
    (.error (failure .invalidArgument), s)
  else
    let identity := { identity with messageId := 0 }
    match s.registered identity with
    | some j =>
      if sameKey (s.relationships j).identity identity ∧
          (s.relationships j).sdrProfile = (profile = .sdrRadio) then (.ok j.val, s)
      else (.error (failure .identityConflict), s)
    | none =>
      match (List.finRange sizes.relationships).find? fun j => ¬(s.relationships j).used with
      | some j => (.ok j.val, s.setRelationship j
          { used := true, sdrProfile := profile = .sdrRadio, identity, nextMid := nextMid.toNat })
      | none => (.error (failure .capacityExhausted), s)

/-- The relationship under a handle. -/
def relationship (s : Registry sizes) (slot : ℕ) : Option (Fin sizes.relationships) :=
  if h : slot < sizes.relationships then
    if (s.relationships ⟨slot, h⟩).used then some ⟨slot, h⟩ else none
  else none

def uint32Max : ℕ := 2 ^ 32 - 1

def resumeAfter (slot : ℕ) (watermark : UInt32) (s : Registry sizes) : Result Unit × Registry sizes :=
  match s.relationship slot with
  | none => (.error (failure .invalidArgument), s)
  | some j =>
    if watermark.toNat = uint32Max then (.error (failure .resourceLimit), s)
    else
      let rel := s.relationships j
      let next := watermark.toNat + 1
      (.ok (), if next > rel.nextMid then s.setRelationship j { rel with nextMid := next } else s)

/-- The fields of a packet, all of them fields of the state. -/
def selectedFields (fields : List FieldView) : Result (Fin 8 → Bool) := do
  rejectIf (fields.any fun f => (fieldIndex f.id).isNone) (failure .unsupportedCapability)
  return fun i => fields.any fun f => fieldIndex f.id = some i

/-- What `track` requires of a request, with its deadline and its fields. -/
def checkRequest (rel : Relationship) (request : PacketView) (now timeoutNs : ℕ) :
    Result (Command × ℕ × (Fin 8 → Bool)) := do
  let e := request.envelope.envelope
  match e.command with
  | none => throw (failure .invalidArgument)
  | some command =>
    rejectIf (e.type ≠ .command ∨ e.ack ∨ e.cancel ∨ request.isOpaque ∨ request.requiresRequestContext)
      (failure .invalidArgument)
    let derived ← transactionKey request rel.identity.bindingGeneration rel.identity.peer
    rejectIf (¬sameKey { derived with messageId := 0 } rel.identity) (failure .identityConflict)
    rejectIf (rel.nextMid > uint32Max) (failure .resourceLimit)
    let limit ← deadlineAfter now timeoutNs
    rejectIf (now > uint64Max - minimumRetentionNs ∨ limit > uint64Max - minimumRetentionNs)
      (failure .overflow)
    let selected ← selectedFields request.fields
    return (command, limit, selected)

/-- A record without a command that may still be used. -/
def freeRecord (s : Registry sizes) : Option (Fin sizes.records) :=
  (List.finRange sizes.records).find? fun i =>
    ¬(s.records i).used ∧ (s.records i).generation ≠ uint64Max

structure TrackedRequest where
  handle : ControllerHandle
  envelope : Envelope

def track (slot : ℕ) (request : PacketView) (now timeoutNs : ℕ) (s : Registry sizes) :
    Result TrackedRequest × Registry sizes :=
  match s.relationship slot with
  | none => (.error (failure .invalidArgument), s)
  | some j =>
    let rel := s.relationships j
    match checkRequest rel request now timeoutNs with
    | .error e => (.error e, s)
    | .ok (command, limit, selected) =>
      match s.freeRecord with
      | none => (.error (failure .capacityExhausted), s)
      | some i =>
        let messageId := UInt32.ofNat rel.nextMid
        let e := { request.envelope.envelope with command := some { command with messageId } }
        let generation := (s.records i).generation
        let r : Record :=
          { generation, used := true, ordinaryActive := true, references := 1
            key := { rel.identity with messageId }, request := e, requestedFields := selected
            capabilityQuery := request.fields.any fun f => f.attr = .minimum ∨ f.attr = .maximum
            sdrProfile := rel.sdrProfile, deadline := limit, observer := { messageId } }
        (.ok { handle := { slot := i.val, generation }, envelope := e },
          { (s.setRecord i r).setRelationship j { rel with nextMid := rel.nextMid + 1 } with
            issued := s.issued ++ [(j, messageId)] })

/-- The bytes of a cancellation without the packet count. -/
def cancelBytes (packet : PacketView) : Bytes :=
  (List.range packet.envelope.wire.length).map fun index =>
    let value := packet.envelope.wire.getD index 0
    if index = 1 then value &&& 0xf0 else value

inductive CancelRegistration where
  | fresh | retry
deriving DecidableEq

/-- What `register_cancel` requires of a cancellation. -/
def checkCancel (maxCancelBytes : ℕ) (r : Record) (packet : PacketView) (now timeoutNs : ℕ) :
    Result (CancelRegistration × Record) := do
  let e := packet.envelope.envelope
  rejectIf (e.classId ≠ r.request.classId) (failure .identityConflict)
  match e.command with
  | none => throw (failure .invalidArgument)
  | some command =>
    rejectIf (¬e.cancel ∨ e.ack ∨ packet.isOpaque ∨ packet.requiresRequestContext ∨
      packet.envelope.wire.length < 4) (failure .invalidArgument)
    match transactionKey packet r.key.bindingGeneration r.key.peer with
    | .error _ => throw (failure .identityConflict)
    | .ok key =>
      rejectIf (¬sameKey key r.key) (failure .identityConflict)
      if r.cancelRegistered then
        rejectIf (r.cancelMeaning ≠ cancelBytes packet) (failure .identityConflict)
        return (.retry, r)
      else
        let selected ← selectedFields packet.fields
        rejectIf (∃ i, selected i ∧ ¬r.requestedFields i) (failure .invalidArgument)
        rejectIf (packet.envelope.wire.length > maxCancelBytes) (failure .capacityExhausted)
        match deadlineAfter now timeoutNs with
        | .error _ => throw (failure .overflow)
        | .ok limit =>
          rejectIf (limit > uint64Max - minimumRetentionNs) (failure .overflow)
          return (.fresh, { r with cancelRegistered := true, cancelActive := true
                                   cancelFields := selected, cancelCam := command.cam
                                   cancelDeadline := limit, cancelMeaning := cancelBytes packet })

/-- A call that changes the record under a handle, or leaves it. -/
def onRecord {α : Type} (handle : ControllerHandle) (f : Record → Result (α × Record))
    (s : Registry sizes) : Result α × Registry sizes :=
  match s.find handle with
  | none => (.error (failure .staleGeneration), s)
  | some i =>
    match f (s.records i) with
    | .error e => (.error e, s)
    | .ok (a, r) => (.ok a, s.setRecord i r)

def registerCancel (handle : ControllerHandle) (packet : PacketView) (now timeoutNs : ℕ) :
    Registry sizes → Result CancelRegistration × Registry sizes :=
  onRecord handle fun r => checkCancel sizes.maxCancelBytes r packet now timeoutNs

def localSend (handle : ControllerHandle) (succeeded : Bool) :
    Registry sizes → Result Unit × Registry sizes :=
  onRecord handle fun r => return ((), { r with observer := r.observer.localSend succeeded })

def markTerminal (handle : ControllerHandle) (cancellation : Bool) (now : ℕ) :
    Registry sizes → Result Unit × Registry sizes :=
  onRecord handle fun r => do
    rejectIf (cancellation ∧ ¬r.cancelRegistered) (failure .invalidState)
    let r ← r.terminal cancellation now
    return ((), r)

def retain (handle : ControllerHandle) : Registry sizes → Result Unit × Registry sizes :=
  onRecord handle fun r => do
    rejectIf (r.references = sizeMax) (failure .overflow)
    return ((), { r with references := r.references + 1 })

def release (handle : ControllerHandle) : Registry sizes → Result Unit × Registry sizes :=
  onRecord handle fun r => do
    rejectIf (r.references = 0) (failure .staleGeneration)
    return ((), { r with references := r.references - 1 })

/-- The key that an acknowledgement answers to. -/
def answerKey (generation : ℕ) (peer : PeerSession) (e : Envelope) (command : Command) :
    TransactionKey :=
  { bindingGeneration := generation, peer, streamId := e.streamId, controller := command.controller
    controllee := command.controllee, messageId := command.messageId }

def findKey (key : TransactionKey) (s : Registry sizes) : Option (Fin sizes.records) :=
  (List.finRange sizes.records).find? fun i => (s.records i).used ∧ sameKey key (s.records i).key

def receive (generation : ℕ) (peer : PeerSession) (wire : Bytes) (now : ℕ) (s : Registry sizes) :
    Result ControllerHandle × Registry sizes :=
  match readResult (decodeEnvelope wire) with
  | .error e => (.error e, s)
  | .ok framing =>
    let e := framing.envelope
    match e.command with
    | none => (.error (failure .invalidArgument), s)
    | some command =>
      if ¬e.ack then (.error (failure .invalidArgument), s)
      else match s.findKey (answerKey generation peer e command) with
        | none => (.error (failure .staleGeneration), s)
        | some i =>
          match (s.records i).receive wire e command.cam now with
          | (.error err, r) => (.error err, s.setRecord i r)
          | (.ok (), r) => (.ok { slot := i.val, generation := r.generation }, s.setRecord i r)

/-- `advance` from a record on. -/
def advanceFrom (now : ℕ) : List (Fin sizes.records) → Registry sizes → Result Unit × Registry sizes
  | [], s => (.ok (), s)
  | i :: rest, s =>
    if ¬(s.records i).used then advanceFrom now rest s
    else match (s.records i).expireDeadline false now with
      | .error e => (.error e, s)
      | .ok r =>
        match r.expireDeadline true now with
        | .error e => (.error e, s.setRecord i r)
        | .ok r => advanceFrom now rest (s.setRecord i r)

def advance (now : ℕ) (s : Registry sizes) : Result Unit × Registry sizes :=
  advanceFrom now (List.finRange sizes.records) s

/-- The record may be freed. -/
def expired (r : Record) (now : ℕ) : Bool :=
  r.used ∧ ¬r.ordinaryActive ∧ ¬r.cancelActive ∧ r.references = 0 ∧ now ≥ r.expires

def expire (now : ℕ) (s : Registry sizes) : Registry sizes :=
  { s with records := fun i =>
      if expired (s.records i) now then { generation := (s.records i).generation + 1 }
      else s.records i }

/-! ## Runs -/

inductive Call where
  | registerRelationship (identity : TransactionKey) (nextMid : UInt32) (profile : IqProfile)
  | resumeAfter (slot : ℕ) (watermark : UInt32)
  | track (slot : ℕ) (request : PacketView) (now timeoutNs : ℕ)
  | registerCancel (handle : ControllerHandle) (packet : PacketView) (now timeoutNs : ℕ)
  | localSend (handle : ControllerHandle) (succeeded : Bool)
  | receive (generation : ℕ) (peer : PeerSession) (wire : Bytes) (now : ℕ)
  | advance (now : ℕ)
  | markTerminal (handle : ControllerHandle) (cancellation : Bool) (now : ℕ)
  | retain (handle : ControllerHandle)
  | release (handle : ControllerHandle)
  | expire (now : ℕ)

def call (s : Registry sizes) : Call → Registry sizes
  | .registerRelationship identity nextMid profile =>
    (s.registerRelationship identity nextMid profile).2
  | .resumeAfter slot watermark => (s.resumeAfter slot watermark).2
  | .track slot request now timeoutNs => (s.track slot request now timeoutNs).2
  | .registerCancel handle packet now timeoutNs => (s.registerCancel handle packet now timeoutNs).2
  | .localSend handle succeeded => (s.localSend handle succeeded).2
  | .receive generation peer wire now => (s.receive generation peer wire now).2
  | .advance now => (s.advance now).2
  | .markTerminal handle cancellation now => (s.markTerminal handle cancellation now).2
  | .retain handle => (s.retain handle).2
  | .release handle => (s.release handle).2
  | .expire now => s.expire now

def run (s : Registry sizes) (calls : List Call) : Registry sizes := calls.foldl call s

def Reachable (s : Registry sizes) : Prop := ∃ calls, s = run {} calls

end Registry

end Vita.Transaction.Controller
