import Vita.Transaction.Plan

/-!
# The transaction engine (`transaction/engine.hpp`)

The engine admits commands into transaction slots, executes their plans field by field through the
backend, and incorporates the outcomes that the backend publishes. At most one slot owns the effect
lane. The calls are serialized, so `progressing_` is never set at the start of one and is left out, as
are traces.

The state keeps a log of what the engine does to the outside and of the points of its run that the
statements about it refer to; the engine never reads it.

Main definitions:
- `Engine.accept`, `Engine.progress`, `Engine.cancel`, `Engine.requestQuiesce`, `Engine.release`;
- `Engine.step`: one call of any of these, or an act of the surroundings.
-/

namespace Vita.Transaction

open Checked Timing State Codec

/-! ## State -/

/-- A call of `backend.begin`, or of `backend.commit` for a `batch`, with the state version at that
time and whether a radio start is armed. -/
structure Dispatch where
  tx : ℕ
  batch : Bool
  fields : List FieldId
  cam : Cam
  plan : ExecutionPlan
  cancelled : ℕ → Bool
  version : ℕ
  armed : Bool
  now : OperationContext

inductive Event where
  /-- A command becomes a transaction. -/
  | admitted (tx : ℕ) (request : Request) (now : OperationContext)
  /-- `backend.begin` or `backend.commit` is called. -/
  | dispatched (d : Dispatch)
  /-- `backend.disarm` is called. -/
  | disarmed (tx : ℕ)
  /-- The transaction gives the lane back and waits for a later boundary. -/
  | deferred (tx : ℕ)
  /-- An eligible field is skipped, since a field it depends on was not executed. -/
  | blocked (tx : ℕ) (cam : Cam)
  /-- A failed validation left an order that does not list every field. -/
  | disordered (tx : ℕ)
  /-- The outcome of a dispatched or simulated field is recorded. -/
  | recorded (tx : ℕ) (cam : Cam) (o : FieldOutcome)
  /-- The engine state of a field is changed by a transaction. -/
  | stored (tx : ℕ) (i : Fin 8) (validity : Validity)
  /-- `effects.record` is called. -/
  | effect (tx : ℕ) (event : EffectiveEvent)
  /-- The cancellation of a field is confirmed. -/
  | confirmed (tx : ℕ) (id : FieldId)
  | completed (tx : ℕ)

structure Engine (σ : Type) where
  slots : ℕ → Slot := fun _ => {}
  env : Env σ
  pool : AdmissionPool
  state : StateSnapshot := {}
  timeline : Option SampleTimeline := none
  nextTicketOperation : ℕ := 1
  nextSequence : ℕ := 1
  associationGeneration : ℕ := 0
  effectOwner : Option ℕ := none
  faulted : Bool := false
  quiescing : Bool := false
  log : List Event := []

structure Handle where
  slot : ℕ
  generation : ℕ
deriving DecidableEq

namespace Engine

variable {σ : Type}

def setSlot (w : Engine σ) (i : ℕ) (s : Slot) : Engine σ :=
  { w with slots := Function.update w.slots i s }

def setPort (w : Engine σ) (p : Port) : Engine σ := { w with env := { w.env with port := p } }

def emit (w : Engine σ) (e : Event) : Engine σ := { w with log := w.log ++ [e] }

/-- A callback runs. -/
def call {α : Type} (w : Engine σ) (f : σ → Reply σ α) : α × Engine σ :=
  let (a, env) := w.env.call f
  (a, { w with env })

variable (c : Config σ)

/-- A reservation of revisions is given back. -/
def releaseRevisions (w : Engine σ) : Option ℕ → Engine σ
  | none => w
  | some token => (w.call (c.effects.release token)).2

/-! ## Faults of the backend -/

/-- The state of a field is not known any more. -/
def forget (state : StateSnapshot) (i : Fin 8) : StateSnapshot :=
  { state with
    fields := Function.update state.fields i { state.fields i with validity := .unknown }
    version := if state.version = uint64Max then state.version else state.version + 1 }

/-- A result whose cancellation was contradicted. -/
def observeFault (w : Engine σ) (r : ℕ) : Engine σ :=
  let guard := (w.env.port.results r).guard
  if guard.cancelled ∧ guard.contradiction then
    let w := w.setPort (w.env.port.setGuard r fun g => { g with contradiction := false })
    if guard.associationGeneration = w.associationGeneration then
      let w := { w with faulted := true }
      match fieldIndex guard.field with
      | none => w
      | some i =>
        if (w.state.fields i).validity ≠ .unknown then { w with state := forget w.state i } else w
    else w
  else w

/-- `observe_backend_faults`. -/
def observeBackendFaults (w : Engine σ) : Engine σ :=
  (List.range (c.transactions * 4)).foldl observeFault w

/-! ## Acknowledgements -/

/-- The part of a field in an acknowledgement: whether it was successful, its diagnostics, and whether
it is selected. -/
def fieldSuccess (s : Slot) (kind : AckKind) (observed : StateSnapshot) (f : ℕ) : Bool :=
  match kind with
  | .validation => s.eligible f
  | .execution => (s.outcomes f).status = .executed
  | .state => ¬(s.request.field f).unsupportedAttributes ∧
      (s.request.capabilityQuery ∨ ∃ i ∈ fieldIndex (s.execution.fields f).id, observed.knows i)

def fieldDiagnostics (s : Slot) (kind : AckKind) (f : ℕ) : Diagnostics :=
  match kind with
  | .validation => (s.execution.fields f).diagnostics
  | .execution => (s.outcomes f).diagnostics
  | .state => {}

/-- The latest known time of the outcomes. -/
def latestOutcome (s : Slot) : Option ProtocolTime :=
  (List.range s.execution.count).foldl
    (fun latest f =>
      let o := s.outcomes f
      match latest with
      | none => if o.timeKnown then some o.actualTime else none
      | some t => if o.timeKnown ∧ t.before o.actualTime then some o.actualTime else some t) none

/-- The time of an acknowledgement. -/
def ackTime (c : Config σ) (s : Slot) (kind : AckKind) (now : OperationContext)
    (timingFailure : Bool) : Option ProtocolTime :=
  let time := match kind with
    | .execution => latestOutcome s
    | .validation =>
      if s.timeKnown ∧ ¬timingFailure ∧ s.scheduleValid then some s.execution.boundary.time else none
    | .state => if now.clock.usable then some now.clock.time else none
  match time with
  | some t => some t
  | none => if c.profile = .sdrRadio ∧ now.clock.usable then some now.clock.time else none

/-- The acknowledgement that `queue_ack` builds from an observed state. -/
def buildAck (c : Config σ) (s : Slot) (kind : AckKind) (observed reported : StateSnapshot)
    (now : OperationContext) : AckRecord :=
  let count := s.execution.count
  let fields := List.range count
  let successful := fields.countP (fieldSuccess s kind observed)
  let timingFailure : Bool :=
    kind ≠ .state ∧ ∃ f ∈ fields, (fieldDiagnostics s kind f).errors &&& timingError ≠ 0
  let selected (i : Fin 8) : Bool := kind = .state ∧ ∃ f ∈ fields,
    fieldIndex (s.execution.fields f).id = some i ∧ fieldSuccess s kind observed f
  let nothing : Bool := kind = .execution ∧ (s.action = 0 ∨ count = 0)
  let time := ackTime c s kind now timingFailure
  { request := s.request.envelope, cam := s.request.cam, kind, hypothetical := s.action = 1
    epoch := epochTsi now.clock.epoch, state := reported
    diagnostics := fun i =>
      ((fields.reverse.find? fun f => fieldIndex (s.execution.fields f).id = some i).map
        (fieldDiagnostics s kind)).getD {}
    selectedMask := selected
    sdrCapabilities := if kind = .state ∧ (∃ i ∈ List.finRange 8, selected i) ∧
      s.request.capabilityQuery then c.sdrCapabilities else none
    partialResult := ¬nothing ∧ (successful ≠ count ∨ timingFailure)
    scheduledOrExecuted := ¬nothing ∧
      if kind = .state then successful ≠ 0 else successful = count ∧ ¬timingFailure
    time := time.getD {}, timeKnown := time.isSome
    timing := if timingFailure then 7 else s.request.cam.timing }

/-- `queue_ack`. -/
def queueAck (i : ℕ) (kind : AckKind) (observed : StateSnapshot) (now : OperationContext)
    (w : Engine σ) : Engine σ :=
  let (reported, w) := match kind, c.observe with
    | .state, some observe => w.call (observe observed now)
    | _, _ => (observed, w)
  let s := w.slots i
  let ack := buildAck c s kind observed reported now
  if shouldEmit ack.cam kind ack.summary ∧ s.responses.length < 3 then
    w.setSlot i { s with responses := s.responses ++ [ack] }
  else w

/-- `finish`: the transaction is complete and leaves the lane. -/
def finish (i : ℕ) (now : OperationContext) (w : Engine σ) : Engine σ :=
  let s := w.slots i
  let observed := if s.action = 1 then s.hypothetical else w.state
  let w := queueAck c i .execution observed now w
  let w := queueAck c i .state observed now w
  let s := w.slots i
  let w := w.setSlot i { s with complete := true, revisions := none }
  let w := releaseRevisions c w s.revisions
  let w := if w.effectOwner = some i then { w with effectOwner := none } else w
  w.emit (.completed s.sequence)

/-! ## Outcomes -/

/-- A reported outcome that says nothing definite about its field. -/
def malformed (planned : PlannedField) (o : FieldOutcome) : Bool :=
  o.id ≠ planned.id ∨ o.status = .pending ∨ o.status = .executed ∧ o.validity ≠ .known ∨
    o.status = .unknownEffect ∧ o.validity ≠ .unknown ∨ o.timeKnown ∧ ¬o.actualTime.valid

/-- The effect of a field is not known. -/
def unknownOutcome (id : FieldId) : FieldOutcome :=
  { id, status := .unknownEffect, validity := .unknown
    diagnostics := { errors := deviceFailure ||| stateIndeterminate } }

/-- A time lies in the window of a timed command with its uncertainty. -/
def inWindow (mode : ℕ) (requested time : ProtocolTime) (uncertaintyPs : ℕ)
    (timing : TimingCapabilities) : Bool :=
  match subtract time (.fromPicoseconds uncertaintyPs), add time (.fromPicoseconds uncertaintyPs) with
  | .ok first, .ok last => effectIntervalAllowed mode requested first last timing = .ok true
  | _, _ => false

/-- The outcome that is recorded for a reported one. -/
def settledOutcome (c : Config σ) (quiescing : Bool) (s : Slot) (planned : PlannedField)
    (reported : FieldOutcome) : FieldOutcome :=
  let o := if malformed planned reported then unknownOutcome planned.id else reported
  let o := { o with
    simulated := s.action = 1
    diagnostics := { warnings := o.diagnostics.warnings ||| planned.diagnostics.warnings
                     errors := o.diagnostics.errors ||| planned.diagnostics.errors } }
  let valid : Bool := validateValue planned.id o.value true = .ok () ∧
    (c.profile = .iqFrequencyTunable → (tunableValidate planned.id o.value).resolvable)
  let o := if o.status = .executed ∧ ¬valid then
      { o with status := .unknownEffect, validity := .unknown
               diagnostics := addErrors o.diagnostics (deviceFailure ||| stateIndeterminate) }
    else o
  let o := if o.status ≠ .executed then { o with diagnostics := markNotExecuted o.diagnostics } else o
  let timed : Bool := s.request.cam.timing ≠ 0
  have late : Bool := quiescing ∧ timed ∧ o.status ≠ .executed ∨
    timed ∧ o.status = .executed ∧ ¬(o.timeKnown ∧
      inWindow s.request.cam.timing s.requestedTime o.actualTime o.uncertaintyPs s.timing)
  if late then { o with diagnostics := addErrors o.diagnostics timingError } else o

/-- The state after an outcome, if it changes. -/
def changedState (state : StateSnapshot) (planned : PlannedField) (o : FieldOutcome) (i : Fin 8) :
    Option StateSnapshot :=
  let old := state.fields i
  let next : FieldState := match o.status with
    | .executed => { id := planned.id, validity := .known, value := o.value }
    | _ => { id := planned.id, validity := .unknown, value := old.value }
  if (o.status = .executed ∨ o.status = .unknownEffect) ∧ (next.validity ≠ old.validity ∨
      next.validity = .known ∧ next.value ≠ old.value) then
    some { state with fields := Function.update state.fields i next
                      version := (state.version + 1) % 2 ^ 64 }
  else none

/-- The event of a changed field. -/
def effectiveEvent (s : Slot) (state : StateSnapshot) (planned : PlannedField) (o : FieldOutcome)
    (i : Fin 8) : EffectiveEvent :=
  { state, actualTime := o.actualTime, sampleOrdinal := o.sampleOrdinal
    sourceOperation := s.execution.operation
    associationGeneration := s.execution.associationGeneration
    changedMask := BitVec.ofNat 8 (2 ^ i.val), timeKnown := o.timeKnown
    ordinalKnown := o.ordinalKnown, outcome := o
    sampleEpoch := if state.profile = .sdrRadio ∧ planned.id = Field.discreteIO32 ∧
        o.status = .executed ∧ o.value = .word 3 then some s.requestedTime else none }

/-- An event is recorded by the effect sink, with one revision's credits of the slot. -/
def recordEvent (i : ℕ) (event : EffectiveEvent) (w : Engine σ) : Engine σ :=
  let s := w.slots i
  match c.effects.record,
    s.credits.transfer ((AdmissionRequest.none.need .revision 1).need .contextPublication 1) with
  | some record, .ok (credits, rest) =>
    let (revisions, w) := (w.emit (.effect s.sequence event)).call (record event s.revisions credits)
    w.setSlot i { s with credits := rest, revisions }
  | _, _ => w

/-- The fields from the present step on are not executed. -/
def blockRest (s : Slot) : Slot :=
  { s with execution := { s.execution with
      fields := (((List.range s.execution.count).drop s.step).map s.execution.order).foldl
        (fun fields f => Function.update fields f (PlannedField.withdraw (fields f) notExecuted))
        s.execution.fields } }

/-- The outcome of the present step is recorded in the slot. -/
def recordOutcome (s : Slot) (field : ℕ) (o : FieldOutcome) : Slot :=
  let s := { s with outcomes := Function.update s.outcomes field o, running := false
                    step := s.step + 1 }
  if o.status ≠ .executed ∧ ¬s.request.cam.partialAllowed then blockRest s else s

/-- The effect of a settled outcome on the live state. -/
def storeOutcome (publish : Bool) (i : ℕ) (planned : PlannedField) (o : FieldOutcome)
    (w : Engine σ) : Engine σ :=
  let s := w.slots i
  let w := if o.status = .unknownEffect then { w with faulted := true } else w
  match fieldIndex planned.id with
  | none => w
  | some k =>
    match changedState w.state planned o k with
    | none => w
    | some state =>
      let w := { w with state }.emit (.stored s.sequence k (state.fields k).validity)
      if publish then recordEvent c i (effectiveEvent s state planned o k) w else w

/-- `apply_outcome`; without `publish` the effect sink is not told. -/
def applyOutcome (publish : Bool) (i field : ℕ) (reported : FieldOutcome) (w : Engine σ) :
    Engine σ :=
  let s := w.slots i
  let planned := s.execution.fields field
  let o := settledOutcome c w.quiescing s planned reported
  let w := if o.simulated then
      match (fieldIndex planned.id).bind (changedState s.hypothetical planned o) with
      | none => w
      | some hypothetical => w.setSlot i { s with hypothetical }
    else storeOutcome c publish i planned o w
  let w := w.setSlot i (recordOutcome (w.slots i) field o)
  w.emit (.recorded s.sequence s.request.cam o)

/-- The slot whose running operation a record belongs to. -/
def findRunning (w : Engine σ) (operation : ℕ) : Option ℕ :=
  (List.range c.transactions).find? fun i =>
    let s := w.slots i
    s.active ∧ s.running ∧ s.ticketOperations s.runningField = operation

/-- `consume`: the outcome that a completion record stands for is applied. -/
def consume (record : CompletionRecord) (w : Engine σ) : Engine σ :=
  match findRunning c w record.operation with
  | none => w
  | some i =>
    let s := w.slots i
    let field := s.runningField
    let r := i * 4 + field
    let outcome := if record.result.status = .succeeded ∧ record.result.value = r then
        (w.env.port.results r).outcome
      else unknownOutcome (s.execution.fields field).id
    applyOutcome c true i field outcome w

/-- One ticket of a scan. -/
def scanTicket (w : Engine σ) (t : ℕ) : Engine σ :=
  match w.env.port.consume (c.transactions * 4) t with
  | (none, _) => w
  | (some record, port) => consume c record (w.setPort port)

/-- `tickets_.scan`. -/
def scan (w : Engine σ) : Engine σ := (List.range (c.transactions * 4)).foldl (scanTicket c) w

end Engine

end Vita.Transaction
