import Vita.Codec.Packet
import Vita.Transaction.Cam

/-!
# What a controller knows of its command (`transaction/outcomes.hpp`)

An observer turns the acknowledgements of one command into observations. It keeps one observation for
each kind of event and phase; an answer that differs from the one that is kept makes it contradictory.
An answer behind the deadline is kept apart from one before it.

Main definitions:
- `ControllerObserver.observe`: what an acknowledgement says;
- `ControllerObserver.record`: how it is kept.
-/

namespace Vita.Transaction

open Checked Codec

inductive ObservationKind where
  | unconfirmed | localSend | localFailure | validation | execution | state | timeout | lateResponse
  | cancellationExecution | cancellationState | cancellationTimeout
deriving DecidableEq

structure Observation where
  kind : ObservationKind := .unconfirmed
  hypothetical : Bool := false
  isPartial : Bool := false
  success : Bool := false
  unknownRemoteOutcome : Bool := true
  responseKind : ObservationKind := .unconfirmed
  confirmsExecution : Bool := false
  contradictory : Bool := false
  cancellation : Bool := false
  confirmsCancellation : Bool := false
  cancellationOutcomeKnown : Bool := false
  validationOutcomeKnown : Bool := false
  validationAccepted : Bool := false
deriving DecidableEq

/-- What remains of an observation that another answer contradicts. -/
def Observation.contradict (o : Observation) : Observation :=
  { o with contradictory := true, success := false, unknownRemoteOutcome := true
           confirmsExecution := false, confirmsCancellation := false, cancellationOutcomeKnown := false
           validationOutcomeKnown := false, validationAccepted := false }

/-- The same event in the same phase. -/
def Observation.sameSlot (a b : Observation) : Bool := a.kind = b.kind ∧ a.responseKind = b.responseKind

structure ControllerObserver where
  messageId : UInt32 := 0
  timedOut : Bool := false
  cancellationTimedOut : Bool := false
  current : Observation := {}
  history : List Observation := []

/-- `FieldView::diagnostic`. -/
def diagnosticWord (view : FieldView) : Decoded UInt32 := do
  rejectIf (view.kind ≠ .diagnostics ∨ view.bytes.length ≠ 4) (Fault.error (failure .invalidState))
  load32 view.bytes 0

namespace ControllerObserver

/-- The history after an event: the observation of its slot is confirmed or contradicted. -/
def merge (event : Observation) : List Observation → List Observation
  | [] => [event]
  | h :: rest =>
    if h.sameSlot event then (if h ≠ event then h.contradict else h) :: rest
    else h :: merge event rest

def record (o : ControllerObserver) (event : Observation) : ControllerObserver :=
  let history := merge event o.history
  { o with history, current := (history.find? (·.sameSlot event)).getD event }

def localSend (o : ControllerObserver) (succeeded : Bool) : ControllerObserver :=
  o.record { kind := if succeeded then .localSend else .localFailure }

/-- `timeout` and `cancellation_timeout`. -/
def timeout (o : ControllerObserver) (cancellation : Bool) : ControllerObserver :=
  if cancellation then
    if o.cancellationTimedOut then o
    else { o with cancellationTimedOut := true }.record
      { kind := .cancellationTimeout, cancellation := true }
  else if o.timedOut then o
  else { o with timedOut := true }.record { kind := .timeout }

/-- The timeout of a phase has been noted. -/
def isLate (o : ControllerObserver) (cancellation : Bool) : Bool :=
  if cancellation then o.cancellationTimedOut else o.timedOut

/-- The diagnostics of an acknowledgement: whether one says that the state is indeterminate, and whether
one is an error. -/
def diagnose : List FieldView → Bool × Bool → Decoded (Bool × Bool)
  | [], s => return s
  | view :: rest, (indeterminate, validationError) => do
    if view.kind = .diagnostics then
      let word ← diagnosticWord view
      diagnose rest (indeterminate || word &&& stateIndeterminate ≠ 0,
        validationError || (view.group = .error && word ≠ 0))
    else diagnose rest (indeterminate, validationError)

/-- The phase of an acknowledgement. -/
def phaseOf (cancel : Bool) (cam : UInt32) : ObservationKind :=
  if cancel then (if Words.bit cam 19 then .cancellationExecution else .cancellationState)
  else if Words.bit cam 20 then .validation
  else if Words.bit cam 19 then .execution
  else .state

/-- The observation that an acknowledgement is recorded as. -/
def observe (late : Bool) (messageId : UInt32) (response : PacketView) : Decoded Observation := do
  let e := response.envelope.envelope
  match e.command with
  | none => throw (Fault.error (failure .invalidArgument))
  | some command =>
    rejectIf (¬e.ack ∨ command.messageId ≠ messageId ∨ response.requiresRequestContext ∨
      response.isOpaque) (Fault.error (failure .invalidArgument))
    let cam := command.cam
    (validateCam e cam).decoded
    let action := Words.bits cam 23 2
    let isPartial := Words.bit cam 11
    let executed := Words.bit cam 10
    rejectIf (e.cancel ∧ (Words.bit cam 20 ∨ action ≠ 2)) (Fault.error (failure .invalidArgument))
    let kind := phaseOf e.cancel cam
    let (indeterminate, validationError) ← diagnose response.fields (false, Words.bit cam 16)
    let confirmed : Bool := kind = .execution ∧ action = 2 ∧ ¬isPartial ∧ executed ∧ ¬indeterminate ∧
      Words.bits cam 12 3 ≠ 7
    let cancelKnown : Bool := kind = .cancellationExecution ∧ ¬indeterminate
    return { kind := if late then .lateResponse else kind
             hypothetical := action = 1, isPartial
             success := confirmed && !late, unknownRemoteOutcome := !confirmed
             responseKind := kind, confirmsExecution := confirmed, cancellation := e.cancel
             confirmsCancellation := cancelKnown && executed, cancellationOutcomeKnown := cancelKnown
             validationOutcomeKnown := kind = .validation
             validationAccepted := kind = .validation ∧ executed ∧ ¬isPartial ∧ ¬validationError ∧
               ¬indeterminate ∧ Words.bits cam 12 3 ≠ 7 }

def receive (o : ControllerObserver) (response : PacketView) : Decoded ControllerObserver := do
  let event ← observe (o.isLate response.envelope.envelope.cancel) o.messageId response
  return o.record event

end ControllerObserver

end Vita.Transaction
