import Vita.Transaction.Engine

/-!
# Progress of the transactions (`Engine::progress`)

A call of `progress` first takes in what the backend has published, then gives the effect lane to a
transaction that is due, and then gives every slot its turn. In its turn a transaction is validated
again the first time, its boundary is checked and possibly chosen again, and its fields are begun one
at a time; a radio's settings are committed together. A turn that begins a field ends the call.
-/

namespace Vita.Transaction.Engine

open Checked Timing State Codec

variable {σ : Type} (c : Config σ)

/-- How the loop over the slots goes on after a turn. -/
inductive Flow where
  | next
  | done (result : Result Unit)

/-! ## Validation in the turn -/

/-- Another transaction is a radio start that is going to be executed. -/
def armed (w : Engine σ) (i : ℕ) : Bool :=
  ∃ j ∈ List.range c.transactions, j ≠ i ∧ (w.slots j).armedStart

/-- A radio is to be stopped. -/
def immediateStop (r : Request) : Bool := c.profile = .sdrRadio ∧ r.isOnly Field.discreteIO32 2

/-- Every field has a position in the order of the plan. -/
def listsAll (p : ExecutionPlan) : Bool :=
  ∀ f ∈ List.range p.count, ∃ q ∈ List.range p.count, p.order q = f

/-- `validate_plan` for the transaction of a slot, against the present state. -/
def validate (i : ℕ) (s : Slot) (w : Engine σ) : Bool × Engine σ :=
  let (ok, s, env) := validatePlan c s w.state (armed c w i) w.env
  let w := { w.setSlot i s with env }
  (ok, if ok ∨ listsAll s.execution then w else w.emit (.disordered s.sequence))

/-- Fields that were refused at admission stay refused; a failed validation and a fault refuse all. -/
def admittedOnly (admitted : ExecutionPlan) (ok refused : Bool) (p : ExecutionPlan) : ExecutionPlan :=
  let p := mapFields p fun j f =>
    if (admitted.fields j).eligible then f
    else { f with eligible := false, diagnostics := (admitted.fields j).diagnostics }
  let p := if ok then p else withdrawAll p (invalidValue ||| notExecuted)
  if refused then withdrawAll p (stateIndeterminate ||| notExecuted) else p

/-- The validation in the first turn of a transaction. -/
def revalidate (now : OperationContext) (i : ℕ) (w : Engine σ) : Engine σ :=
  let s := w.slots i
  if s.revalidated then w
  else
    let admitted := s.execution
    let s := { s with dataRunning := now.dataRunning ∧ ¬immediateStop c s.request }
    let (ok, w) := validate c i s w
    let s := w.slots i
    w.setSlot i
      { s with execution := admittedOnly admitted ok (w.faulted ∧ s.action = 2) s.execution
               hypothetical := w.state, revalidated := true }

/-! ## Boundaries -/

/-- The command has a boundary. -/
def scheduled (s : Slot) : Bool := s.request.cam.timing ≠ 0 ∨ s.dataRunning

/-- A stopped radio starts at the requested time and not at a sample boundary. -/
def sdrStart (s : Slot) : Bool :=
  c.profile = .sdrRadio ∧ ¬s.dataRunning ∧ s.request.isOnly Field.discreteIO32 3

/-- The boundaries a command may choose from. -/
def candidates (now : OperationContext) (s : Slot) : List Boundary :=
  if sdrStart c s then
    [{ time := s.requestedTime, mappingGeneration := now.clock.mappingGeneration }]
  else now.boundaries

/-- The clock is good enough for the command. -/
def qualified (now : OperationContext) (s : Slot) : Bool :=
  s.request.cam.timing = 0 ∧ ¬s.dataRunning ∨
    now.clock.usable ∧ (s.request.cam.timing = 0 ∨ s.timing.qualified ∨ s.timing.injected)

def boundaryAvailable (now : OperationContext) (s : Slot) : Bool :=
  let boundary := s.execution.boundary
  if sdrStart c s then
    boundary.time = s.requestedTime ∧ boundary.mappingGeneration = now.clock.mappingGeneration
  else ∃ b ∈ now.boundaries, b.sampleOrdinal = boundary.sampleOrdinal ∧ b.time = boundary.time ∧
    b.mappingGeneration = now.clock.mappingGeneration ∧ ¬b.committed ∧ b.backendReady

def setBoundary (s : Slot) (boundary : Boundary) : Slot :=
  { s with execution := { s.execution with boundary } }

/-- A boundary that is no longer available is chosen again. -/
def reschedule (now : OperationContext) (s : Slot) : Slot :=
  let s := if sdrStart c s ∧ s.scheduleValid ∧ qualified now s then
      setBoundary s { s.execution.boundary with mappingGeneration := now.clock.mappingGeneration }
    else s
  let s := if boundaryAvailable c now s then s else { s with scheduleValid := false }
  let s := if ¬s.scheduleValid ∨
      s.execution.boundary.mappingGeneration ≠ now.clock.mappingGeneration then
      match chooseBoundary s.request.cam.timing s.requestedTime now.clock (candidates c now s)
        s.timing with
      | .ok boundary => setBoundary { s with scheduleValid := true } boundary
      | .error _ => { s with scheduleValid := false }
    else s
  if qualified now s then s else { s with scheduleValid := false }

/-- The boundary is in the future and there is something to wait for. -/
def waits (now : OperationContext) (s : Slot) : Bool :=
  s.scheduleValid ∧ s.action = 2 ∧ now.clock.time.before s.execution.boundary.time ∧
    ∃ f ∈ List.range s.execution.count, s.eligible f ∧ ¬s.cancelled f

/-- Without a valid schedule nothing is executed. -/
def checkWindow (now : OperationContext) (s : Slot) : Slot :=
  let s := if s.scheduleValid ∧ s.action = 2 ∧ s.request.cam.timing ≠ 0 ∧
      ¬inWindow s.request.cam.timing s.requestedTime now.clock.time now.clock.uncertaintyPs s.timing then
      { s with scheduleValid := false }
    else s
  if s.scheduleValid then s
  else { s with execution := withdrawAll s.execution (timingError ||| notExecuted) }

/-! ## The settings of a radio -/

/-- The complete settings are validated once more before they are committed. -/
def recheck (now : OperationContext) (i : ℕ) (w : Engine σ) : Bool × Engine σ :=
  let s := w.slots i
  if c.backend.commit.isSome ∧ ∀ f ∈ List.range 4, s.eligible f ∧ ¬s.cancelled f then
    let (ok, w) := validate c i { s with dataRunning := now.dataRunning } w
    (ok ∧ ∀ f ∈ List.range 4, (w.slots i).eligible f, w)
  else (false, w)

/-- What a batch reports for a field. -/
def batchOutcome (status : FieldStatus) (batch : BatchOutcome) (planned : PlannedField) :
    FieldOutcome :=
  { id := planned.id, value := planned.adjusted, status
    validity := match status with
      | .executed => .known
      | .unknownEffect => .unknown
      | _ => .absent
    actualTime := batch.actualTime, timeKnown := batch.timeKnown
    uncertaintyPs := batch.uncertaintyPs
    diagnostics := match status with
      | .executed => {}
      | .unknownEffect => { errors := deviceFailure ||| stateIndeterminate }
      | _ => { errors := deviceFailure } }

/-- The four outcomes of a batch. -/
def applyBatch (i : ℕ) (status : FieldStatus) (batch : BatchOutcome) (w : Engine σ) : Engine σ :=
  (List.range 4).foldl
    (fun w f =>
      applyOutcome c false i f (batchOutcome status batch ((w.slots i).execution.fields f)) w) w

/-- The identifiers of a plan's fields. -/
def planIds (p : ExecutionPlan) : List FieldId := (List.range p.count).map fun f => (p.fields f).id

/-- The status that a batch reports for its fields. -/
def batchStatus (batch : BatchOutcome) : FieldStatus :=
  match batch.status with
  | .executed => .executed
  | .failed => .failed
  | _ => .unknownEffect

/-- `backend.commit`. -/
def callCommit (commit : ExecutionPlan → Boundary → σ → Reply σ BatchOutcome)
    (now : OperationContext) (i : ℕ) (w : Engine σ) : BatchOutcome × Engine σ :=
  let s := w.slots i
  let w := w.emit (.dispatched
    { tx := s.sequence, batch := true, fields := planIds s.execution, cam := s.request.cam
      plan := s.execution, cancelled := s.cancelled, version := w.state.version
      armed := armed c w i, now })
  w.call (commit s.execution { s.execution.boundary with time := now.clock.time })

/-- The batch is one change of the state since the version `previous`, and one event. -/
def publishBatch (batch : BatchOutcome) (plan : ExecutionPlan) (previous i : ℕ) (w : Engine σ) :
    Engine σ :=
  if w.state.version ≠ previous then
    let w := { w with state := { w.state with version := (previous + 1) % 2 ^ 64 } }
    recordEvent c i
      { state := w.state, actualTime := batch.actualTime, sampleOrdinal := 0
        sourceOperation := plan.operation, associationGeneration := plan.associationGeneration
        changedMask := 0x72, timeKnown := batch.timeKnown, ordinalKnown := false
        outcome := (w.slots i).outcomes 0 } w
  else w

/-- `backend.commit` and what follows from it. -/
def commitBatch (commit : ExecutionPlan → Boundary → σ → Reply σ BatchOutcome)
    (now : OperationContext) (i : ℕ) (w : Engine σ) : Engine σ :=
  let plan := (w.slots i).execution
  let (batch, w) := callCommit c commit now i w
  let previous := w.state.version
  publishBatch c batch plan previous i (applyBatch c i (batchStatus batch) batch w)

/-! ## Fields -/

/-- A field that is not begun gets its outcome at once. -/
def skip (s : Slot) (field : ℕ) (o : FieldOutcome) : Slot :=
  { s with outcomes := Function.update s.outcomes field o, step := s.step + 1 }

/-- All fields that this one depends on were executed. -/
def dependenciesExecuted (s : Slot) (field : ℕ) : Bool :=
  ∀ d ∈ List.range s.execution.count,
    PlannedField.dependsOn (s.execution.fields field) d → (s.outcomes d).status = .executed

/-- A field whose dependencies were not executed is refused. -/
def blockField (i field : ℕ) (w : Engine σ) : Engine σ :=
  let s := w.slots i
  if dependenciesExecuted s field then w
  else
    let planned := s.execution.fields field
    let w := if planned.eligible then w.emit (.blocked s.sequence s.request.cam) else w
    w.setSlot i { s with execution := { s.execution with
      fields := Function.update s.execution.fields field
        (PlannedField.withdraw planned (dependencyBlocked ||| notExecuted)) } }

/-- The capability of a field of a slot. -/
def capability (i : ℕ) (s : Slot) (field : ℕ) : AsyncResult :=
  { publisher := (s.tokens field).getD {}, index := i * 4 + field }

/-- A field is running from now on. -/
def dispatchField (now : OperationContext) (i field : ℕ) (w : Engine σ) : Engine σ :=
  let s := w.slots i
  (w.setSlot i { s with running := true, runningField := field }).emit (.dispatched
    { tx := s.sequence, batch := false, fields := [(s.execution.fields field).id]
      cam := s.request.cam, plan := s.execution, cancelled := s.cancelled, version := w.state.version
      armed := armed c w i, now })

/-- A refused beginning is completed as failed. -/
def completeRefused (cap : AsyncResult) (id : FieldId) (begun : Bool) (w : Engine σ) : Engine σ :=
  if begun then w
  else w.setPort (w.env.port.complete cap
    { id, status := .failed, diagnostics := { errors := deviceFailure ||| notExecuted } }).2

/-- `backend.begin`. -/
def beginField (start : PlannedField → Boundary → AsyncResult → σ → Reply σ Bool)
    (now : OperationContext) (i field : ℕ) (w : Engine σ) : Engine σ :=
  let s := w.slots i
  let planned := s.execution.fields field
  let boundary := s.execution.boundary
  let boundary := if s.timeKnown then { boundary with time := now.clock.time } else boundary
  let cap := capability i s field
  let w := dispatchField c now i field w
  let w := w.setPort (w.env.port.hold cap)
  let (begun, w) := w.call (start planned boundary cap)
  let w := completeRefused cap planned.id begun w
  w.setPort (w.env.port.act (.drop cap))

/-- The loop over the fields; the number is how many steps of the plan are left. -/
def walk (now : OperationContext) (i : ℕ) : ℕ → Engine σ → Flow × Engine σ
  | 0, w => (.next, finish c i now w)
  | n + 1, w =>
    let s := w.slots i
    let field := s.execution.order s.step
    if s.cancelled field then
      walk now i n (w.setSlot i (skip s field
        { s.outcomes field with id := (s.execution.fields field).id, status := .cancelled
                                diagnostics := { (s.outcomes field).diagnostics with
                                  errors := notExecuted } }))
    else
      let w := blockField i field w
      let s := w.slots i
      let planned := s.execution.fields field
      if ¬planned.eligible then
        walk now i n (w.setSlot i (skip s field
          { id := planned.id, status := .notExecuted, diagnostics := planned.diagnostics }))
      else if s.action = 1 then
        match c.backend.simulate with
        | none => (.done (.ok ()), w)
        | some simulate =>
          let (outcome, w) := w.call (simulate planned s.hypothetical s.execution.boundary)
          walk now i n (applyOutcome c true i field outcome w)
      else if w.state.version > uint64Max - 4 then (.done (.error (failure .overflow)), w)
      else
        match c.backend.start with
        | none => (.done (.ok ()), w)
        | some start => (.done (.ok ()), beginField c start now i field w)

/-! ## Turns -/

/-- The settings of a radio are not committed. -/
def withdrawFour (s : Slot) : Slot :=
  { s with execution := { s.execution with
      fields := fun f => if f < 4 then
          { s.execution.fields f with
            eligible := false, diagnostics := markNotExecuted (s.execution.fields f).diagnostics }
        else s.execution.fields f } }

/-- The fields are executed: a radio's settings together, others in order. -/
def carryOut (now : OperationContext) (i : ℕ) (w : Engine σ) : Flow × Engine σ :=
  let s := w.slots i
  if c.profile = .sdrRadio ∧ s.execution.count = 4 ∧ s.action = 2 then
    match c.backend.commit, recheck c now i w with
    | some commit, (true, w) => (.next, finish c i now (commitBatch c commit now i w))
    | _, (_, w) =>
      let s := withdrawFour (w.slots i)
      walk c now i (s.execution.count - s.step) (w.setSlot i s)
  else walk c now i (s.execution.count - s.step) w

/-- The sample rate is checked against the timeline before the fields are executed. -/
def attempt (now : OperationContext) (i : ℕ) (w : Engine σ) : Flow × Engine σ :=
  carryOut c now i (w.setSlot i (validateBoundaryState c w.timeline (w.slots i)))

/-- The rest of a turn after the validation. -/
def execute (now : OperationContext) (i : ℕ) (w : Engine σ) : Flow × Engine σ :=
  let s := w.slots i
  if scheduled s then
    let s := reschedule c now s
    if waits now s then
      (.next, { w.setSlot i s with effectOwner := none }.emit (.deferred s.sequence))
    else attempt c now i (w.setSlot i (checkWindow now s))
  else attempt c now i w

/-- A quiescing engine cancels what is still pending. -/
def cancelPending (i : ℕ) (w : Engine σ) : Engine σ :=
  let s := w.slots i
  let errors := notExecuted ||| if s.request.cam.timing ≠ 0 then timingError else 0
  w.setSlot i
    { s with
      outcomes := fun f =>
        if f < s.execution.count ∧ (s.outcomes f).status = .pending then
          { s.outcomes f with id := (s.execution.fields f).id, status := .cancelled
                              diagnostics := { (s.outcomes f).diagnostics with errors } }
        else s.outcomes f
      step := s.execution.count }

/-- The turn of a slot. -/
def turn (now : OperationContext) (running : Bool) (i : ℕ) (w : Engine σ) : Flow × Engine σ :=
  let s := w.slots i
  if ¬s.live then (.next, w)
  else if w.quiescing ∧ ¬s.running then (.next, finish c i now (cancelPending i w))
  else if running ∧ s.action ≠ 0 then (.next, w)
  else if s.action = 2 ∧ w.effectOwner ≠ some i then (.next, w)
  else if s.action = 0 then (.next, finish c i now w)
  else execute c now i (revalidate c now i w)

def turns (now : OperationContext) (running : Bool) : List ℕ → Engine σ → Result Unit × Engine σ
  | [], w => (.ok (), w)
  | i :: rest, w =>
    match turn c now running i w with
    | (.next, w) => turns now running rest w
    | (.done result, w) => (result, w)

/-! ## The lane -/

/-- The best candidate for the lane so far: its slot, boundary and sequence. -/
structure Candidate where
  slot : ℕ
  boundary : ProtocolTime
  sequence : ℕ

/-- One slot in the search for the owner of the lane. -/
def considerOwner (now : OperationContext) (w : Engine σ) (best : Option Candidate) (i : ℕ) :
    Option Candidate :=
  let s := w.slots i
  if ¬s.live ∨ s.action ≠ 2 then best
  else
    let boundary := if scheduled s then s.execution.boundary.time else now.clock.time
    if scheduled s ∧ s.scheduleValid ∧ now.clock.usable ∧ now.clock.time.before boundary then best
    else
      let mine : Candidate := { slot := i, boundary, sequence := s.sequence }
      match best with
      | none => some mine
      | some b =>
        if boundary.before b.boundary ∨ boundary = b.boundary ∧ s.sequence < b.sequence then some mine
        else some b

/-- The lane is given to the earliest transaction that is due. -/
def chooseOwner (now : OperationContext) (w : Engine σ) : Engine σ :=
  match w.effectOwner with
  | some _ => w
  | none =>
    { w with effectOwner :=
      ((List.range c.transactions).foldl (considerOwner now w) none).map Candidate.slot }

def anyRunning (w : Engine σ) : Bool :=
  ∃ i ∈ List.range c.transactions, (w.slots i).active ∧ (w.slots i).running

def progress (now : OperationContext) (w : Engine σ) : Result Unit × Engine σ :=
  let w := scan c (observeBackendFaults c w)
  let running := anyRunning c w
  turns c now running (List.range c.transactions) (chooseOwner c now w)

end Vita.Transaction.Engine
