import Vita.Transaction.Admission
import Vita.Transaction.Completion
import Vita.Transaction.Request

/-!
# Plans (`Engine::validate_plan`, `Engine::validate_boundary_state`)

A backend is a set of optional callbacks over a state of its own. A callback may, besides returning a
value and changing that state, act on the capabilities the backend holds.

`validatePlan` checks every field of a request, orders the fields so that each follows the fields it
depends on, and decides which of them are eligible. A dependency cycle is found while the order is
being written, so the order in the plan is then partly the old and partly the new one.
-/

namespace Vita.Transaction

open Checked Timing State

/-! ## Backends and options -/

/-- What a callback returns: its value, the next state of its context, and what it did with the
capabilities it holds. -/
structure Reply (σ α : Type) where
  value : α
  next : σ
  actions : List Port.Action := []

/-- The state of the callbacks and the completion port they share with the engine. -/
structure Env (σ : Type) where
  ext : σ
  port : Port := {}

/-- A callback runs. -/
def Env.call {σ α : Type} (e : Env σ) (f : σ → Reply σ α) : α × Env σ :=
  let r := f e.ext
  (r.value, { ext := r.next, port := e.port.actAll r.actions })

inductive DisarmResult where
  | cancelled | notCancelled | unknownEffect
deriving DecidableEq

structure BackendQuiescence where
  known : Bool := false
  quiescent : Bool := false
  pending : ℕ := 0

structure BatchOutcome where
  status : FieldStatus := .failed
  actualTime : ProtocolTime := {}
  timeKnown : Bool := false
  uncertaintyPs : ℕ := 0

structure Backend (σ : Type) where
  validate : Option (FieldId → SemanticValue → StateSnapshot → σ → Reply σ Validation) := none
  validatePlan : Option (ExecutionPlan → StateSnapshot → σ → Reply σ Bool) := none
  start : Option (PlannedField → Boundary → AsyncResult → σ → Reply σ Bool) := none
  simulate : Option (PlannedField → StateSnapshot → Boundary → σ → Reply σ FieldOutcome) := none
  disarm : Option (AsyncResult → σ → Reply σ DisarmResult) := none
  quiescence : Option (σ → Reply σ BackendQuiescence) := none
  commit : Option (ExecutionPlan → Boundary → σ → Reply σ BatchOutcome) := none

/-- `OperationContext`, without the members that only traces read. -/
structure OperationContext where
  operation : ℕ := 0
  associationGeneration : ℕ := 1
  clock : ClockSnapshot := {}
  boundaries : List Boundary := []
  timing : TimingCapabilities := {}
  dataRunning : Bool := false

/-- `EffectSink`: revisions are reserved at admission and recorded with their credits; a reservation
is given back by `release`. -/
structure EffectSink (σ : Type) where
  reserve : Option (ℕ → σ → Reply σ (Result ℕ)) := none
  record : Option (EffectiveEvent → Option ℕ → AdmissionBundle → σ → Reply σ (Option ℕ)) := none
  release : ℕ → σ → Reply σ Unit := fun _ s => { value := (), next := s }

/-- The engine's template parameter, its backend and its options. -/
structure Config (σ : Type) where
  transactions : ℕ
  backend : Backend σ := {}
  profile : Profile := .iqGeneratorV1
  effects : EffectSink σ := {}
  externalRetention : Bool := false
  observe : Option (StateSnapshot → OperationContext → σ → Reply σ StateSnapshot) := none
  traceValid : Bool := true
  sdrCapabilities : Option SdrCapabilities := none
  /-- `sizeof(PlanningStorage)`. -/
  planBytes : ℕ := 8192

/-! ## Transaction slots -/

/-- A slot: the planning storage and the record of a transaction, and its credits. -/
structure Slot where
  request : Request := {}
  execution : ExecutionPlan := {}
  outcomes : ℕ → FieldOutcome := fun _ => {}
  tokens : ℕ → Token := fun _ => none
  ticketOperations : ℕ → ℕ := fun _ => 0
  timing : TimingCapabilities := {}
  requestedTime : ProtocolTime := {}
  timeKnown : Bool := false
  dataRunning : Bool := false
  scheduleValid : Bool := true
  cancelled : ℕ → Bool := fun _ => false
  revisions : Option ℕ := none
  active : Bool := false
  complete : Bool := false
  revalidated : Bool := false
  running : Bool := false
  generation : ℕ := 1
  sequence : ℕ := 0
  step : ℕ := 0
  runningField : ℕ := 0
  responseRead : ℕ := 0
  responses : List AckRecord := []
  hypothetical : StateSnapshot := {}
  credits : AdmissionBundle := none

namespace Slot

def action (s : Slot) : ℕ := s.request.cam.action

/-- The field may be executed. -/
def eligible (s : Slot) (f : ℕ) : Bool := (s.execution.fields f).eligible

/-- An admitted transaction that is not complete. -/
def live (s : Slot) : Bool := s.active ∧ ¬s.complete

/-- A radio start that is going to be executed. -/
def armedStart (s : Slot) : Bool :=
  s.live ∧ s.action = 2 ∧ s.request.isOnly Field.discreteIO32 3 ∧ s.eligible 0 ∧ ¬s.cancelled 0

end Slot

/-! ## Fields of a plan -/

namespace PlannedField

def dependsOn (f : PlannedField) (j : ℕ) : Bool := f.dependencyMask.getLsbD j

def withdraw (f : PlannedField) (errors : UInt32) : PlannedField :=
  { f with eligible := false, diagnostics := addErrors f.diagnostics errors }

end PlannedField

/-- A loop over the fields of a plan. -/
def mapFields (p : ExecutionPlan) (g : ℕ → PlannedField → PlannedField) : ExecutionPlan :=
  { p with fields := fun i => if i < p.count then g i (p.fields i) else p.fields i }

/-- No field may be executed any more. -/
def withdrawAll (p : ExecutionPlan) (errors : UInt32) : ExecutionPlan :=
  mapFields p fun _ f => PlannedField.withdraw f errors

/-- A field with a dependency that is not eligible is not eligible. -/
def propagateStep (errors : UInt32) (count : ℕ) (fields : ℕ → PlannedField) (f : ℕ) :
    ℕ → PlannedField :=
  if ∃ d ∈ List.range count, PlannedField.dependsOn (fields f) d ∧ ¬(fields d).eligible then
    Function.update fields f (PlannedField.withdraw (fields f) errors)
  else fields

/-- Dependencies are followed in the order of the plan. -/
def propagate (p : ExecutionPlan) (errors : UInt32) : ExecutionPlan :=
  { p with fields := ((List.range p.count).map p.order).foldl (propagateStep errors p.count) p.fields }

/-- Every position of the order has an eligible field. -/
def allEligible (p : ExecutionPlan) : Bool := ∀ i ∈ List.range p.count, (p.fields (p.order i)).eligible

/-- The next field of the order: the first one not placed whose dependencies are all placed. -/
def nextField (fields : ℕ → PlannedField) (count : ℕ) (visited : BitVec 8) : Option ℕ :=
  (List.range count).find? fun i =>
    ¬visited.getLsbD i ∧ (fields i).dependencyMask &&& ~~~visited = 0

/-- The stable topological order, from `position` on. On a cycle the positions written so far remain. -/
def sortFields (fields : ℕ → PlannedField) (count : ℕ) :
    ℕ → ℕ → BitVec 8 → (ℕ → ℕ) → Bool × (ℕ → ℕ)
  | 0, _, _, order => (true, order)
  | n + 1, position, visited, order =>
    match nextField fields count visited with
    | none => (false, order)
    | some i =>
      sortFields fields count n (position + 1) (visited ||| BitVec.ofNat 8 (2 ^ i))
        (Function.update order position i)

/-! ## Validation -/

section Validation

variable {σ : Type} (c : Config σ)

/-- The check of a value by the profile. -/
def profileValidate (id : FieldId) (value : SemanticValue) : Validation :=
  match c.profile with
  | .iqGeneratorV1 => iqValidate id value
  | .iqFrequencyTunable => tunableValidate id value
  | .sdrRadio => sdrValidate id value
  | .genericVirtualTest => { adjusted := value }

/-- The device's capabilities refuse a requested value. -/
def checkCapabilities (f : RequestField) (v : Validation) : Validation :=
  match c.sdrCapabilities with
  | some capabilities =>
    if v.resolvable ∧ c.profile = .sdrRadio ∧ ¬capabilities.accepts f.id f.value then
      v.refuse rangeError
    else v
  | none => v

/-- The backend's own check, whose findings are added. -/
def backendValidate (state : StateSnapshot) (f : RequestField) (v : Validation) (e : Env σ) :
    Validation × Env σ :=
  match c.backend.validate with
  | none => (v, e)
  | some validate =>
    if v.resolvable then
      let (extra, e) := e.call (validate f.id v.adjusted state)
      let extra := if c.profile = .sdrRadio ∧ extra.adjusted ≠ v.adjusted then extra.refuse precision
        else extra
      ({ adjusted := extra.adjusted
         diagnostics := { warnings := v.diagnostics.warnings ||| extra.diagnostics.warnings
                          errors := v.diagnostics.errors ||| extra.diagnostics.errors }
         resolvable := extra.resolvable
         dependencies := extra.dependencies }, e)
    else (v, e)

/-- The adjusted value is a value of the field and of the profile. -/
def nativeValid (id : FieldId) (value : SemanticValue) : Bool :=
  validateValue id value true = .ok () ∧
    (c.profile = .iqFrequencyTunable → (tunableValidate id value).resolvable) ∧
    (c.profile = .sdrRadio → (sdrValidate id value).resolvable)

/-- A field on its own. -/
def validateField (state : StateSnapshot) (action : ℕ) (f : RequestField) (e : Env σ) :
    Validation × Env σ :=
  let v : Validation := { adjusted := f.value }
  if f.unsupportedAttributes ∨ c.profile = .sdrRadio ∧ ¬sdrCapabilityField f.id ∧
      f.id ≠ Field.discreteIO32 then
    (v.refuse unsupported, e)
  else if action ≠ 0 then
    let v := checkCapabilities c f (profileValidate c f.id f.value)
    let (v, e) := backendValidate c state f v e
    (if v.resolvable ∧ ¬nativeValid c f.id v.adjusted then v.refuse invalidValue else v, e)
  else (v, e)

/-- All four settings of a radio are requested together. -/
def sdrConfiguration (r : Request) : Bool :=
  r.count = 4 ∧ r.has Field.sampleRate ∧ r.has Field.rfReferenceFrequency ∧ r.has Field.bandwidth ∧
    r.has Field.gain

/-- A radio takes all its settings, or one start or stop; settings neither while data is running nor
while a start is armed. -/
def incompleteSdr (s : Slot) (armed : Bool) : Bool :=
  let r := s.request
  c.profile = .sdrRadio ∧ r.cam.action ≠ 0 ∧
    (¬(sdrConfiguration r ∨ r.count = 1 ∧ r.has Field.discreteIO32) ∨
      sdrConfiguration r ∧ (s.dataRunning ∨ armed))

/-- A start needs settings and a scheduled time, a stop is immediate. -/
def badLifecycle (s : Slot) (state : StateSnapshot) (armed : Bool) (f : RequestField) : Bool :=
  let configured := state.knows 1 ∧ state.knows 4 ∧ state.knows 5 ∧ state.knows 6
  match asWord f.value with
  | none => true
  | some w =>
    if w = 3 then s.dataRunning ∨ armed ∨ ¬configured ∨ s.request.cam.timing ≠ 1
    else s.request.cam.timing ≠ 0

/-- A check that refuses a validation. -/
def refuseIf (condition : Bool) (errors : UInt32) (v : Validation) : Validation :=
  if condition then v.refuse errors else v

/-- The checks of a field that look at the whole request. -/
def checkRequest (s : Slot) (state : StateSnapshot) (armed : Bool) (f : RequestField)
    (v : Validation) : Validation :=
  let r := s.request
  let sdr : Bool := c.profile = .sdrRadio
  let rate := r.hertz Field.sampleRate
  let bandwidth := r.hertz Field.bandwidth
  let tooWide : Bool := ∃ q ∈ rate, ∃ b ∈ bandwidth, b > q
  let notSupported : Bool := ∃ q ∈ rate, ∃ b ∈ bandwidth, ∃ k ∈ c.sdrCapabilities, ¬k.supports b q
  let v := refuseIf (c.profile = .iqFrequencyTunable ∧ r.cam.action ≠ 0 ∧ r.has Field.sampleRate ∧
    r.has Field.rfReferenceFrequency) unsupported v
  let v := refuseIf (sdr ∧ r.cam.action ≠ 0 ∧ r.cam.partialAllowed) unsupported v
  let v := refuseIf (sdr ∧ sdrConfiguration r ∧ r.cam.action = 2 ∧ c.backend.commit.isNone)
    unsupported v
  let v := refuseIf (incompleteSdr c s armed) unsupported v
  let v := refuseIf (sdr ∧ r.cam.action ≠ 0 ∧ f.id = Field.discreteIO32 ∧
    badLifecycle s state armed f) timingError v
  let v := refuseIf (tooWide ∧ f.id = Field.bandwidth) rangeError v
  refuseIf (sdr ∧ sdrConfiguration r ∧ notSupported ∧ f.id = Field.bandwidth) rangeError v

/-- The validation depends on the `j`-th requested field. -/
def requestDepends (r : Request) (v : Validation) (j : ℕ) : Bool :=
  ∃ t ∈ List.finRange 8, v.dependencies.getLsbD t ∧ (r.field j).id = stateField t

/-- A dependency is neither requested nor known. -/
def missingDependency (r : Request) (v : Validation) (state : StateSnapshot) : Bool :=
  ∃ t ∈ List.finRange 8, v.dependencies.getLsbD t ∧ ¬r.has (stateField t) ∧ ¬state.knows t

/-- The planned field of a validation. -/
def plannedField (s : Slot) (state : StateSnapshot) (f : RequestField) (v : Validation) :
    PlannedField :=
  let planned : PlannedField :=
    { id := f.id, requested := f.value, adjusted := v.adjusted
      dependencyMask := (List.range s.request.count).foldl
        (fun m j => if requestDepends s.request v j then m ||| BitVec.ofNat 8 (2 ^ j) else m) 0
      eligible := Transaction.eligible s.request.cam v.diagnostics v.resolvable
      diagnostics := v.diagnostics, timeKnown := s.timeKnown, ordinalKnown := s.dataRunning }
  if missingDependency s.request v state then PlannedField.withdraw planned dependencyBlocked
  else planned

/-- The loop over the fields of the request. -/
def validateFields (s : Slot) (state : StateSnapshot) (armed : Bool) :
    List RequestField → Env σ → List PlannedField × Env σ
  | [], e => ([], e)
  | f :: rest, e =>
    let (v, e) := validateField c state s.action f e
    let (planned, e) := validateFields s state armed rest e
    (plannedField s state f (checkRequest c s state armed f v) :: planned, e)

/-- The backend's check of the whole plan. -/
def validateWhole (s : Slot) (p : ExecutionPlan) (state : StateSnapshot) (e : Env σ) :
    Bool × Env σ :=
  match c.backend.validatePlan with
  | none => (true, e)
  | some validate => if s.action ≠ 0 then e.call (validate p state) else (true, e)

/-- Without partial execution one field that is not eligible blocks all. -/
def blocksAll (s : Slot) (all : Bool) : Bool :=
  (¬s.request.cam.partialAllowed ∨ c.profile = .sdrRadio) ∧ ¬all

/-- `validate_plan`, with whether an order was found. -/
def validatePlan (s : Slot) (state : StateSnapshot) (armed : Bool) (e : Env σ) :
    Bool × Slot × Env σ :=
  let (planned, e) := validateFields c s state armed s.request.fields e
  let p : ExecutionPlan :=
    { s.execution with
      count := s.request.count, expectedStateVersion := state.version
      fields := fun i => if i < s.request.count then planned.getD i {} else s.execution.fields i }
  match sortFields p.fields p.count p.count 0 0 p.order with
  | (false, order) => (false, { s with execution := { p with order } }, e)
  | (true, order) =>
    let p := propagate { p with order } dependencyBlocked
    let all := allEligible p
    let (whole, e) := validateWhole c s p state e
    let p := if whole then p
      else { p with fields := fun i => PlannedField.withdraw (p.fields i) invalidValue }
    let p := if blocksAll c s (all && whole) then mapFields p fun _ f => { f with eligible := false }
      else p
    let p := mapFields p fun _ f =>
      if f.eligible then f else { f with diagnostics := markNotExecuted f.diagnostics }
    (true, { s with execution := p }, e)

/-- The sample rate of a field can be set at the boundary of the plan. -/
def boundaryValid (s : Slot) (timeline : SampleTimeline) (f : PlannedField) : Bool :=
  let q := (asHertz f.adjusted).getD 0
  let boundary := s.execution.boundary
  let rateValid (t : SampleTimeline) : Bool :=
    q > 0 ∧ q % hertzUnit = 0 ∧ (t.changeRate (q / hertzUnit).toNat).isOk
  if s.dataRunning then
    if boundary.sampleOrdinal < timeline.ordinal ∨ boundary.committed then false
    else match timeline.advance (boundary.sampleOrdinal - timeline.ordinal) with
      | .error _ => false
      | .ok t => t.time = boundary.time ∧ rateValid t
  else rateValid timeline

/-- `validate_boundary_state`. -/
def validateBoundaryState (timeline : Option SampleTimeline) (s : Slot) : Slot :=
  match timeline with
  | none => s
  | some timeline =>
    if s.action = 0 then s
    else
      let p := mapFields s.execution fun _ f =>
        if f.eligible ∧ f.id = Field.sampleRate ∧ ¬boundaryValid s timeline f then
          PlannedField.withdraw f (resourceExhausted ||| notExecuted)
        else f
      let p := propagate p (dependencyBlocked ||| notExecuted)
      let p := if blocksAll c s (allEligible p) then
          mapFields p fun _ f =>
            { f with eligible := false, diagnostics := markNotExecuted f.diagnostics }
        else p
      { s with execution := p }

end Validation

end Vita.Transaction
