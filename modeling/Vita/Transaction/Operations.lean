import Vita.Transaction.Progress

/-!
# Admission, cancellation and shutdown (`transaction/engine.hpp`, `transaction/cancellation.hpp`)

The other calls of the engine, and `Engine.step`: one call, or something that happens outside of the
engine (a backend acts on its capabilities, others use the admission pool, the sample timeline moves).
-/

namespace Vita.Transaction.Engine

open Checked Timing State Codec

variable {σ : Type} (c : Config σ)

/-! ## Admission -/

/-- The checks of `accept` before a slot is sought. -/
def admissible (packet : PacketView) (now : OperationContext) (w : Engine σ) : Result Request := do
  rejectIf (validateSnapshot w.state ≠ .ok () ∨
    ¬(c.profile = .iqFrequencyTunable ↔ w.state.profile = .frequencyTunable))
    (failure .invalidArgument)
  rejectIf (¬c.traceValid) (failure .invalidArgument)
  rejectIf w.quiescing (failure .invalidState)
  rejectIf (now.associationGeneration = 0 ∨ c.effects.reserve.isSome ≠ c.effects.record.isSome)
    (failure .invalidState)
  rejectIf (w.associationGeneration ≠ 0 ∧ w.associationGeneration ≠ now.associationGeneration)
    (failure .invalidState)
  let request ← requestFrom packet c.profile
  rejectIf (request.cam.action = 2 ∧ c.backend.start.isNone ∨
    request.cam.action = 1 ∧ c.backend.simulate.isNone) (failure .unsupportedCapability)
  rejectIf (w.faulted ∧ request.cam.action = 2) (failure .invalidState)
  rejectIf (request.cam.timing ≠ 0 ∧ (request.envelope.timestamp.tsf ≠ .picoseconds ∨
    request.envelope.timestamp.tsi ≠ epochTsi now.clock.epoch)) (failure .unsupportedCapability)
  return request

/-- A capability of the slot's last transaction is still held, or a contradiction is not taken in. -/
def pinned (w : Engine σ) (i : ℕ) : Bool :=
  ∃ f ∈ List.range 4,
    let guard := (w.env.port.results (i * 4 + f)).guard
    w.env.port.holders (i * 4 + f) ≠ 0 ∨ guard.cancelled ∧ guard.contradiction

def freeSlot (w : Engine σ) : Option ℕ :=
  (List.range c.transactions).find? fun i =>
    ¬(w.slots i).active ∧ (w.slots i).generation ≠ uint64Max ∧ ¬pinned w i

/-- The credits of an admission. -/
def admissionCredits (r : Request) : AdmissionRequest :=
  let effects : Bool := r.cam.action = 2
  ((((((((AdmissionRequest.none.need .transaction 1).need .planBytes c.planBytes).need .completion 4).need
    .response 3).need .ordinaryQueue 1).needIf (!c.externalRetention) .duplicateEntry 1).needIf
    (!c.externalRetention) .duplicateBytes 2048).needIf effects .revision r.count).needIf effects
    .contextPublication r.count |>.needIf (effects ∧ r.cam.timing ≠ 0) .schedule 1

/-- The slot with empty planning storage. A slot without a transaction has neither tokens nor a
reservation of revisions to give back. -/
def clearedSlot (s : Slot) (state : StateSnapshot) : Slot :=
  { active := s.active, generation := s.generation, sequence := s.sequence
    runningField := s.runningField, credits := s.credits, hypothetical := state }

/-- The slot of a new transaction before its plan is validated. -/
def newSlot (s : Slot) (r : Request) (revisions : Option ℕ) (now : OperationContext) : Slot :=
  { s with
    request := r, revisions
    execution := { operation := now.operation, associationGeneration := now.associationGeneration }
    timing := now.timing, dataRunning := now.dataRunning ∧ ¬immediateStop c r
    timeKnown := now.clock.usable
    requestedTime := { seconds := r.envelope.timestamp.integer.toNat
                       picoseconds := r.envelope.timestamp.fractional.toNat } }

/-- The schedule of an admission is not possible. -/
def refuseSchedule (s : Slot) : Slot :=
  { s with scheduleValid := false
           execution := withdrawAll s.execution (timingError ||| notExecuted) }

/-- The boundary of a new transaction. -/
def chooseFirst (now : OperationContext) (s : Slot) : Slot :=
  let s := setBoundary s { time := now.clock.time, mappingGeneration := now.clock.mappingGeneration }
  if s.action ≠ 0 ∧ scheduled s then
    match chooseBoundary s.request.cam.timing s.requestedTime now.clock (candidates c now s)
      now.timing with
    | .ok boundary => setBoundary s boundary
    | .error _ => refuseSchedule s
  else s

/-- A timed command to a radio is between 20 ms and 10 s ahead. -/
def checkAhead (now : OperationContext) (s : Slot) : Slot :=
  if c.profile = .sdrRadio ∧ s.action ≠ 0 ∧ s.request.cam.timing ≠ 0 then
    match add now.clock.time { picoseconds := 20000000000 }, add now.clock.time { seconds := 10 } with
    | .ok earliest, .ok latest =>
      if s.requestedTime.before earliest ∨ latest.before s.requestedTime then refuseSchedule s else s
    | _, _ => refuseSchedule s
  else s

/-- A stop cancels the radio starts that have not begun. -/
def disarmStarts (i : ℕ) (s : Slot) (w : Engine σ) : Engine σ :=
  if c.profile = .sdrRadio ∧ s.action = 2 ∧ s.request.isOnly Field.discreteIO32 2 ∧ s.eligible 0 then
    { w with slots := fun j =>
      let other := w.slots j
      if j < c.transactions ∧ j ≠ i ∧ other.live ∧ ¬other.running ∧
          other.request.isOnly Field.discreteIO32 3 then
        { other with cancelled := Function.update other.cancelled 0 true, scheduleValid := false }
      else other }
  else w

/-- The ticket of one field. -/
def reserveTicket (i f : ℕ) (now : OperationContext) (w : Engine σ) : Result Unit × Engine σ :=
  let operation := w.nextTicketOperation
  let w := { w with nextTicketOperation := operation + 1 }
  match w.env.port.reserve (c.transactions * 4) operation with
  | .error e => (.error e, w)
  | .ok (publisher, port) =>
    let s := w.slots i
    let field := if f < s.execution.count then (s.execution.fields f).id else ⟨0, 0⟩
    let port := port.setResult (i * 4 + f) fun r =>
      { r with busy := true, generation := s.generation
               guard := { associationGeneration := now.associationGeneration, field } }
    (.ok (), (w.setPort port).setSlot i
      { s with tokens := Function.update s.tokens f (some publisher)
               ticketOperations := Function.update s.ticketOperations f operation })

/-- The tickets of all fields, up to the first that cannot be reserved. -/
def reserveTickets (i : ℕ) (now : OperationContext) : List ℕ → Engine σ → Result Unit × Engine σ
  | [], w => (.ok (), w)
  | f :: rest, w =>
    match reserveTicket c i f now w with
    | (.error e, w) => (.error e, w)
    | (.ok _, w) => reserveTickets i now rest w

/-- The tokens of a slot are given up. -/
def dropTokens (i : ℕ) (w : Engine σ) : Engine σ :=
  let s := w.slots i
  (w.setPort ((List.range 4).foldl
    (fun p f => p.dropToken (c.transactions * 4) (s.tokens f)) w.env.port)).setSlot i
      { s with tokens := fun _ => none }

/-- An admission that fails after its credits were acquired. -/
def abandonAdmission (i : ℕ) (credits : AdmissionBundle) (w : Engine σ) : Engine σ :=
  let s := w.slots i
  let w := w.setSlot i { s with revisions := none }
  let w := releaseRevisions c w s.revisions
  { w with pool := w.pool.reset credits }

/-- The transaction is admitted. -/
def activate (i : ℕ) (credits : AdmissionBundle) (now : OperationContext) (w : Engine σ) : Engine σ :=
  let s := w.slots i
  let w := { w.setSlot i { s with credits, active := true, sequence := w.nextSequence } with
    associationGeneration := now.associationGeneration, nextSequence := w.nextSequence + 1 }
  queueAck c i .validation w.state now (w.emit (.admitted (w.slots i).sequence s.request now))

/-- The reservation of revisions of an admission. -/
def reserveRevisions (r : Request) (w : Engine σ) : Result (Option ℕ) × Engine σ :=
  match c.effects.reserve with
  | none => (.ok none, w)
  | some reserve =>
    if r.cam.action = 2 ∧ r.count ≠ 0 then
      match w.call (reserve r.count) with
      | (.ok token, w) => (.ok (some token), w)
      | (.error e, w) => (.error e, w)
    else (.ok none, w)

/-- An admission into a slot, with its credits. -/
def admitRequest (i : ℕ) (r : Request) (credits : AdmissionBundle) (now : OperationContext) (w : Engine σ) :
    Result Handle × Engine σ :=
  match reserveRevisions c r (w.setSlot i (clearedSlot (w.slots i) w.state)) with
  | (.error e, w) => (.error e, abandonAdmission c i credits w)
  | (.ok revisions, w) =>
    match validatePlan c (newSlot c (w.slots i) r revisions now) w.state (armed c w i) w.env with
    | (false, s, env) =>
      (.error (failure .invalidArgument), abandonAdmission c i credits { w.setSlot i s with env })
    | (true, s, env) =>
      let s := checkAhead c now (chooseFirst c now s)
      let w := disarmStarts c i s { w with env }
      let w := w.setSlot i (validateBoundaryState c w.timeline s)
      match reserveTickets c i now (List.range 4) w with
      | (.error e, w) => (.error e, abandonAdmission c i credits (dropTokens c i w))
      | (.ok _, w) =>
        (.ok { slot := i, generation := (w.slots i).generation }, activate c i credits now w)

def accept (packet : PacketView) (now : OperationContext) (w : Engine σ) : Result Handle × Engine σ :=
  let w := observeBackendFaults c w
  match admissible c packet now w with
  | .error e => (.error e, w)
  | .ok r =>
    let index := freeSlot c w
    let w := observeBackendFaults c w
    if w.faulted ∧ r.cam.action = 2 then (.error (failure .invalidState), w)
    else match index with
      | none => (.error (failure .capacityExhausted), w)
      | some i =>
        if w.state.version > uint64Max - 4 ∨ w.nextTicketOperation > uint64Max - 4 ∨
            w.nextSequence = uint64Max then
          (.error (failure .overflow), w)
        else match w.pool.acquire (admissionCredits c r) with
          | .error e => (.error e, w)
          | .ok (credits, pool) => admitRequest c i r credits now { w with pool }

/-! ## Disarming -/

/-- `backend.disarm`. -/
def callDisarm (i : ℕ) (cap : AsyncResult) (w : Engine σ) : DisarmResult × Engine σ :=
  match c.backend.disarm with
  | none => (.notCancelled, w)
  | some disarm => (w.emit (.disarmed (w.slots i).sequence)).call (disarm cap)

/-- The engine's own completion of a ticket after its field was disarmed, with whether the field is
now cancelled. -/
def completeDisarmed (cap : AsyncResult) (id : FieldId) (timing : UInt32) (disarmed : DisarmResult)
    (w : Engine σ) : Bool × Engine σ :=
  match disarmed with
  | .cancelled =>
    let port := w.env.port.setGuard cap.index fun g => { g with cancelled := true }
    match port.complete cap
      { id, status := .cancelled, diagnostics := { errors := notExecuted ||| timing } } with
    | (true, port) => (true, w.setPort port)
    | (false, port) =>
      (false, { w.setPort (port.setGuard cap.index fun g => { g with contradiction := true }) with
        faulted := true })
  | .unknownEffect =>
    (false, w.setPort (w.env.port.complete cap
      { unknownOutcome id with
        diagnostics := { errors := deviceFailure ||| stateIndeterminate ||| timing } }).2)
  | .notCancelled => (false, w)

/-- A running field is disarmed. Returns whether it is now cancelled. -/
def disarmField (i field : ℕ) (id : FieldId) (timing : UInt32) (w : Engine σ) :
    DisarmResult × Bool × Engine σ :=
  let cap := capability i (w.slots i) field
  let (disarmed, w) := callDisarm c i cap (w.setPort (w.env.port.hold cap))
  let (done, w) := completeDisarmed cap id timing disarmed w
  (disarmed, done, w.setPort (w.env.port.act (.drop cap)))

/-! ## Cancellation -/

structure CancellationResult where
  responses : List AckRecord := []
  cancelled : Fin 8 → Bool := fun _ => false
  credits : AdmissionBundle := none

def sameIdentifier (a b : Identifier) : Bool :=
  a.kind = b.kind ∧ ∀ i ∈ List.finRange 4, i.val < a.sizeWords → a.words i = b.words i

def sameClass (a b : Option ClassId) : Bool :=
  match a, b with
  | none, none => true
  | some a, some b => a.oui = b.oui ∧ a.informationClass = b.informationClass ∧
      a.packetClass = b.packetClass
  | _, _ => false

/-- `cancellation_response`. -/
def cancellationResponse (packet : PacketView) (cam : UInt32) (state : StateSnapshot)
    (clock : ClockSnapshot) (selected cancelled : Fin 8 → Bool) (diagnostics : Fin 8 → Diagnostics)
    (credits : AdmissionBundle) (timing : ℕ) : CancellationResult :=
  let count := (List.finRange 8).countP selected
  let success := (List.finRange 8).countP cancelled
  let ack : AckRecord :=
    { request := packet.envelope.envelope, cancellation := true
      cam := { raw := cam, action := 2, partialAllowed := true, nack := Words.bit cam 22
               detailWarning := Words.bit cam 17, detailError := Words.bit cam 16
               requestX := Words.bit cam 19, requestS := Words.bit cam 18 }
      kind := .execution, diagnostics, state, timing, partialResult := success ≠ count
      scheduledOrExecuted := success ≠ 0, timeKnown := clock.usable, time := clock.time
      epoch := epochTsi clock.epoch }
  let known (i : Fin 8) : Bool := selected i ∧ state.knows i
  let found := (List.finRange 8).countP known
  { cancelled, credits
    responses :=
      (if ack.cam.requestX ∧ (¬ack.cam.nack ∨ ack.summary.warnings ≠ 0 ∨ ack.summary.errors ≠ 0) then
        [ack] else []) ++
      if ack.cam.requestS then
        [{ ack with kind := .state, diagnostics := fun _ => {}, selectedMask := known
                    partialResult := found ≠ count, scheduledOrExecuted := found ≠ 0 }]
      else [] }

/-- The fields a cancellation selects. -/
def selectedFields (views : List FieldView) : Result (Fin 8 → Bool) :=
  views.foldlM
    (fun selected view => do
      rejectIf (view.kind ≠ .selectors ∨ view.attr ≠ .current) (failure .unsupportedCapability)
      match fieldIndex view.id with
      | none => throw (failure .unsupportedCapability)
      | some i => return Function.update selected i true)
    (fun _ => false)

/-- The last field of the plan with an identifier. -/
def planField (s : Slot) (id : FieldId) : Option ℕ :=
  (List.range s.execution.count).reverse.find? fun f => (s.execution.fields f).id = id

/-- The checks of `cancel` before its credits, with the mask of the command. -/
def cancellable (handle : Handle) (packet : PacketView) (now : OperationContext) (w : Engine σ) :
    Result (UInt32 × (Fin 8 → Bool)) := do
  let s := w.slots handle.slot
  let e := packet.envelope.envelope
  rejectIf (handle.slot ≥ c.transactions) (failure .invalidArgument)
  rejectIf (¬s.active ∨ s.generation ≠ handle.generation) (failure .staleGeneration)
  match e.command, s.request.envelope.command with
  | some command, some original =>
    rejectIf (validateCam e command.cam ≠ .ok () ∨ ¬e.cancel ∨ e.ack ∨ packet.isOpaque)
      (failure .invalidArgument)
    rejectIf (command.messageId ≠ original.messageId ∨ e.streamId ≠ s.request.envelope.streamId ∨
      ¬sameIdentifier command.controller original.controller ∨
      ¬sameIdentifier command.controllee original.controllee ∨
      now.associationGeneration ≠ s.execution.associationGeneration) (failure .invalidArgument)
    let selected ← selectedFields packet.fields
    rejectIf (s.action ≠ 2 ∨ ¬sameClass e.classId s.request.envelope.classId)
      (failure .invalidArgument)
    rejectIf (∃ i ∈ List.finRange 8, selected i ∧ planField s (stateField i) = none)
      (failure .invalidArgument)
    return (command.cam, selected)
  | _, _ => throw (failure .invalidArgument)

/-- The credits of a cancellation: those handed in, or acquired where none were. -/
def cancelCredits (cam : UInt32) (reserved : AdmissionBundle) (w : Engine σ) :
    Result AdmissionBundle × Engine σ :=
  let responses := (Words.bit cam 19).toNat + (Words.bit cam 18).toNat
  if reserved.held .cancellationQueue < 1 ∨ reserved.held .cancellationResponse < responses then
    if reserved.held .cancellationQueue ≠ 0 then
      (.error (failure .invalidArgument), { w with pool := w.pool.reset reserved })
    else match w.pool.acquire
        ((AdmissionRequest.none.need .cancellationQueue 1).need .cancellationResponse responses) with
      | .error e => (.error e, { w with pool := w.pool.reset reserved })
      | .ok (credits, pool) => (.ok credits, { w with pool := pool.reset reserved })
  else (.ok reserved, w)

/-- What a cancellation has found so far. -/
structure CancelProgress (σ : Type) where
  engine : Engine σ
  cancelled : Fin 8 → Bool := fun _ => false
  diagnostics : Fin 8 → Diagnostics := fun _ => {}

/-- A selected field is cancelled, if that is still possible. -/
def cancelField (i : ℕ) (p : CancelProgress σ) (k : Fin 8) : CancelProgress σ :=
  let w := p.engine
  let s := w.slots i
  let refuse (errors : UInt32) (w : Engine σ) : CancelProgress σ :=
    { p with engine := w, diagnostics := Function.update p.diagnostics k { errors } }
  match planField s (stateField k) with
  | none => refuse notExecuted w
  | some field =>
    if ¬s.complete ∧ (s.outcomes field).status = .pending then
      if s.running ∧ s.runningField = field then
        match disarmField c i field (stateField k) 0 w with
        | (_, true, w) =>
          { p with engine := w.emit (.confirmed s.sequence (stateField k))
                   cancelled := Function.update p.cancelled k true }
        | (.notCancelled, false, w) => refuse notExecuted w
        | (_, false, w) => refuse (deviceFailure ||| notExecuted) w
      else
        { p with
          engine := (w.setSlot i { s with cancelled := Function.update s.cancelled field true }).emit
            (.confirmed s.sequence (stateField k))
          cancelled := Function.update p.cancelled k true }
    else refuse notExecuted w

/-- The cancellation is too early or too late, or the clock cannot tell. -/
def cancelTimingFails (packet : PacketView) (mode : ℕ) (now : OperationContext) : Bool :=
  let e := packet.envelope.envelope
  mode ≠ 0 ∧ (e.timestamp.tsi ≠ epochTsi now.clock.epoch ∨ e.timestamp.tsf ≠ .picoseconds ∨
    ¬inWindow mode { seconds := e.timestamp.integer.toNat, picoseconds := e.timestamp.fractional.toNat }
      now.clock.time now.clock.uncertaintyPs now.timing ∨ ¬now.clock.usable)

def cancel (handle : Handle) (packet : PacketView) (now : OperationContext)
    (reserved : AdmissionBundle) (w : Engine σ) : Result CancellationResult × Engine σ :=
  match cancellable c handle packet now w with
  | .error e => (.error e, { w with pool := w.pool.reset reserved })
  | .ok (cam, selected) =>
    match cancelCredits cam reserved w with
    | (.error e, w) => (.error e, w)
    | (.ok credits, w) =>
      let mode := Words.bits cam 12 3
      if cancelTimingFails packet mode now then
        (.ok (cancellationResponse packet cam w.state now.clock selected (fun _ => false)
          (fun i => { errors := if selected i then notExecuted else 0 }) credits 7), w)
      else
        let p := ((List.finRange 8).filter selected).foldl (cancelField c handle.slot)
          { engine := scan c w }
        let w := scan c p.engine
        (.ok (cancellationResponse packet cam w.state now.clock selected p.cancelled p.diagnostics
          credits mode), w)

/-! ## Shutdown -/

/-- Shutdown of one field: a running one is disarmed once, a waiting one will not be begun. -/
def quiesceField (i : ℕ) (w : Engine σ) (field : ℕ) : Engine σ :=
  let s := w.slots i
  if (s.outcomes field).status ≠ .pending then w
  else
    let marked := w.setSlot i { s with cancelled := Function.update s.cancelled field true }
    if s.running ∧ s.runningField = field then
      if s.cancelled field then w
      else (disarmField c i field (s.execution.fields field).id
        (if s.request.cam.timing ≠ 0 then timingError else 0) marked).2.2
    else marked

def quiesceSlot (w : Engine σ) (i : ℕ) : Engine σ :=
  if (w.slots i).live then
    (List.range (w.slots i).execution.count).foldl (quiesceField c i) w
  else w

def requestQuiesce (now : OperationContext) (w : Engine σ) : Result Unit × Engine σ :=
  if now.associationGeneration = 0 ∨
      w.associationGeneration ≠ 0 ∧ now.associationGeneration ≠ w.associationGeneration then
    (.error (failure .staleGeneration), w)
  else
    progress c now
      ((List.range c.transactions).foldl (quiesceSlot c) (scan c { w with quiescing := true }))

/-! ## Results -/

def takeResponse (handle : Handle) (w : Engine σ) : Result (Option AckRecord) × Engine σ :=
  let s := w.slots handle.slot
  if handle.slot ≥ c.transactions then (.error (failure .invalidArgument), w)
  else if ¬s.active ∨ s.generation ≠ handle.generation then (.error (failure .staleGeneration), w)
  else match s.responses[s.responseRead]? with
    | none => (.ok none, w)
    | some ack =>
      (.ok (some ack), w.setSlot handle.slot { s with responseRead := s.responseRead + 1 })

def release (handle : Handle) (w : Engine σ) : Result Unit × Engine σ :=
  let i := handle.slot
  let s := w.slots i
  if i ≥ c.transactions then (.error (failure .invalidArgument), w)
  else if ¬s.active ∨ s.generation ≠ handle.generation ∨ ¬s.complete ∨
      s.responseRead ≠ s.responses.length then
    (.error (failure .invalidState), w)
  else
    let w := dropTokens c i (w.setSlot i { s with active := false })
    let s := w.slots i
    let port := (List.range 4).foldl
      (fun p f => p.setResult (i * 4 + f) fun r => { r with busy := false }) w.env.port
    (.ok (), { (w.setPort port).setSlot i
        { s with credits := none, generation := s.generation + 1 } with
      pool := w.pool.reset s.credits })

/-- `safe_to_reset`. -/
def safeToReset (w : Engine σ) : Bool × Engine σ :=
  let busy : Bool := ∃ i ∈ List.range c.transactions, (w.slots i).active
  let held : Bool := (List.range (c.transactions * 4)).any fun r =>
    w.env.port.holders r ≠ 0 ∨ (w.env.port.tickets r).pending
  match c.backend.quiescence with
  | none => (false, w)
  | some quiescence =>
    let (q, w) := w.call quiescence
    (¬busy ∧ ¬held ∧ q.known ∧ q.quiescent ∧ q.pending = 0, w)

/-- The checks of `reset_state` on the confirmed state. -/
def resettable (confirmed : StateSnapshot) (generation : ℕ) (w : Engine σ) : Result Unit := do
  validateSnapshot confirmed
  rejectIf (generation = 0 ∨ generation ≤ w.associationGeneration) (failure .staleGeneration)
  rejectIf (∃ i ∈ List.finRange 8, i.val < activeStateFields confirmed.profile ∧
    (confirmed.fields i).validity = .unknown) (failure .invalidArgument)
  rejectIf (c.profile ≠ .genericVirtualTest ∧ (¬confirmed.knows 1 ∨ ¬confirmed.knows 3 ∨
    c.profile = .iqFrequencyTunable ∧ ¬confirmed.knows 4)) (failure .invalidState)
  rejectIf (¬(c.profile = .iqFrequencyTunable ↔ confirmed.profile = .frequencyTunable))
    (failure .invalidArgument)

def resetState (confirmed : StateSnapshot) (generation : ℕ) (w : Engine σ) :
    Result Unit × Engine σ :=
  match resettable c confirmed generation w with
  | .error e => (.error e, w)
  | .ok _ =>
    match safeToReset c w with
    | (false, w) => (.error (failure .invalidState), w)
    | (true, w) =>
      let port := (List.range (c.transactions * 4)).foldl
        (fun p r => p.setGuard r fun g => { g with cancelled := false, contradiction := false })
        w.env.port
      (.ok (), { w.setPort port with
        state := confirmed, associationGeneration := generation, faulted := false, quiescing := false
        effectOwner := none })

/-! ## Runs -/

/-- A call of the engine, or an act of its surroundings. -/
inductive Input (σ : Type) where
  | accept (packet : PacketView) (now : OperationContext)
  | progress (now : OperationContext)
  | cancel (handle : Handle) (packet : PacketView) (now : OperationContext)
    (reserved : AdmissionBundle)
  | requestQuiesce (now : OperationContext)
  | takeResponse (handle : Handle)
  | release (handle : Handle)
  | resetState (confirmed : StateSnapshot) (generation : ℕ)
  /-- The backend changes its own state and acts on its capabilities. -/
  | backend (ext : σ) (actions : List Port.Action)
  /-- Others acquire or give back credits. -/
  | credits (pool : AdmissionPool)
  /-- The sample timeline moves. -/
  | timeline (t : SampleTimeline)

def step (w : Engine σ) : Input σ → Engine σ
  | .accept packet now => (accept c packet now w).2
  | .progress now => (progress c now w).2
  | .cancel handle packet now reserved => (cancel c handle packet now reserved w).2
  | .requestQuiesce now => (requestQuiesce c now w).2
  | .takeResponse handle => (takeResponse c handle w).2
  | .release handle => (release c handle w).2
  | .resetState confirmed generation => (resetState c confirmed generation w).2
  | .backend ext actions => { w with env := { ext, port := w.env.port.actAll actions } }
  | .credits pool => { w with pool }
  | .timeline t => { w with timeline := w.timeline.map fun _ => t }

def run (w : Engine σ) (inputs : List (Input σ)) : Engine σ := inputs.foldl (step c) w

/-- A new engine. -/
def initial (ext : σ) (pool : AdmissionPool) (state : StateSnapshot)
    (timeline : Option SampleTimeline) : Engine σ :=
  { env := { ext }, pool, state, timeline }

/-- A state of the engine in some run. -/
def Reachable (w : Engine σ) : Prop :=
  ∃ ext pool state timeline inputs, w = run c (initial ext pool state timeline) inputs

end Vita.Transaction.Engine
