import Vita.Transaction.Operations
import Vita.Transaction.PlanTheorems
import Vita.Common.Trace
import Mathlib.Logic.Relation

/-!
# What the engine can do

Every call of the engine is a sequence of moves. A move changes the slot of one transaction, or the
state, or neither; a property of all runs is shown for one move at a time. The turn of a transaction
takes several moves, and what is known in the middle of it depends on how far it is, so a move also
leads from one phase of a call to another.

Main definitions:
- `Phase`: where a call is;
- `Move`: the moves, each with all that is known when it is made;
- `Moves`: sequences of moves.
-/

namespace Vita.Transaction

open Checked Timing State Codec

/-! ## Slots -/

/-- The slots differ by what is only reported. -/
def Slot.Ledger (s s' : Slot) : Prop :=
  s' = { s with responses := s'.responses, responseRead := s'.responseRead, revisions := s'.revisions }

theorem Slot.Ledger.refl (s : Slot) : s.Ledger s := rfl

/-- The slots differ by a narrower plan. -/
structure Slot.Narrowed (s s' : Slot) : Prop where
  slot : s' = { s with execution := s'.execution }
  plan : Narrows s.execution s'.execution

/-- The slots differ by marks for cancellation. -/
structure Slot.Marked (s s' : Slot) : Prop where
  slot : s' = { s with cancelled := s'.cancelled, scheduleValid := s'.scheduleValid }
  cancelled : ∀ f, s.cancelled f → s'.cancelled f

theorem Slot.Marked.refl (s : Slot) : s.Marked s := ⟨rfl, fun _ h => h⟩

/-- All four settings of a radio are in the plan. -/
def Slot.isBatch {σ : Type} (c : Config σ) (s : Slot) : Bool :=
  c.profile = .sdrRadio ∧ s.execution.count = 4 ∧ s.action = 2

/-- The time that a command asks for. -/
def Request.time (r : Request) : ProtocolTime :=
  { seconds := r.envelope.timestamp.integer.toNat
    picoseconds := r.envelope.timestamp.fractional.toNat }

namespace Engine

variable {σ : Type}

@[simp] theorem setSlot_slots (w : Engine σ) (i : ℕ) (s : Slot) :
    (w.setSlot i s).slots = Function.update w.slots i s := rfl

@[simp] theorem setPort_slots (w : Engine σ) (p : Port) : (w.setPort p).slots = w.slots := rfl

@[simp] theorem emit_slots (w : Engine σ) (e : Event) : (w.emit e).slots = w.slots := rfl

@[simp] theorem emit_log (w : Engine σ) (e : Event) : (w.emit e).log = w.log ++ [e] := rfl

@[simp] theorem call_slots {α : Type} (w : Engine σ) (f : σ → Reply σ α) :
    (w.call f).2.slots = w.slots := rfl

/-! ## The port -/

/-- What happens to the port while nothing is decided. -/
inductive PortStep (c : Config σ) (w : Engine σ) : Port → Prop
  /-- The backend acts, in a callback or of its own. -/
  | act (actions : List Port.Action) : PortStep c w (w.env.port.actAll actions)
  /-- Marks on the guards of the results. -/
  | guard {port : Port} (htickets : port.tickets = w.env.port.tickets)
      (hheld : port.held = w.env.port.held) (hwriters : port.writers = w.env.port.writers)
      (hresults : ∀ r, (port.results r).outcome = (w.env.port.results r).outcome) : PortStep c w port
  /-- The capability of a running field is made. -/
  | hold {i : ℕ} (hrunning : (w.slots i).running) :
      PortStep c w (w.env.port.hold (capability i (w.slots i) (w.slots i).runningField))
  /-- The engine itself completes a running field. -/
  | complete {i : ℕ} (hrunning : (w.slots i).running) {o : FieldOutcome} (ho : o.status ≠ .executed) :
      PortStep c w
        (w.env.port.complete (capability i (w.slots i) (w.slots i).runningField) o).2
  /-- A completion that no transaction waits for. -/
  | consume {t : ℕ} {record : CompletionRecord} {port : Port}
      (h : w.env.port.consume (c.transactions * 4) t = (some record, port))
      (hnone : findRunning c w record.operation = none) : PortStep c w port

/-- The ticket of a capability is published with a cancelled outcome. -/
structure Disarmed (port : Port) (cap : AsyncResult) : Prop where
  generation : (port.tickets cap.publisher.slot).generation = cap.publisher.generation
  state : (port.tickets cap.publisher.slot).state = .ready
  payload : (port.tickets cap.publisher.slot).payload = { value := cap.index }
  outcome : (port.results cap.index).outcome.status = .cancelled

/-- Nothing that decides about an effect. -/
structure Quiet (c : Config σ) (w w' : Engine σ) : Prop where
  slots : ∀ j, (w.slots j).Ledger (w'.slots j)
  state : w'.state = w.state
  owner : w'.effectOwner = w.effectOwner
  sequence : w'.nextSequence = w.nextSequence
  tickets : w.nextTicketOperation ≤ w'.nextTicketOperation
  log : w'.log = w.log
  port : PortStep c w w'.env.port

/-! ## Moves -/

/-- Where a call of the engine is: between the turns, in a turn before or after its schedule was
checked, at its fields, in a batch whose first `k` outcomes are recorded, or before the end of a
transaction. -/
inductive Phase where
  | idle
  | planning (i : ℕ) (now : OperationContext)
  | checked (i : ℕ) (now : OperationContext)
  | walking (i : ℕ) (now : OperationContext)
  | batch (i k : ℕ)
  | closing (i : ℕ)

/-- The slot of a transaction that was just planned. -/
structure Fresh (c : Config σ) (now : OperationContext) (s : Slot) : Prop where
  wellFormed : s.request.WellFormed c.profile
  action_le : s.action ≤ 2
  timing_le : s.request.cam.timing ≤ 4
  complete : s.complete = false
  revalidated : s.revalidated = false
  running : s.running = false
  step : s.step = 0
  outcomes : s.outcomes = fun _ => {}
  cancelled : s.cancelled = fun _ => false
  timing : s.timing = now.timing
  requested : s.requestedTime = s.request.time
  count : s.execution.count = s.request.count
  id : ∀ f < s.execution.count, (s.execution.fields f).id = (s.request.field f).id
  sound : Sound s.execution
  permuted : Permuted s.execution
  uniform : ¬s.request.cam.partialAllowed → Uniform s.execution

/-- A field that is passed over gets an outcome without an effect. -/
structure Passed (s : Slot) (field : ℕ) (o : FieldOutcome) : Prop where
  step : s.step < s.execution.count
  order : field = s.execution.order s.step
  reason : s.cancelled field ∨ ¬s.eligible field
  id : o.id = (s.execution.fields field).id
  status : o.status = .cancelled ∨ o.status = .notExecuted

/-- A field that is begun. -/
structure Begun (w : Engine σ) (i field : ℕ) : Prop where
  step : (w.slots i).step < (w.slots i).execution.count
  order : field = (w.slots i).execution.order (w.slots i).step
  cancelled : ¬(w.slots i).cancelled field
  eligible : (w.slots i).eligible field
  action : (w.slots i).action ≠ 1
  version : w.state.version ≤ uint64Max - 4

/-- The settings of a radio are ready to be validated once more. -/
structure Ready (c : Config σ) (w : Engine σ) (i : ℕ) : Prop where
  batch : (w.slots i).isBatch c
  eligible : ∀ f < 4, (w.slots i).eligible f
  cancelled : ∀ f < 4, ¬(w.slots i).cancelled f

/-- The second validation of a batch. -/
def revalidateBatch (c : Config σ) (now : OperationContext) (i : ℕ) (w : Engine σ) : Bool × Engine σ :=
  validate c i { w.slots i with dataRunning := now.dataRunning } w

/-- What the engine does in one move for the transaction of the slot `i`. -/
inductive Act (c : Config σ) (i : ℕ) : Phase → Engine σ → Phase → Engine σ → Prop
  -- before the turns
  | settle {w : Engine σ} {t : ℕ} {record : CompletionRecord} {port : Port}
      (htake : w.env.port.consume (c.transactions * 4) t = (some record, port))
      (hfind : findRunning c w record.operation = some i) :
      Act c i .idle w .idle (consume c record (w.setPort port))
  | own {w : Engine σ} (hnone : w.effectOwner = none) (hlive : (w.slots i).live)
      (haction : (w.slots i).action = 2) : Act c i .idle w .idle { w with effectOwner := some i }
  -- turns
  | enter {w : Engine σ} (now : OperationContext) (hlt : i < c.transactions)
      (hlive : (w.slots i).live) (haction : (w.slots i).action ≠ 0)
      (howner : (w.slots i).action = 2 → w.effectOwner = some i) (hrunning : ¬(w.slots i).running) :
      Act c i .idle w (.planning i now) w
  | query {w : Engine σ} (hlive : (w.slots i).live) (haction : (w.slots i).action = 0) :
      Act c i .idle w (.closing i) w
  | drain {w : Engine σ} (hlive : (w.slots i).live) (hrunning : ¬(w.slots i).running) :
      Act c i .idle w (.closing i) (cancelPending i w)
  | revalidate {w : Engine σ} {now : OperationContext}
      (hnot : ¬(w.slots i).revalidated) :
      Act c i (.planning i now) w (.planning i now) (revalidate c now i w)
  | defer {w : Engine σ} {now : OperationContext} (hvalid : (w.slots i).revalidated)
      (hwaits : waits now (reschedule c now (w.slots i))) :
      Act c i (.planning i now) w .idle
        ({ w.setSlot i (reschedule c now (w.slots i)) with effectOwner := none }.emit
          (.deferred (reschedule c now (w.slots i)).sequence))
  | schedule {w : Engine σ} {now : OperationContext} (hvalid : (w.slots i).revalidated)
      (hwaits : ¬waits now (reschedule c now (w.slots i))) :
      Act c i (.planning i now) w (.checked i now)
        (w.setSlot i (checkWindow now (reschedule c now (w.slots i))))
  | unscheduled {w : Engine σ} {now : OperationContext} (hvalid : (w.slots i).revalidated)
      (hnot : ¬scheduled (w.slots i)) : Act c i (.planning i now) w (.checked i now) w
  | boundary {w : Engine σ} {now : OperationContext} :
      Act c i (.checked i now) w (.checked i now)
        (w.setSlot i (validateBoundaryState c w.timeline (w.slots i)))
  | single {w : Engine σ} {now : OperationContext} (hbatch : ¬(w.slots i).isBatch c) :
      Act c i (.checked i now) w (.walking i now) w
  -- batches
  | unready {w : Engine σ} {now : OperationContext} (hbatch : (w.slots i).isBatch c) :
      Act c i (.checked i now) w (.walking i now) (w.setSlot i (withdrawFour (w.slots i)))
  | recheck {w : Engine σ} {now : OperationContext} (hready : Ready c w i) :
      Act c i (.checked i now) w (.walking i now)
        ((revalidateBatch c now i w).2.setSlot i
          (withdrawFour ((revalidateBatch c now i w).2.slots i)))
  | commit {w : Engine σ} {now : OperationContext}
      {commit : ExecutionPlan → Boundary → σ → Reply σ BatchOutcome} (hready : Ready c w i)
      (hvalid : (revalidateBatch c now i w).1)
      (heligible : ∀ f < 4, ((revalidateBatch c now i w).2.slots i).eligible f) :
      Act c i (.checked i now) w (.batch i 0) (callCommit c commit now i (revalidateBatch c now i w).2).2
  | apply {w : Engine σ} {k : ℕ} (hk : k < 4) (reported : FieldOutcome) :
      Act c i (.batch i k) w (.batch i (k + 1)) (applyOutcome c false i k reported w)
  | unchanged {w : Engine σ} : Act c i (.batch i 4) w (.closing i) w
  | publish {w : Engine σ} (version : ℕ) (event : EffectiveEvent) :
      Act c i (.batch i 4) w (.closing i)
        (recordEvent c i event { w with state := { w.state with version } })
  -- fields
  | pass {w : Engine σ} {field : ℕ} {now : OperationContext} {o : FieldOutcome}
      (h : Passed (w.slots i) field o) :
      Act c i (.walking i now) w (.walking i now) (w.setSlot i (skip (w.slots i) field o))
  | block {w : Engine σ} {field : ℕ} {now : OperationContext} :
      Act c i (.walking i now) w (.walking i now) (blockField i field w)
  | simulate {w : Engine σ} {field : ℕ} {now : OperationContext} (reported : FieldOutcome)
      (hstep : (w.slots i).step < (w.slots i).execution.count)
      (hfield : field = (w.slots i).execution.order (w.slots i).step)
      (heligible : (w.slots i).eligible field) (haction : (w.slots i).action = 1) :
      Act c i (.walking i now) w (.walking i now) (applyOutcome c true i field reported w)
  | stuck {w : Engine σ} {now : OperationContext}
      (heligible : (w.slots i).eligible ((w.slots i).execution.order (w.slots i).step))
      (h : w.state.version > uint64Max - 4 ∨ c.backend.start = none ∨ (w.slots i).action = 1) :
      Act c i (.walking i now) w .idle w
  | start {w : Engine σ} {field : ℕ} {now : OperationContext} (hstart : c.backend.start.isSome)
      (h : Begun w i field) : Act c i (.walking i now) w .idle (dispatchField c now i field w)
  | exhaust {w : Engine σ} {now : OperationContext}
      (h : (w.slots i).execution.count ≤ (w.slots i).step) : Act c i (.walking i now) w (.closing i) w
  | finish {w : Engine σ} (now : OperationContext) :
      Act c i (.closing i) w .idle (finish c i now w)
  -- admission
  | scratch {w : Engine σ} {s : Slot} (hidle : (w.slots i).active = false)
      (hactive : s.active = false)
      (htokens : ∀ f q, s.tokens f = some q → (w.slots i).tokens f = some q ∧
        s.ticketOperations f = (w.slots i).ticketOperations f) (hrunning : s.running = false) :
      Act c i .idle w .idle (w.setSlot i s)
  | reserve {w w' : Engine σ} {f : ℕ} {now : OperationContext} {u : Unit}
      (hidle : (w.slots i).active = false) (hf : f < 4)
      (hheld : ∀ a ∈ w.env.port.held, a.index ≠ i * 4 + f) (hnew : (w.slots i).tokens f = none)
      (h : reserveTicket c i f now w = (.ok u, w')) : Act c i .idle w .idle w'
  | drop {w : Engine σ} (hidle : (w.slots i).active = false) :
      Act c i .idle w .idle (dropTokens c i w)
  | activate {w : Engine σ} {now : OperationContext} {credits : AdmissionBundle} {gen : ℕ}
      (hlt : i < c.transactions) (hidle : (w.slots i).active = false)
      (hfresh : Fresh c now (w.slots i))
      (harmed : c.profile = .sdrRadio → (w.slots i).request.isOnly Field.discreteIO32 3 →
        (w.slots i).action = 2 → (w.slots i).eligible 0 → ∀ j < c.transactions, j ≠ i →
          ¬(w.slots j).armedStart)
      (hcredits : (w.slots i).action = 2 → credits.held .revision = (w.slots i).execution.count ∧
        credits.held .contextPublication = (w.slots i).execution.count)
      (htokens : ∀ f < 4, ((w.slots i).tokens f).isSome) :
      Act c i .idle w .idle
        ({ w.setSlot i { w.slots i with credits, active := true, sequence := w.nextSequence } with
            associationGeneration := gen, nextSequence := w.nextSequence + 1 }.emit
          (.admitted w.nextSequence (w.slots i).request now))
  -- cancellation
  | disarm {w : Engine σ} (hactive : (w.slots i).active) (hrunning : (w.slots i).running) :
      Act c i .idle w .idle (w.emit (.disarmed (w.slots i).sequence))
  | confirm {w : Engine σ} {f : ℕ} {id : FieldId} (hactive : (w.slots i).active)
      (haction : (w.slots i).action = 2) (hf : f < (w.slots i).execution.count)
      (hid : ((w.slots i).execution.fields f).id = id)
      (hpending : ((w.slots i).outcomes f).status = .pending)
      (hstate : if (w.slots i).running ∧ (w.slots i).runningField = f then
          Disarmed w.env.port (capability i (w.slots i) f)
        else (w.slots i).cancelled f) :
      Act c i .idle w .idle (w.emit (.confirmed (w.slots i).sequence id))
  -- the end
  | release {w w' : Engine σ} {gen : ℕ} {u : Unit}
      (h : release c { slot := i, generation := gen } w = (.ok u, w')) :
      Act c i .idle w .idle w'

/-- What the engine does in one move. -/
inductive Move (c : Config σ) : Phase → Engine σ → Phase → Engine σ → Prop
  | quiet {p : Phase} {w w' : Engine σ} (h : Quiet c w w') : Move c p w p w'
  | fault {w : Engine σ} (r : ℕ) : Move c .idle w .idle (observeFault w r)
  | act {p p' : Phase} {w w' : Engine σ} (i : ℕ) (h : Act c i p w p' w') : Move c p w p' w'
  | mark {w : Engine σ} {slots : ℕ → Slot} (h : ∀ j, (w.slots j).Marked (slots j)) :
      Move c .idle w .idle { w with slots }
  | reset {w : Engine σ} {port : Port} (state : StateSnapshot) (generation : ℕ)
      (hidle : ∀ i < c.transactions, (w.slots i).active = false)
      (htickets : port.tickets = w.env.port.tickets) (hheld : port.held = w.env.port.held)
      (hwriters : port.writers = w.env.port.writers)
      (hresults : ∀ r, (port.results r).outcome = (w.env.port.results r).outcome) :
      Move c .idle w .idle { w.setPort port with
        state, associationGeneration := generation, faulted := false, quiescing := false
        effectOwner := none }

/-- A sequence of moves. -/
def Moves (c : Config σ) (p : Phase) (w : Engine σ) (p' : Phase) (w' : Engine σ) : Prop :=
  Relation.ReflTransGen (fun x y => Move c x.1 x.2 y.1 y.2) (p, w) (p', w')

variable {c : Config σ} {p p' p'' : Phase} {w w' w'' : Engine σ}

theorem Move.moves (h : Move c p w p' w') : Moves c p w p' w' := .single h

theorem Act.moves {i : ℕ} (h : Act c i p w p' w') : Moves c p w p' w' := (Move.act i h).moves

theorem Moves.refl : Moves c p w p w := Relation.ReflTransGen.refl

theorem Moves.trans (h : Moves c p w p' w') (h' : Moves c p' w' p'' w'') : Moves c p w p'' w'' :=
  Relation.ReflTransGen.trans h h'

theorem Moves.quiet (h : Quiet c w w') : Moves c p w p w' := (Move.quiet h).moves

/-- What every move keeps is kept by a sequence of moves. -/
theorem Moves.invariant {P : Phase → Engine σ → Prop}
    (hstep : ∀ p w p' w', P p w → Move c p w p' w' → P p' w') (h : Moves c p w p' w')
    (hw : P p w) : P p' w' := by
  have hpair : ∀ y, Relation.ReflTransGen (fun x y => Move c x.1 x.2 y.1 y.2) (p, w) y → P y.1 y.2 := by
    intro y hy
    induction hy with
    | refl => exact hw
    | tail _ hmove ih => exact hstep _ _ _ _ ih hmove
  exact hpair (p', w') h

/-! ## Quiet moves -/

theorem PortStep.refl (w : Engine σ) : PortStep c w w.env.port := .act []

theorem Quiet.refl (w : Engine σ) : Quiet c w w where
  slots _ := .refl _
  state := rfl
  owner := rfl
  sequence := rfl
  tickets := le_rfl
  log := rfl
  port := .refl w

theorem Quiet.setPort {port : Port} (h : PortStep c w port) : Quiet c w (w.setPort port) where
  slots _ := .refl _
  state := rfl
  owner := rfl
  sequence := rfl
  tickets := le_rfl
  log := rfl
  port := h

theorem Quiet.call {α : Type} (w : Engine σ) (f : σ → Reply σ α) : Quiet c w (w.call f).2 where
  slots _ := .refl _
  state := rfl
  owner := rfl
  sequence := rfl
  tickets := le_rfl
  log := rfl
  port := .act _

/-- What a backend does on its own is a quiet move. -/
theorem Quiet.env (w : Engine σ) {env : Env σ} (h : w.env.Follows env) : Quiet c w { w with env } where
  slots _ := .refl _
  state := rfl
  owner := rfl
  sequence := rfl
  tickets := le_rfl
  log := rfl
  port := by
    obtain ⟨actions, hactions⟩ := h
    simp only [hactions]
    exact .act actions

/-- The bookkeeping of a slot is a quiet move. -/
theorem Quiet.setSlot {i : ℕ} {s : Slot} (h : (w.slots i).Ledger s) : Quiet c w (w.setSlot i s) where
  slots j := by
    by_cases hj : j = i
    · subst hj
      simpa using h
    · simpa [Function.update_of_ne hj] using Slot.Ledger.refl (w.slots j)
  state := rfl
  owner := rfl
  sequence := rfl
  tickets := le_rfl
  log := rfl
  port := .refl w

theorem Quiet.flags (w : Engine σ) (pool : AdmissionPool) (timeline : Option SampleTimeline)
    (faulted quiescing : Bool) : Quiet c w { w with pool, timeline, faulted, quiescing } where
  slots _ := .refl _
  state := rfl
  owner := rfl
  sequence := rfl
  tickets := le_rfl
  log := rfl
  port := .refl w

theorem Moves.call {α : Type} (w : Engine σ) (f : σ → Reply σ α) : Moves c p w p (w.call f).2 :=
  .quiet (.call w f)

theorem Moves.pool (w : Engine σ) (pool : AdmissionPool) : Moves c p w p { w with pool } :=
  .quiet (.flags w pool w.timeline w.faulted w.quiescing)

/-- A loop of moves. -/
theorem Moves.foldl {α : Type} {f : Engine σ → α → Engine σ} (h : ∀ w a, Moves c p w p (f w a))
    (l : List α) (w : Engine σ) : Moves c p w p (l.foldl f w) := by
  induction l generalizing w with
  | nil => exact .refl
  | cons a l ih => exact (h w a).trans (ih (f w a))

end Engine

end Vita.Transaction
