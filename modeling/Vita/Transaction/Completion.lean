import Vita.Completion.Lifecycle
import Vita.State.Contracts
import Mathlib.Logic.Function.Basic

/-!
# Completion tickets and result storage (`completion/ticket.hpp`, `transaction/backend.hpp`)

A backend reports the outcome of an effect through a capability: it claims the ticket of the operation,
writes the outcome to its result slot and publishes. Only one claim of a ticket succeeds; a refused one
is remembered as a contradiction. Claiming and publishing are separate steps, since they run on the
backend's own threads; the writers in between are part of the state, and so are the capabilities that
the backend holds.

Main definitions:
- `Port`: the tickets, the result slots and the capabilities in use;
- `Port.act`: what a backend may do with the capabilities it holds.
-/

namespace Vita.Transaction

open Checked Timing State
open Completion (CompletionStatus maxTicketGeneration)

/-! ## Tickets -/

structure CompletionResult where
  status : CompletionStatus := .succeeded
  value : ℕ := 0

structure CompletionRecord where
  operation : ℕ
  result : CompletionResult

/-- The states of a ticket between the operations of its arena; `reading` is left within one of them. -/
inductive TicketState where
  | free | reserved | writing | ready | retired
deriving DecidableEq

structure CompletionSlot where
  generation : ℕ := 1
  state : TicketState := .free
  operation : ℕ := 0
  payload : CompletionResult := {}

/-- The ticket is in use. -/
def CompletionSlot.pending (t : CompletionSlot) : Bool := t.state ≠ .free ∧ t.state ≠ .retired

/-- `CompletionPublisher`: a ticket of one generation. -/
structure Publisher where
  slot : ℕ := 0
  generation : ℕ := 0
deriving DecidableEq

/-- `CompletionToken`: the reservation of a ticket, or `none` where it owns nothing. -/
abbrev Token := Option Publisher

/-! ## Results -/

structure ResultGuard where
  cancelled : Bool := false
  contradiction : Bool := false
  associationGeneration : ℕ := 0
  field : FieldId := ⟨0, 0⟩

structure ResultSlot where
  outcome : FieldOutcome := {}
  generation : ℕ := 0
  busy : Bool := false
  guard : ResultGuard := {}

/-- `AsyncResult`: a publisher and the index of the result slot it writes. -/
structure AsyncResult where
  publisher : Publisher
  index : ℕ
deriving DecidableEq

/-- A `CompletionWriter` between claim and publication, with what it is going to publish. -/
structure Writer where
  capability : AsyncResult
  outcome : Option FieldOutcome

structure Port where
  tickets : ℕ → CompletionSlot := fun _ => {}
  results : ℕ → ResultSlot := fun _ => {}
  held : List AsyncResult := []
  writers : List Writer := []

namespace Port

/-- The `holders` count of a result slot. -/
def holders (p : Port) (index : ℕ) : ℕ := p.held.countP (·.index = index)

def isReserved (p : Port) (q : Publisher) : Bool :=
  (p.tickets q.slot).generation = q.generation ∧ (p.tickets q.slot).state = .reserved

def setTicket (p : Port) (i : ℕ) (f : CompletionSlot → CompletionSlot) : Port :=
  { p with tickets := Function.update p.tickets i (f (p.tickets i)) }

def setResult (p : Port) (i : ℕ) (f : ResultSlot → ResultSlot) : Port :=
  { p with results := Function.update p.results i (f (p.results i)) }

def setGuard (p : Port) (i : ℕ) (f : ResultGuard → ResultGuard) : Port :=
  p.setResult i fun r => { r with guard := f r.guard }

/-- `try_claim`, with whether it succeeded. -/
def tryClaim (p : Port) (q : Publisher) : Bool × Port :=
  if p.isReserved q then (true, p.setTicket q.slot fun t => { t with state := .writing })
  else (false, p)

/-- `CompletionWriter::finish`. -/
def finish (p : Port) (q : Publisher) (result : CompletionResult) : Port :=
  p.setTicket q.slot fun _ =>
    { generation := q.generation, state := .ready, operation := (p.tickets q.slot).operation
      payload := result }

def publish (p : Port) (q : Publisher) (result : CompletionResult) : Port :=
  match p.tryClaim q with
  | (true, p) => p.finish q result
  | (false, p) => p

/-- The first half of `AsyncResult::complete`: the claim and the marks on the guard. -/
def claim (p : Port) (c : AsyncResult) (outcome : FieldOutcome) : Bool × Port :=
  match p.tryClaim c.publisher with
  | (true, p) =>
    (true, if outcome.status = .cancelled then p.setGuard c.index fun g => { g with cancelled := true }
      else p)
  | (false, p) =>
    (false, if outcome.status = .executed ∨ outcome.status = .unknownEffect then
        p.setGuard c.index fun g => { g with contradiction := true }
      else p)

/-- The second half of `AsyncResult::complete`: the outcome and the publication. -/
def deliver (p : Port) (c : AsyncResult) (outcome : FieldOutcome) : Port :=
  (p.setResult c.index fun r => { r with outcome }).finish c.publisher { value := c.index }

/-- `AsyncResult::complete` without an interruption. -/
def complete (p : Port) (c : AsyncResult) (outcome : FieldOutcome) : Bool × Port :=
  match p.claim c outcome with
  | (true, p) => (true, p.deliver c outcome)
  | (false, p) => (false, p)

/-! ## The arena -/

/-- `CompletionArena::reserve` in an arena of `n` tickets. -/
def reserve (p : Port) (n operation : ℕ) : Result (Publisher × Port) :=
  match (List.range n).find? fun i => (p.tickets i).state = .free with
  | none => throw (failure .capacityExhausted)
  | some i =>
    .ok ({ slot := i, generation := (p.tickets i).generation },
      p.setTicket i fun t => { t with state := .reserved, operation })

/-- `CompletionArena::consume`. -/
def consume (p : Port) (n i : ℕ) : Option CompletionRecord × Port :=
  let t := p.tickets i
  if i < n ∧ t.state = .ready then
    (some { operation := t.operation, result := t.payload },
      p.setTicket i fun _ =>
        if t.generation = maxTicketGeneration then
          { generation := t.generation, state := .retired, operation := t.operation }
        else { generation := t.generation + 1, state := .free, operation := t.operation })
  else (none, p)

/-- Assigning an empty token: a reserved ticket is published as abandoned and consumed. -/
def dropToken (p : Port) (n : ℕ) : Token → Port
  | none => p
  | some q =>
    if p.isReserved q then ((p.publish q { status := .abandoned }).consume n q.slot).2 else p

/-! ## What a backend may do -/

inductive Action where
  | copy (c : AsyncResult)
  | drop (c : AsyncResult)
  /-- Begin to complete a held capability. -/
  | claim (c : AsyncResult) (outcome : FieldOutcome)
  /-- Begin a `synthetic_failure`. -/
  | fail (c : AsyncResult)
  /-- A writer publishes. -/
  | write (i : ℕ)

/-- An action; those with a capability that the backend does not hold have no effect. A capability is
held at least until its writer has published. -/
def act (p : Port) : Action → Port
  | .copy c => if c ∈ p.held then { p with held := c :: p.held } else p
  | .drop c =>
    if p.writers.countP (·.capability = c) < p.held.count c then { p with held := p.held.erase c }
    else p
  | .claim c outcome =>
    if c ∈ p.held then
      match p.claim c outcome with
      | (true, p) => { p with writers := p.writers ++ [{ capability := c, outcome := some outcome }] }
      | (false, p) => p
    else p
  | .fail c =>
    if c ∈ p.held then
      match p.tryClaim c.publisher with
      | (true, p) => { p with writers := p.writers ++ [{ capability := c, outcome := none }] }
      | (false, p) => p
    else p
  | .write i =>
    match p.writers[i]? with
    | none => p
    | some w =>
      let p := { p with writers := p.writers.eraseIdx i }
      match w.outcome with
      | some outcome => p.deliver w.capability outcome
      | none => p.finish w.capability.publisher { status := .failed }

def actAll (p : Port) (actions : List Action) : Port := actions.foldl act p

/-- A capability is constructed or copied. -/
def hold (p : Port) (c : AsyncResult) : Port := { p with held := c :: p.held }

end Port

end Vita.Transaction
