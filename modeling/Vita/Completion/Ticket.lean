import Vita.Completion.Lifecycle
import Mathlib.Logic.Function.Basic

/-!
# Completion tickets, step by step (`completion/ticket.hpp`)

The arena's slots are shared by an allocator, by publishers and by consumers. Every access to a slot is
a step of its own: a load, a store or a compare-exchange of the tagged word, a read or a write of the
operation or of the payload. A move is one step of one of the threads, in any order.

A token that is moved is the same token here; a token's destructor and an assignment to it abandon it.
What is done to the slots is logged; nothing reads the log.

Main definitions:
- `Arena`: the slots with the threads' own variables;
- `Arena.step`: the moves.
-/

namespace Vita.Completion

/-! ## The tagged word -/

inductive TicketState where
  | free | reserved | writing | ready | reading | retired
deriving DecidableEq

def TicketState.code : TicketState → UInt64
  | .free => 0
  | .reserved => 1
  | .writing => 2
  | .ready => 3
  | .reading => 4
  | .retired => 5

def tag (generation : UInt64) (state : TicketState) : UInt64 := (generation <<< 8) ||| state.code

/-- `max_ticket_generation`. -/
def maxGeneration : UInt64 := ((1 : UInt64) <<< 56) - 1

structure CompletionSlot where
  tagged : UInt64 := 0
  operation : UInt64 := 0
  payload : CompletionResult := {}

/-! ## Threads -/

/-- `CompletionPublisher`: a slot of one generation; it is copied freely. -/
structure Publisher (n : ℕ) where
  slot : Fin n
  generation : UInt64
deriving DecidableEq

/-- How far a `CompletionWriter` is. It does nothing more once it has published. -/
inductive Stage where
  | claimed
  | written (result : CompletionResult)
  | spent

/-- A writer, with the result it was made for by `publish`. -/
structure Writer (n : ℕ) where
  publisher : Publisher n
  bound : Option CompletionResult
  stage : Stage := .claimed

/-- Where `reserve` is. -/
inductive Allocator (n : ℕ) where
  | idle
  | scanning (operation : UInt64) (index : ℕ)
  | found (operation : UInt64) (i : Fin n) (generation : UInt64)
  | filled (operation : UInt64) (i : Fin n) (generation : UInt64)

/-- Where a call of `consume` is. -/
inductive Consumer (n : ℕ) where
  | idle
  | loaded (i : Fin n) (expected : UInt64)
  | reading (i : Fin n) (generation : UInt64)
  | fetched (i : Fin n) (generation operation : UInt64)
  | copied (i : Fin n) (generation : UInt64) (record : CompletionRecord)
  | cleared (i : Fin n) (generation : UInt64) (record : CompletionRecord)

/-- Something that happened to a generation of a slot. -/
structure Event (n : ℕ) where
  slot : Fin n
  generation : UInt64
  act : Act
deriving DecidableEq

structure Arena (n : ℕ) where
  slots : Fin n → CompletionSlot
  /-- The tokens that `reserve` returned, with `active_`. -/
  tokens : List (Publisher n × Bool) := []
  writers : List (Writer n) := []
  allocator : Allocator n := .idle
  consumers : ℕ → Consumer n := fun _ => .idle
  rejectedPublications : UInt64 := 0
  log : List (Event n) := []

namespace Arena

variable {n : ℕ}

/-- The generation that an arena starts with. -/
def initialGeneration (generation : UInt64) : UInt64 :=
  if generation ≤ maxGeneration then generation else maxGeneration

def new (n : ℕ) (generation : UInt64) : Arena n where
  slots := fun _ => { tagged := tag (initialGeneration generation) .free }

def setSlot (s : Arena n) (i : Fin n) (slot : CompletionSlot) : Arena n :=
  { s with slots := Function.update s.slots i slot }

def setConsumer (s : Arena n) (c : ℕ) (consumer : Consumer n) : Arena n :=
  { s with consumers := Function.update s.consumers c consumer }

def setWriter (s : Arena n) (k : ℕ) (w : Writer n) : Arena n :=
  { s with writers := s.writers.set k w }

def note (s : Arena n) (i : Fin n) (generation : UInt64) (act : Act) : Arena n :=
  { s with log := s.log ++ [⟨i, generation, act⟩] }

/-! ## The allocator -/

/-- A step of `reserve`. -/
def allocate (s : Arena n) : Arena n :=
  match s.allocator with
  | .idle => s
  | .scanning operation index =>
    if h : index < n then
      let tagged := (s.slots ⟨index, h⟩).tagged
      if tagged &&& 255 ≠ TicketState.free.code then
        { s with allocator := .scanning operation (index + 1) }
      else { s with allocator := .found operation ⟨index, h⟩ (tagged >>> 8) }
    else { s with allocator := .idle }
  | .found operation i generation =>
    { s.setSlot i { s.slots i with operation } with allocator := .filled operation i generation }
  | .filled operation i generation =>
    let s := (s.setSlot i { s.slots i with tagged := tag generation .reserved }).note i generation
      (.reserve operation)
    { s with allocator := .idle, tokens := s.tokens ++ [(⟨i, generation⟩, true)] }

/-! ## Publishers -/

/-- `try_claim`: one compare-exchange. -/
def tryClaim (s : Arena n) (p : Publisher n) (bound : Option CompletionResult) : Arena n :=
  if (s.slots p.slot).tagged = tag p.generation .reserved then
    let s := (s.setSlot p.slot { s.slots p.slot with tagged := tag p.generation .writing }).note p.slot
      p.generation (.claim s.writers.length)
    { s with writers := s.writers ++ [{ publisher := p, bound }] }
  else { s with rejectedPublications := s.rejectedPublications + 1 }

/-- The claim of an active token. -/
def claimToken (s : Arena n) (k : ℕ) (result : CompletionResult) : Arena n :=
  match s.tokens[k]? with
  | some (p, true) => tryClaim { s with tokens := s.tokens.set k (p, false) } p (some result)
  | _ => s

/-- What an abandoned token reports. -/
def abandoned : CompletionResult := { status := .abandoned, error := { code := .callbackFailure } }

/-- The first step of `finish`: the payload. -/
def writePayload (s : Arena n) (k : ℕ) (result : CompletionResult) : Arena n :=
  match s.writers[k]? with
  | some ⟨p, bound, .claimed⟩ =>
    let result := bound.getD result
    (s.setSlot p.slot { s.slots p.slot with payload := result }).setWriter k
      ⟨p, bound, .written result⟩
  | _ => s

/-- The second step of `finish`: the tagged word. -/
def publish (s : Arena n) (k : ℕ) : Arena n :=
  match s.writers[k]? with
  | some ⟨p, bound, .written result⟩ =>
    ((s.setSlot p.slot { s.slots p.slot with tagged := tag p.generation .ready }).setWriter k
      ⟨p, bound, .spent⟩).note p.slot p.generation (.finish k result)
  | _ => s

/-! ## Consumers -/

/-- The load of `consume`. -/
def load (s : Arena n) (c index : ℕ) : Arena n :=
  match s.consumers c with
  | .idle =>
    if h : index < n then
      let expected := (s.slots ⟨index, h⟩).tagged
      if expected &&& 255 ≠ TicketState.ready.code then s
      else s.setConsumer c (.loaded ⟨index, h⟩ expected)
    else s
  | _ => s

/-- The tagged word that `consume` leaves. -/
def releasedTag (generation : UInt64) : UInt64 :=
  if generation = maxGeneration then tag generation .retired else tag (generation + 1) .free

/-- A further step of `consume`. -/
def consume (s : Arena n) (c : ℕ) : Arena n :=
  match s.consumers c with
  | .idle => s
  | .loaded i expected =>
    if (s.slots i).tagged = expected then
      ((s.setSlot i { s.slots i with tagged := tag (expected >>> 8) .reading }).setConsumer c
        (.reading i (expected >>> 8))).note i (expected >>> 8) (.take c)
    else s.setConsumer c .idle
  | .reading i generation => s.setConsumer c (.fetched i generation (s.slots i).operation)
  | .fetched i generation operation =>
    s.setConsumer c (.copied i generation ⟨operation, (s.slots i).payload⟩)
  | .copied i generation record =>
    (s.setSlot i { s.slots i with payload := {} }).setConsumer c (.cleared i generation record)
  | .cleared i generation record =>
    ((s.setSlot i { s.slots i with tagged := releasedTag generation }).setConsumer c .idle).note i
      generation (.obtain c record)

end Arena

/-! ## Moves -/

inductive Move (n : ℕ) where
  /-- `reserve` is called. -/
  | reserve (operation : UInt64)
  | allocate
  /-- A copy of a token's publisher claims, for `publish` with a result or for a later `finish`. -/
  | claim (p : Publisher n) (bound : Option CompletionResult)
  /-- A token publishes. -/
  | token (k : ℕ) (result : CompletionResult)
  /-- A token is destroyed or assigned to. -/
  | abandon (k : ℕ)
  /-- A writer's `finish` is called. -/
  | write (k : ℕ) (result : CompletionResult)
  | publish (k : ℕ)
  | load (c index : ℕ)
  | consume (c : ℕ)

namespace Arena

variable {n : ℕ}

def step (s : Arena n) : Move n → Arena n
  | .reserve operation =>
    match s.allocator with
    | .idle => { s with allocator := .scanning operation 0 }
    | _ => s
  | .allocate => s.allocate
  | .claim p bound =>
    -- only `reserve` makes publishers
    if p ∈ s.tokens.map Prod.fst then s.tryClaim p bound else s
  | .token k result => s.claimToken k result
  | .abandon k => s.claimToken k abandoned
  | .write k result => s.writePayload k result
  | .publish k => s.publish k
  | .load c index => s.load c index
  | .consume c => s.consume c

def run (s : Arena n) (moves : List (Move n)) : Arena n := moves.foldl step s

/-- The arenas after any interleaving. -/
def Reachable (generation : UInt64) (s : Arena n) : Prop := ∃ moves, s = (new n generation).run moves

/-- The publisher whose step a move is. -/
def publisher (s : Arena n) : Move n → Option (Publisher n)
  | .claim p _ => some p
  | .token k _ => s.tokens[k]?.map Prod.fst
  | .abandon k => s.tokens[k]?.map Prod.fst
  | .write k _ => s.writers[k]?.map Writer.publisher
  | .publish k => s.writers[k]?.map Writer.publisher
  | _ => none

end Arena

end Vita.Completion
