import Vita.State.Contracts
import Vita.Transaction.Admission

/-!
# Revisions of the state (`context/revisions.hpp`)

The store keeps the effective events that have to be published as Context. A slot is reserved at the
admission of a command, gets its event when the command has its effect, and is free again when its
event is published, superseded and no longer referred to.

A handle is the index of a slot. The reference count of a slot is the number of handles that exist; it
is not part of the store, and the operations that read it take it as an argument.
-/

namespace Vita.Context

open Checked Timing State Transaction

/-- `same_state`. -/
def sameState (a b : StateSnapshot) : Bool :=
  a.profile = b.profile ∧ ∀ i ∈ List.finRange 8, i.val < activeStateFields a.profile →
    (a.fields i).id = (b.fields i).id ∧ (a.fields i).validity = (b.fields i).validity ∧
      ((a.fields i).validity = .known → (a.fields i).value = (b.fields i).value)

/-- `required_known`: what is needed to interpret samples. -/
def requiredKnown (s : StateSnapshot) : Bool :=
  s.knows 1 ∧ s.knows 3 ∧ (s.profile = .generatorV1 ∨ s.knows 4) ∧
    (s.profile = .sdrRadio → s.knows 5 ∧ s.knows 6)

inductive Publication where
  | pending | accepted | failed
deriving DecidableEq

structure Revision where
  event : EffectiveEvent := {}
  credits : AdmissionBundle := none
  id : ℕ := 0
  reservation : ℕ := 0
  publication : Publication := .pending
  occupied : Bool := false
  committed : Bool := false
  detached : Bool := false
  dataDependency : Bool := false

namespace Revision

/-- The event is waiting to be published. -/
def waiting (r : Revision) : Bool := r.committed ∧ ¬r.detached ∧ r.publication = .pending

/-- Samples or a lost sample refer to exactly this event. -/
def pinned (r : Revision) : Bool :=
  r.dataDependency ∨ ∃ v ∈ asWord (r.event.state.fields 2).value, v &&& 0x1000 ≠ 0

/-- Both events take effect at the same known time. -/
def sameTime (r s : Revision) : Bool :=
  r.event.timeKnown ∧ s.event.timeKnown ∧ r.event.contextTime = s.event.contextTime

/-- The first event is published before the second. -/
def precedes (r s : Revision) : Bool :=
  if r.event.timeKnown ≠ s.event.timeKnown then r.event.timeKnown
  else if r.event.timeKnown then r.event.contextTime.before s.event.contextTime
  else s.id < r.id

end Revision

/-- `RevisionStore::State`. -/
structure RevisionStore where
  slots : ℕ → Revision := fun _ => {}
  generation : ℕ := 1
  nextId : ℕ := 1
  nextReservation : ℕ := 1
  current : Option ℕ := none
  faulted : Bool := false
  /-- The credits of revisions that are gone. -/
  returned : List AdmissionBundle := []

namespace RevisionStore

variable (n : ℕ)

def setSlot (s : RevisionStore) (i : ℕ) (r : Revision) : RevisionStore :=
  { s with slots := Function.update s.slots i r }

/-- A slot can be used again. -/
def collectable (referenced : ℕ → Bool) (s : RevisionStore) (i : ℕ) : Bool :=
  let r := s.slots i
  r.occupied ∧ r.committed ∧ s.current ≠ some i ∧ (r.detached ∨ r.publication ≠ .pending) ∧
    ¬referenced i

def collect (referenced : ℕ → Bool) (s : RevisionStore) : RevisionStore :=
  let gone := (List.range n).filter (collectable referenced s)
  { s with
    slots := fun i => if i ∈ gone then
        { s.slots i with credits := none, occupied := false, committed := false }
      else s.slots i
    returned := s.returned ++ gone.map fun i => (s.slots i).credits }

/-- `reserve`: the token of the reservation. -/
def reserve (referenced : ℕ → Bool) (count : ℕ) (s : RevisionStore) : Result ℕ × RevisionStore :=
  if count = 0 ∨ count > n then (.error (failure .invalidArgument), s)
  else
    let s := collect n referenced s
    let free := (List.range n).filter fun i => ¬(s.slots i).occupied
    let reserved := (List.range n).countP fun i => (s.slots i).occupied ∧ ¬(s.slots i).committed
    if free.length < count then (.error (failure .capacityExhausted), s)
    else if s.nextReservation = uint64Max ∨ s.nextId > uint64Max - count - reserved then
      (.error (failure .overflow), s)
    else
      let token := s.nextReservation
      let taken := free.take count
      (.ok token,
        { s with
          nextReservation := token + 1
          slots := fun i => if i ∈ taken then
              { s.slots i with
                occupied := true, committed := false, detached := false, dataDependency := false
                reservation := token, publication := .pending }
            else s.slots i })

/-- `unused`: a reservation is given back. -/
def release (token : ℕ) (s : RevisionStore) : RevisionStore :=
  { s with slots := fun i =>
      let r := s.slots i
      if i < n ∧ r.occupied ∧ ¬r.committed ∧ r.reservation = token then { r with occupied := false }
      else r }

/-- `record`: an event takes a slot of its reservation. -/
def record (event : EffectiveEvent) (token : ℕ) (credits : AdmissionBundle) (s : RevisionStore) :
    RevisionStore :=
  if event.associationGeneration ≠ s.generation then { s with returned := s.returned ++ [credits] }
  else
    match (List.range n).find? fun i =>
      (s.slots i).occupied ∧ ¬(s.slots i).committed ∧ (s.slots i).reservation = token with
    | none => { s with faulted := true, returned := s.returned ++ [credits] }
    | some i =>
      { s.setSlot i { s.slots i with event, credits, id := s.nextId, committed := true
                                     publication := .pending } with
        nextId := s.nextId + 1, current := some i
        faulted := s.faulted ∨ ¬requiredKnown event.state }

/-- `initial`: the first revision of an association. -/
def initial (referenced : ℕ → Bool) (event : EffectiveEvent) (credits : AdmissionBundle)
    (s : RevisionStore) : Result ℕ × RevisionStore :=
  let refused := { s with returned := s.returned ++ [credits] }
  match validateSnapshot event.state with
  | .error e => (.error e, refused)
  | .ok _ =>
    if s.current.isSome ∨ event.associationGeneration ≠ s.generation ∨ ¬requiredKnown event.state then
      (.error (failure .invalidState), refused)
    else match reserve n referenced 1 s with
      | (.error e, s) => (.error e, { s with returned := s.returned ++ [credits] })
      | (.ok token, s) =>
        let s := record n event token credits s
        match s.current with
        | none => (.error (failure .invalidState), s)
        | some i => (.ok i, s)

/-! ## Publication -/

/-- `next_publication`. -/
def nextPublication (s : RevisionStore) : Option ℕ :=
  (List.range n).foldl
    (fun next i =>
      if (s.slots i).waiting then
        match next with
        | none => some i
        | some j => if (s.slots i).precedes (s.slots j) then some i else some j
      else next)
    none

/-- The last event of those that take effect together with the first one. -/
def lastTogether (s : RevisionStore) : List ℕ → ℕ → Result ℕ
  | [], last => .ok last
  | i :: rest, last =>
    let r := s.slots i
    let l := s.slots last
    if r.waiting ∧ r.sameTime l then
      if r.event.sampleOrdinal ≠ l.event.sampleOrdinal ∨ r.event.ordinalKnown ≠ l.event.ordinalKnown then
        .error (failure .identityConflict)
      else lastTogether s rest (if r.id > l.id then i else last)
    else lastTogether s rest last

/-- `publication_group`: the revision whose state stands for all that are published with it. -/
def publicationGroup (s : RevisionStore) : Result ℕ :=
  match nextPublication n s with
  | none => .error (failure .invalidState)
  | some first =>
    if ¬(s.slots first).event.timeKnown then
      if ∃ i ∈ List.range n, (s.slots i).waiting ∧ ¬(s.slots i).event.timeKnown ∧ (s.slots i).pinned then
        .error (failure .identityConflict)
      else .ok first
    else match lastTogether s (List.range n) first with
      | .error e => .error e
      | .ok last =>
        if ∃ i ∈ List.range n, (s.slots i).waiting ∧ (s.slots i).id ≠ (s.slots last).id ∧
            (s.slots i).sameTime (s.slots last) ∧ (s.slots i).pinned ∧
            ¬sameState (s.slots i).event.state (s.slots last).event.state then
          .error (failure .identityConflict)
        else .ok last

/-- The revision is published together with that of a slot. -/
def inGroup (s : RevisionStore) (h i : ℕ) : Bool :=
  let r := s.slots i
  let g := s.slots h
  r.waiting ∧ (r.id = g.id ∨ ¬r.event.timeKnown ∧ ¬g.event.timeKnown ∨
    r.sameTime g ∧ r.event.sampleOrdinal = g.event.sampleOrdinal)

/-- `accept_group`. -/
def acceptGroup (h : ℕ) (s : RevisionStore) : Result RevisionStore := do
  rejectIf ((s.slots h).event.associationGeneration ≠ s.generation) (failure .staleGeneration)
  let selected ← publicationGroup n s
  rejectIf ((s.slots selected).id ≠ (s.slots h).id) (failure .invalidState)
  return { s with slots := fun i =>
    if i < n ∧ inGroup s h i then { s.slots i with publication := .accepted } else s.slots i }

/-- `mark_publication`: the revision is looked up by its number. -/
def markPublication (h : ℕ) (status : Publication) (s : RevisionStore) : Result RevisionStore :=
  match (List.range n).find? fun i =>
    (s.slots i).committed ∧ ¬(s.slots i).detached ∧ (s.slots i).id = (s.slots h).id ∧
      (s.slots i).event.associationGeneration = s.generation with
  | none => .error (failure .staleGeneration)
  | some i => .ok (s.setSlot i { s.slots i with publication := status })

/-- `note_data_dependency`. -/
def noteDataDependency (h : ℕ) (s : RevisionStore) : Result RevisionStore := do
  rejectIf (¬(h < n ∧ (s.slots h).committed ∧ ¬(s.slots h).detached)) (failure .staleGeneration)
  return s.setSlot h { s.slots h with dataDependency := true }

def detach (referenced : ℕ → Bool) (generation : ℕ) (s : RevisionStore) : Result RevisionStore := do
  rejectIf (generation ≤ s.generation) (failure .staleGeneration)
  let slots (i : ℕ) : Revision :=
    let r := s.slots i
    if i < n ∧ r.occupied then
      if r.committed then { r with detached := true } else { r with occupied := false }
    else r
  return collect n referenced { s with slots, current := none, generation, faulted := false }

end RevisionStore

end Vita.Context
