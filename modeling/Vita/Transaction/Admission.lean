import Vita.Core.Error
import Vita.Fields.Values
import Mathlib.Logic.Function.Basic

/-!
# Admission credits (`execution/admission.hpp`)

A pool counts credits of every resource. A bundle holds some of them until it is reset; part of it can
be transferred to a longer-lived owner. A bundle that has been reset or moved from is `none`.
-/

namespace Vita.Transaction

open Checked

inductive Resource where
  | transaction | planBytes | schedule | revision | completion | response | duplicateEntry
  | duplicateBytes | contextPublication | ordinaryQueue | cancellationQueue | cancellationResponse
  | emergencyResponse | dataQueue
deriving DecidableEq

def Resource.all : List Resource :=
  [.transaction, .planBytes, .schedule, .revision, .completion, .response, .duplicateEntry,
    .duplicateBytes, .contextPublication, .ordinaryQueue, .cancellationQueue, .cancellationResponse,
    .emergencyResponse, .dataQueue]

/-- `AdmissionRequest`; the named resources are valid by their type. -/
abbrev AdmissionRequest := Resource → ℕ

namespace AdmissionRequest

def none : AdmissionRequest := fun _ => 0

def need (r : AdmissionRequest) (resource : Resource) (n : ℕ) : AdmissionRequest :=
  Function.update r resource n

/-- The resource is needed only under a condition. -/
def needIf (r : AdmissionRequest) (c : Bool) (resource : Resource) (n : ℕ) : AdmissionRequest :=
  if c then r.need resource n else r

end AdmissionRequest

/-- `AdmissionBundle`: the credits held. -/
abbrev AdmissionBundle := Option AdmissionRequest

namespace AdmissionBundle

def held (b : AdmissionBundle) (r : Resource) : ℕ := b.elim 0 fun h => h r

/-- `transfer`, with the credits split off and those that remain. -/
def transfer (b : AdmissionBundle) (request : AdmissionRequest) :
    Result (AdmissionBundle × AdmissionBundle) :=
  match b with
  | .none => throw (failure .invalidState)
  | some h => do
    rejectIf (∃ r ∈ Resource.all, request r > h r) (failure .invalidArgument)
    return (some request, some fun r => h r - request r)

end AdmissionBundle

structure AdmissionPool where
  capacities : AdmissionRequest
  used : AdmissionRequest := .none
  isOpen : Bool := true

namespace AdmissionPool

def acquire (p : AdmissionPool) (request : AdmissionRequest) :
    Result (AdmissionBundle × AdmissionPool) := do
  rejectIf (¬p.isOpen) (failure .invalidState)
  rejectIf (∃ r ∈ Resource.all, request r > p.capacities r - p.used r) (failure .capacityExhausted)
  return (some request, { p with used := fun r => p.used r + request r })

/-- `AdmissionBundle::reset` or its destruction. -/
def reset (p : AdmissionPool) (b : AdmissionBundle) : AdmissionPool :=
  match b with
  | none => p
  | some h => { p with used := fun r => p.used r - h r }

end AdmissionPool

end Vita.Transaction
