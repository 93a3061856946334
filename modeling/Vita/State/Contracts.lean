import Vita.Timing.Scheduling
import Mathlib.Data.Fin.VecNotation
import Mathlib.Data.Fintype.Basic
import Mathlib.Data.List.FinRange

/-!
# The controlled state (`state/contracts.hpp`)

A Controllee has eight state fields. A plan lists the fields a command changes, the order of their
effects and what each of them depends on; an outcome says what became of a field. The arrays of a plan
are maps of their index.
-/

namespace Vita.State

open Checked Timing

/-- `profiles::iq::Profile`. -/
inductive IqProfile where
  | generatorV1 | frequencyTunable | sdrRadio
deriving DecidableEq

inductive Validity where
  | absent | known | unknown
deriving DecidableEq

structure FieldState where
  id : FieldId
  value : SemanticValue := .word 0
  validity : Validity := .absent

/-- `state_fields`. -/
def stateField : Fin 8 → FieldId :=
  ![Field.referencePoint, Field.sampleRate, Field.stateEvent, Field.dataPayloadFormat,
    Field.rfReferenceFrequency, Field.bandwidth, Field.gain, Field.discreteIO32]

/-- `field_index`, with `none` for a field outside the state. -/
def fieldIndex (id : FieldId) : Option (Fin 8) := (List.finRange 8).find? fun i => stateField i = id

theorem fieldIndex_eq_some {id : FieldId} {i : Fin 8} : fieldIndex id = some i ↔ id = stateField i := by
  constructor
  · intro h
    unfold fieldIndex at h
    have hi : stateField i = id := by simpa using List.find?_some h
    exact hi.symm
  · rintro rfl
    revert i
    decide

structure StateSnapshot where
  version : ℕ := 0
  fields : Fin 8 → FieldState := fun i =>
    { id := stateField i
      value := ![.word 0, .hertz 0, .word 0, .payloadFormat 0, .hertz 0, .hertz 0, .gainStages ⟨0, 0⟩,
        .word 0] i }
  profile : IqProfile := .generatorV1

/-- The field has a known value. -/
def StateSnapshot.knows (s : StateSnapshot) (i : Fin 8) : Bool := (s.fields i).validity = .known

def activeStateFields : IqProfile → ℕ
  | .sdrRadio => 8
  | .frequencyTunable => 5
  | .generatorV1 => 4

/-- One hertz in Q20. -/
def hertzUnit : ℤ := 2 ^ 20

def minimumCenterHz : ℤ := 1000000

def maximumCenterHz : ℤ := 6000000000

/-- `std::get_if<Hertz>`. -/
def asHertz : SemanticValue → Option ℤ
  | .hertz q20 => some q20.toInt
  | _ => none

/-- `std::get_if<std::uint32_t>`. -/
def asWord : SemanticValue → Option UInt32
  | .word v => some v
  | _ => none

/-- `std::get_if<GainStages>`. -/
def asGain : SemanticValue → Option GainStages
  | .gainStages v => some v
  | _ => none

/-- The checks of one field of a snapshot. -/
def validateField (profile : IqProfile) (field : FieldState) (i : Fin 8) : Result Unit :=
  if i.val ≥ activeStateFields profile then
    rejectIf (field.validity ≠ .absent) (failure .unsupportedCapability)
  else do
    rejectIf (field.id ≠ stateField i) (failure .invalidArgument)
    if field.validity = .known then validateValue field.id field.value true else return ()
    rejectIf (i = 4 ∧ field.validity = .known ∧ ¬∃ q ∈ asHertz field.value,
      minimumCenterHz * hertzUnit ≤ q ∧ q ≤ maximumCenterHz * hertzUnit ∧
        (profile = .frequencyTunable → q % hertzUnit = 0)) (failure .invalidArgument)

/-- The values a radio may have. -/
def validateSdr (s : StateSnapshot) : Result Unit := do
  let known (i : Fin 8) (p : SemanticValue → Bool) : Bool := s.knows i → p (s.fields i).value
  let rate : Option ℤ := if s.knows 1 then asHertz (s.fields 1).value else none
  rejectIf (¬known 0 fun v => ∃ sid ∈ asWord v, 1 ≤ sid ∧ sid ≤ 4) (failure .invalidArgument)
  rejectIf (¬known 3 fun v => v = .payloadFormat 0x200003cf00000000) (failure .invalidArgument)
  rejectIf (¬known 1 fun v => ∃ q ∈ asHertz v,
    1000 * hertzUnit ≤ q ∧ q ≤ 2000000 * hertzUnit ∧ q % hertzUnit = 0) (failure .invalidArgument)
  rejectIf (¬known 5 fun v => ∃ q ∈ asHertz v,
    0 < q ∧ q ≤ 2000000 * hertzUnit ∧ ∀ r ∈ rate, q ≤ r) (failure .invalidArgument)
  rejectIf (¬known 6 fun v => ∃ g ∈ asGain v,
    g.stage2Q7 = 0 ∧ -60 * 128 ≤ g.stage1Q7.toInt ∧ g.stage1Q7.toInt ≤ 60 * 128)
    (failure .invalidArgument)
  rejectIf (¬known 7 fun v => ∃ w ∈ asWord v, w = 2 ∨ w = 3) (failure .invalidArgument)

def validateSnapshot (s : StateSnapshot) : Result Unit := do
  (List.finRange 8).forM fun i => validateField s.profile (s.fields i) i
  if s.profile = .sdrRadio then validateSdr s else return ()

structure Diagnostics where
  warnings : UInt32 := 0
  errors : UInt32 := 0
deriving DecidableEq

structure PlannedField where
  id : FieldId := ⟨0, 0⟩
  requested : SemanticValue := .word 0
  adjusted : SemanticValue := .word 0
  dependencyMask : BitVec 8 := 0
  eligible : Bool := false
  diagnostics : Diagnostics := {}
  timeKnown : Bool := false
  ordinalKnown : Bool := false

structure ExecutionPlan where
  fields : ℕ → PlannedField := fun _ => {}
  count : ℕ := 0
  order : ℕ → ℕ := fun _ => 0
  expectedStateVersion : ℕ := 0
  operation : ℕ := 0
  associationGeneration : ℕ := 0
  boundary : Boundary := {}

inductive FieldStatus where
  | pending | executed | failed | cancelled | unknownEffect | notExecuted
deriving DecidableEq

structure FieldOutcome where
  id : FieldId := ⟨0, 0⟩
  status : FieldStatus := .pending
  value : SemanticValue := .word 0
  validity : Validity := .absent
  actualTime : ProtocolTime := {}
  sampleOrdinal : ℕ := 0
  uncertaintyPs : ℕ := 0
  timeKnown : Bool := false
  ordinalKnown : Bool := false
  simulated : Bool := false
  diagnostics : Diagnostics := {}

structure EffectiveEvent where
  state : StateSnapshot := {}
  actualTime : ProtocolTime := {}
  sampleOrdinal : ℕ := 0
  sourceOperation : ℕ := 0
  associationGeneration : ℕ := 0
  changedMask : BitVec 8 := 0
  timeKnown : Bool := false
  ordinalKnown : Bool := false
  outcome : FieldOutcome := {}
  sampleEpoch : Option ProtocolTime := none

def EffectiveEvent.contextTime (e : EffectiveEvent) : ProtocolTime :=
  e.sampleEpoch.getD e.actualTime

end Vita.State
