import Vita.State.Contracts
import Vita.Codec.Wire

/-!
# Control and acknowledge masks, value checks (`transaction/cam.hpp`, `profiles/iq/sdr.hpp`)

The CAM word of a command, the diagnostic bits, and the checks that a profile makes on a requested
value. A radio may further restrict its values by `SdrCapabilities`.
-/

namespace Vita.Transaction

open Checked Timing State Codec Words

/-! ## Diagnostics -/

def notExecuted : UInt32 := 0x80000000
def deviceFailure : UInt32 := 0x40000000
def unsupported : UInt32 := 0x20000000
def rangeError : UInt32 := 0x10000000
def precision : UInt32 := 0x08000000
def invalidValue : UInt32 := 0x04000000
def timingError : UInt32 := 0x02000000
def resourceExhausted : UInt32 := 0x00000002
def dependencyBlocked : UInt32 := 0x00000004
def stateIndeterminate : UInt32 := 0x00000008

/-- Further error bits. -/
def addErrors (d : Diagnostics) (errors : UInt32) : Diagnostics := { d with errors := d.errors ||| errors }

def markNotExecuted (d : Diagnostics) : Diagnostics :=
  if d.warnings ≠ 0 ∧ d.errors = 0 then { d with warnings := d.warnings ||| notExecuted }
  else addErrors d notExecuted

/-! ## The mask of a command -/

/-- `transaction::Profile`. -/
inductive Profile where
  | iqGeneratorV1 | genericVirtualTest | iqFrequencyTunable | sdrRadio
deriving DecidableEq

structure Cam where
  raw : UInt32 := 0
  action : ℕ := 0
  timing : ℕ := 0
  partialAllowed : Bool := false
  allowWarning : Bool := false
  allowError : Bool := false
  nack : Bool := false
  requestV : Bool := false
  requestX : Bool := false
  requestS : Bool := false
  detailWarning : Bool := false
  detailError : Bool := false
deriving DecidableEq

def Cam.parse (e : Envelope) (profile : Profile) : Result Cam :=
  match e.command with
  | none => throw (failure .invalidArgument)
  | some command => do
    rejectIf (e.type ≠ .command ∨ e.ack ∨ e.cancel) (failure .invalidArgument)
    validateCam e command.cam
    let raw := command.cam
    let c : Cam :=
      { raw, action := bits raw 23 2, timing := bits raw 12 3, partialAllowed := bit raw 27
        allowWarning := bit raw 26, allowError := bit raw 25, nack := bit raw 22
        requestV := bit raw 20, requestX := bit raw 19, requestS := bit raw 18
        detailWarning := bit raw 17, detailError := bit raw 16 }
    rejectIf (profile ≠ .genericVirtualTest ∧ c.action = 2 ∧ c.requestS ∧ ¬c.requestX)
      (failure .unsupportedCapability)
    return c

def eligible (cam : Cam) (d : Diagnostics) (resolvable : Bool) : Bool :=
  resolvable ∧ (d.warnings = 0 ∨ cam.allowWarning) ∧ (d.errors = 0 ∨ cam.allowError)

inductive AckKind where
  | validation | execution | state
deriving DecidableEq

/-- The command asks for this kind of acknowledgement. -/
def Cam.requests (cam : Cam) : AckKind → Bool
  | .validation => cam.requestV
  | .execution => cam.requestX
  | .state => cam.requestS

def shouldEmit (cam : Cam) (kind : AckKind) (summary : Diagnostics) : Bool :=
  cam.requests kind ∧ (kind = .state ∨ ¬cam.nack ∨ summary.warnings ≠ 0 ∨ summary.errors ≠ 0)

/-! ## Value checks -/

structure Validation where
  adjusted : SemanticValue := .word 0
  diagnostics : Diagnostics := {}
  resolvable : Bool := true
  dependencies : BitVec 8 := 0

/-- The check found the errors: nothing can be executed. -/
def Validation.refuse (v : Validation) (errors : UInt32) : Validation :=
  { v with resolvable := false, diagnostics := addErrors v.diagnostics errors }

def iqValidate (id : FieldId) (value : SemanticValue) : Validation :=
  let out : Validation := { adjusted := value }
  if id ≠ Field.sampleRate then out.refuse unsupported
  else match asHertz value with
    | none => out.refuse invalidValue
    | some q =>
      if q < hertzUnit ∨ q > 100000000 * hertzUnit then out.refuse rangeError
      else
        let integer := q / hertzUnit
        let remainder := q % hertzUnit
        if remainder = 0 then out
        else
          -- to the nearest integer, halves to the even one
          let up := remainder > hertzUnit / 2 ∨ remainder = hertzUnit / 2 ∧ integer % 2 = 1
          { out with adjusted := .hertz (Int64.ofInt ((if up then integer + 1 else integer) * hertzUnit))
                     diagnostics := { warnings := precision } }

def tunableValidate (id : FieldId) (value : SemanticValue) : Validation :=
  let out : Validation := { adjusted := value }
  if id ≠ Field.rfReferenceFrequency then out.refuse unsupported
  else if ∃ q ∈ asHertz value, minimumCenterHz * hertzUnit ≤ q ∧ q ≤ maximumCenterHz * hertzUnit ∧
      q % hertzUnit = 0 then out
  else out.refuse rangeError

/-- A frequency of a radio field in a range. -/
def checkHertz (value : SemanticValue) (inRange : ℤ → Bool) : Validation :=
  let out : Validation := { adjusted := value }
  match asHertz value with
  | none => out.refuse invalidValue
  | some q => if inRange q then out else out.refuse rangeError

def sdrValidate (id : FieldId) (value : SemanticValue) : Validation :=
  let out : Validation := { adjusted := value }
  if id = Field.sampleRate then
    match asHertz value with
    | none => out.refuse invalidValue
    | some q =>
      if q < 1000 * hertzUnit ∨ q > 2000000 * hertzUnit then out.refuse rangeError
      else if q % hertzUnit ≠ 0 then
        { out with resolvable := false, diagnostics := { warnings := precision } }
      else out
  else if id = Field.rfReferenceFrequency then
    checkHertz value fun q => minimumCenterHz * hertzUnit ≤ q ∧ q ≤ maximumCenterHz * hertzUnit
  else if id = Field.bandwidth then
    checkHertz value fun q => 0 < q ∧ q ≤ 2000000 * hertzUnit
  else if id = Field.gain then
    match asGain value with
    | none => out.refuse invalidValue
    | some g =>
      if g.stage2Q7 ≠ 0 then out.refuse invalidValue
      else if g.stage1Q7.toInt < -60 * 128 ∨ g.stage1Q7.toInt > 60 * 128 then out.refuse rangeError
      else out
  else if id = Field.discreteIO32 then
    if ∃ w ∈ asWord value, w = 2 ∨ w = 3 then out else out.refuse invalidValue
  else out.refuse unsupported

/-! ## Capabilities of a radio -/

/-- `SupportedValues`: a grid and, if `choices` is not empty, the values on it. -/
structure SupportedValues where
  step : ℤ := 0
  origin : ℤ := 0
  choices : List ℤ := []

namespace SupportedValues

def onGrid (s : SupportedValues) (value : ℤ) : Bool :=
  if s.step ≤ 0 then s.step = 0 else value % s.step = s.origin % s.step

def valid (s : SupportedValues) : Bool :=
  s.step ≥ 0 ∧ s.choices.length ≤ 16 ∧ (∀ v ∈ s.choices, s.onGrid v) ∧ s.choices.Nodup

def accepts (s : SupportedValues) (value : ℤ) : Bool :=
  s.valid ∧ s.onGrid value ∧ (s.choices = [] ∨ value ∈ s.choices)

end SupportedValues

structure SdrCapabilities where
  centerFrequency : ℤ × ℤ := (minimumCenterHz * hertzUnit, maximumCenterHz * hertzUnit)
  sampleRate : ℤ × ℤ := (1000 * hertzUnit, 2000000 * hertzUnit)
  bandwidth : ℤ × ℤ := (hertzUnit, 2000000 * hertzUnit)
  gain : GainStages × GainStages := (⟨-7680, 0⟩, ⟨7680, 0⟩)
  centerValues : SupportedValues := {}
  sampleRateValues : SupportedValues := { step := hertzUnit }
  bandwidthValues : SupportedValues := {}
  gainValues : SupportedValues := {}
  bandwidthSupported : Option (ℤ → ℤ → Bool) := none

namespace SdrCapabilities

def inRange (range : ℤ × ℤ) (values : SupportedValues) (q : ℤ) : Bool :=
  values.accepts q ∧ range.1 ≤ q ∧ q ≤ range.2

def supports (c : SdrCapabilities) (requestedBandwidth requestedRate : ℤ) : Bool :=
  requestedBandwidth ≤ requestedRate ∧ inRange c.bandwidth c.bandwidthValues requestedBandwidth ∧
    inRange c.sampleRate c.sampleRateValues requestedRate ∧
    ∀ f ∈ c.bandwidthSupported, f requestedBandwidth requestedRate

/-- The device can take the requested value of a field. -/
def accepts (c : SdrCapabilities) (id : FieldId) (value : SemanticValue) : Bool :=
  if id = Field.rfReferenceFrequency then
    ∃ q ∈ asHertz value, inRange c.centerFrequency c.centerValues q
  else if id = Field.sampleRate then
    ∃ q ∈ asHertz value, inRange c.sampleRate c.sampleRateValues q
  else if id = Field.bandwidth then
    ∃ q ∈ asHertz value, inRange c.bandwidth c.bandwidthValues q
  else if id = Field.gain then
    ∃ g ∈ asGain value, c.gainValues.accepts g.stage1Q7.toInt ∧
      c.gain.1.stage1Q7 ≤ g.stage1Q7 ∧ g.stage1Q7 ≤ c.gain.2.stage1Q7 ∧
      c.gain.1.stage2Q7 ≤ g.stage2Q7 ∧ g.stage2Q7 ≤ c.gain.2.stage2Q7
  else true

end SdrCapabilities

def sdrCapabilityField (id : FieldId) : Bool :=
  id = Field.rfReferenceFrequency ∨ id = Field.sampleRate ∨ id = Field.bandwidth ∨ id = Field.gain

end Vita.Transaction
