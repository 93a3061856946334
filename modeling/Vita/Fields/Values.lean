import Vita.Fields.Registry
import Mathlib.Data.Fintype.Defs
import Mathlib.Data.Fintype.Basic

/-!
# Field values and their validation

The representations of `fields/types.hpp`, `fields/cif1.hpp`, `fields/cif2.hpp`, `fields/cif3.hpp`,
`fields/structured.hpp` and `fields/cif1_structured.hpp`, with the checks the builder and the encoder
make on them. A structured value is copied into the native arena of its packet and referenced by a
slice; the slice is modelled by the object it holds, with its spans as lists.
-/

namespace Vita

open Checked

/-- An error that reports only its code. -/
def failure (code : ErrorCode) : Error := { code := code }

/-! ## Scalars -/

structure DeviceIdentifierValue where
  oui : UInt32 := 0
  deviceCode : UInt16 := 0
deriving DecidableEq

structure GainStages where
  stage1Q7 : Int16 := 0
  stage2Q7 : Int16 := 0
deriving DecidableEq

structure PolarizationAngles where
  tiltQ7 : Int16 := 0
  ellipticityQ7 : Int16 := 0
deriving DecidableEq

structure PointingAngles where
  azimuthQ7 : UInt16 := 0
  elevationQ7 : Int16 := 0
deriving DecidableEq

structure SpatialReferenceValue where
  userId : UInt16 := 0
  reference : UInt8 := 0
  beam : UInt8 := 0
deriving DecidableEq

structure BeamWidthCode where
  horizontalCode : UInt16 := 0
  verticalCode : UInt16 := 0
deriving DecidableEq

/-- `OptionalQ7`: a value or "unknown". -/
abbrev OptionalQ7 := Option Int16

structure EbNoBerValue where
  ebnoQ7 : OptionalQ7 := none
  berQ7 : OptionalQ7 := none
deriving DecidableEq

structure ThresholdValue where
  stage1Q7 : Int16 := 0
  stage2Q7 : Int16 := 0
deriving DecidableEq

structure InterceptPointsValue where
  secondQ7 : OptionalQ7 := none
  thirdQ7 : OptionalQ7 := none
deriving DecidableEq

structure SnrNoiseFigureValue where
  snrQ7 : OptionalQ7 := none
  noiseFigureQ7 : OptionalQ7 := none
deriving DecidableEq

structure VersionBuildValue where
  yearSince2000 : UInt8 := 0
  day : UInt16 := 1
  revision : UInt8 := 0
  user : UInt16 := 0
deriving DecidableEq

structure BufferSizeValue where
  capacityBytes : UInt32 := 0
  level : UInt8 := 0
  status : UInt8 := 0
deriving DecidableEq

structure CountryCodeValue where
  code : UInt16 := 0
  iso3166 : Bool := false
deriving DecidableEq

structure EmsDeviceClassValue where
  classCode : UInt16 := 0
  organization : UInt8 := 0
  exciter : Bool := false
  receiver : Bool := false
deriving DecidableEq

structure SeaSwellValue where
  sea : UInt8 := 0
  swell : UInt8 := 0
  user : UInt8 := 0
deriving DecidableEq

structure TimestampDetailsValue where
  flags : UInt32 := 0
  epoch : UInt32 := 0
deriving DecidableEq

structure ProbabilityCode where
  value : UInt8 := 0
  function : UInt8 := 0
deriving DecidableEq

/-! ## Structures -/

structure TimestampFormatBinding where
  tsi : UInt8 := 0
  tsf : UInt8 := 0
  bound : Bool := false
deriving DecidableEq

structure StateDurationValue where
  fractional : UInt64 := 0
  seconds : UInt32 := 0
  tsi : UInt8 := 0
  tsf : UInt8 := 0
deriving DecidableEq

structure UuidValue where
  words : Fin 4 → UInt32 := fun _ => 0
deriving DecidableEq

structure EmbeddedFixTime where
  tsi : UInt8 := 0
  tsf : UInt8 := 0
  seconds : UInt32 := 0xffffffff
  fractional : UInt64 := 0xffffffffffffffff
deriving DecidableEq

structure GeolocationValue where
  oui : UInt32 := 0xffffff
  fix : EmbeddedFixTime := {}
  latitudeQ22 : Option Int32 := none
  longitudeQ22 : Option Int32 := none
  altitudeQ5 : Option Int32 := none
  speedQ16 : Option Int32 := none
  headingQ22 : Option Int32 := none
  trackQ22 : Option Int32 := none
  magneticVariationQ22 : Option Int32 := none
deriving DecidableEq

structure EphemerisValue where
  oui : UInt32 := 0xffffff
  fix : EmbeddedFixTime := {}
  positionQ5 : Fin 3 → Option Int32 := fun _ => none
  attitudeQ22 : Fin 3 → Option Int32 := fun _ => none
  velocityQ16 : Fin 3 → Option Int32 := fun _ => none
deriving DecidableEq

/-- The stored part of `GpsAsciiInput`; the sentence validator is not stored. -/
structure GpsAsciiValue where
  oui : UInt32 := 0xffffff
  text : Bytes := []
deriving DecidableEq

structure AssociationLists where
  source : List UInt32 := []
  system : List UInt32 := []
  vector : List UInt32 := []
  asynchronous : List UInt32 := []
  tags : List UInt32 := []
  tagsPresent : Bool := false
deriving DecidableEq

structure IndexListValue where
  entryBytes : UInt8 := 4
  entries : List UInt32 := []
deriving DecidableEq

structure PointingReference where
  index : UInt16 := 0
  reference : UInt8 := 0
  beam : UInt8 := 0
deriving DecidableEq

structure PointingVectorRecord where
  vector : PointingAngles := {}
  reference : Option PointingReference := none
deriving DecidableEq

structure PointingVectorValue where
  global : Option PointingReference := none
  recordReference : Bool := false
  records : List PointingVectorRecord := []
deriving DecidableEq

structure SpectrumValue where
  spectrumType : UInt8 := 0
  averaging : UInt8 := 0
  deltaKind : UInt8 := 0
  windowType : UInt32 := 0
  transformPoints : UInt32 := 0
  windowPoints : UInt32 := 0
  resolutionQ20 : Int64 := 0
  spanQ20 : Int64 := 0
  averages : UInt32 := 0
  weightingRaw : UInt32 := 0
  f1Index : Int32 := 0
  f2Index : Int32 := 0
  deltaRaw : UInt32 := 0
deriving DecidableEq

structure SectorStartTime where
  fractional : UInt64 := 0
  seconds : UInt32 := 0
  tsi : UInt8 := 0
  tsf : UInt8 := 0
deriving DecidableEq

structure SectorRecord where
  sector : UInt32 := 0
  f1Q20 : Int64 := 0
  f2Q20 : Option Int64 := none
  bandwidthQ20 : Option Int64 := none
  stepQ20 : Option Int64 := none
  points : Option UInt32 := none
  gainQ7 : Option (Int16 × Int16) := none
  thresholdQ7 : Option (Int16 × Int16) := none
  dwellFs : Option Int64 := none
  start : Option SectorStartTime := none
  time3Fs : Option Int64 := none
  time4Fs : Option Int64 := none
deriving DecidableEq

structure SectorStepScanValue where
  selectors : UInt32 := 0xc0000000
  startFormat : TimestampFormatBinding := {}
  records : List SectorRecord := []
deriving DecidableEq

/-- A structured value in a packet's native arena. -/
inductive NativeValue where
  | geolocation (v : GeolocationValue)
  | ephemeris (v : EphemerisValue)
  | gpsAscii (v : GpsAsciiValue)
  | associations (v : AssociationLists)
  | uuid (v : UuidValue)
  | duration (v : StateDurationValue)
  | indices (v : IndexListValue)
  | pointing (v : PointingVectorValue)
  | spectrum (v : SpectrumValue)
  | sectors (v : SectorStepScanValue)
deriving DecidableEq

inductive SemanticValue where
  | word (v : UInt32)
  | hertz (q20 : Int64)
  | payloadFormat (bits : UInt64)
  | decibels (q7 : Int16)
  | gainStages (v : GainStages)
  | femtoseconds (count : Int64)
  | celsius (q6 : Int16)
  | deviceIdentifier (v : DeviceIdentifierValue)
  | native (v : NativeValue)
  | radians (q7 : Int16)
  | polarization (v : PolarizationAngles)
  | pointing (v : PointingAngles)
  | spatialReference (v : SpatialReferenceValue)
  | beamWidth (v : BeamWidthCode)
  | metres (q6 : UInt32)
  | ebNoBer (v : EbNoBerValue)
  | threshold (v : ThresholdValue)
  | interceptPoints (v : InterceptPointsValue)
  | snrNoiseFigure (v : SnrNoiseFigureValue)
  | unsigned64 (bits : UInt64)
  | versionBuild (v : VersionBuildValue)
  | bufferSize (v : BufferSizeValue)
  | countryCode (v : CountryCodeValue)
  | emsDeviceClass (v : EmsDeviceClassValue)
  | humidity (raw : UInt16)
  | barometricPressure (raw17 : UInt32)
  | seaSwell (v : SeaSwellValue)
  | timestampDetails (v : TimestampDetailsValue)
  | probability (v : ProbabilityCode)
  | belief (v : UInt8)
deriving DecidableEq

def SemanticValue.kind : SemanticValue → ValueKind
  | .word _ => .word
  | .hertz _ => .hertz
  | .payloadFormat _ => .payloadFormat
  | .decibels _ => .decibels
  | .gainStages _ => .gainStages
  | .femtoseconds _ => .femtoseconds
  | .celsius _ => .celsius
  | .deviceIdentifier _ => .deviceIdentifier
  | .native _ => .native
  | .radians _ => .radians
  | .polarization _ => .polarization
  | .pointing _ => .pointing
  | .spatialReference _ => .spatialReference
  | .beamWidth _ => .beamWidth
  | .metres _ => .metres
  | .ebNoBer _ => .ebNoBer
  | .threshold _ => .threshold
  | .interceptPoints _ => .interceptPoints
  | .snrNoiseFigure _ => .snrNoiseFigure
  | .unsigned64 _ => .unsigned64
  | .versionBuild _ => .versionBuild
  | .bufferSize _ => .bufferSize
  | .countryCode _ => .countryCode
  | .emsDeviceClass _ => .emsDeviceClass
  | .humidity _ => .humidity
  | .barometricPressure _ => .barometricPressure
  | .seaSwell _ => .seaSwell
  | .timestampDetails _ => .timestampDetails
  | .probability _ => .probability
  | .belief _ => .belief

/-! ## Validation of scalars -/

/-- `validate_timestamp_details_intrinsic`. -/
def validateTimestampDetailsIntrinsic (v : TimestampDetailsValue) : Result Unit :=
  let leapHandling := Words.bits v.flags 14 2
  let leapPrediction := Words.bits v.flags 12 2
  rejectIf (v.flags &&& 0x00f80000 ≠ 0 ∨
    leapHandling = 0 ∧ leapPrediction ≠ 0 ∧ leapPrediction ≠ 2) (failure .invalidArgument)

/-- The wire code of "unknown" in the Q7 pairs. -/
def nonsentinel (v : OptionalQ7) : Bool := v ≠ some 0x7fff

/-- The checks of `validate_value` that depend on the field, by the alternative the value holds. All
of them report the same error, so their order does not show. -/
def validateContent (id : FieldId) (value : SemanticValue) (current : Bool) : Result Unit :=
  let invalid := failure .invalidArgument
  match value with
  | .word v => do
    rejectIf ((id = Field.spatialScanType ∨ id = Field.healthStatus ∨ id = Field.troposphericState ∨
      cif2Generic16Field id) ∧ v > 0xffff) invalid
    rejectIf (current ∧ id = Field.v49SpecCompliance ∧ (v < 1 ∨ v > 4)) invalid
    rejectIf (current ∧ id = Field.bind ∧ v > 1) invalid
  | .hertz q20 =>
    rejectIf (current ∧ (id = Field.sampleRate ∨ id = Field.bandwidth ∨
      id = Field.auxiliaryBandwidth) ∧ q20 < 0) invalid
  | .celsius q6 =>
    rejectIf (current ∧ (id = Field.temperature ∨ id = Field.airTemperature ∨
      id = Field.seaGroundTemperature) ∧ q6 < -17481) invalid
  | .deviceIdentifier v => rejectIf (id = Field.deviceIdentifier ∧ v.oui > 0xffffff) invalid
  | .pointing v =>
    rejectIf (current ∧ id = Field.pointingVector3D ∧
      (v.elevationQ7 < -11520 ∨ v.elevationQ7 > 11520)) invalid
  | .spatialReference v =>
    rejectIf (id = Field.spatialReferenceType ∧ (v.reference > 3 ∨ v.beam > 2)) invalid
  | .ebNoBer v =>
    rejectIf (id = Field.ebNoBer ∧ (¬nonsentinel v.ebnoQ7 ∨ ¬nonsentinel v.berQ7 ∨
      current ∧ ∃ b ∈ v.berQ7, b > 0)) invalid
  | .interceptPoints v =>
    rejectIf (id = Field.interceptPoints ∧ (¬nonsentinel v.secondQ7 ∨ ¬nonsentinel v.thirdQ7)) invalid
  | .snrNoiseFigure v =>
    rejectIf (id = Field.snrNoiseFigure ∧ (¬nonsentinel v.snrQ7 ∨
      current ∧ ∃ n ∈ v.noiseFigureQ7, n ≤ 0)) invalid
  | .versionBuild v =>
    rejectIf (id = Field.versionBuild ∧ (v.yearSince2000 > 127 ∨
      (if current then v.day < 1 ∨ v.day > 366 else v.day > 511) ∨ v.revision > 63 ∨
      v.user > 1023)) invalid
  | .countryCode v => rejectIf (id = Field.countryCode ∧ v.code > 0x7ff) invalid
  | .emsDeviceClass v =>
    rejectIf (id = Field.emsDeviceClass ∧ (v.classCode > 0xfff ∨ v.organization > 2)) invalid
  | .femtoseconds count =>
    rejectIf (current ∧ id.cif = 3 ∧ (id.bit = 27 ∨ id.bit = 26 ∨ 20 ≤ id.bit ∧ id.bit ≤ 24) ∧
      count < 0) invalid
  | .barometricPressure raw17 => rejectIf (id = Field.barometricPressure ∧ raw17 > 0x1ffff) invalid
  | .seaSwell v =>
    let limit := if current then 9 else 31
    rejectIf (id = Field.seaSwellState ∧ (v.sea > limit ∨ v.swell > limit ∨ v.user > 63)) invalid
  | .timestampDetails v =>
    if current ∧ id = Field.timestampDetails then validateTimestampDetailsIntrinsic v else return ()
  | _ => return ()

def validateValue (id : FieldId) (value : SemanticValue) (current : Bool) : Result Unit := do
  rejectIf (value.kind = .native) (failure .invalidArgument)
  match descriptor id with
  | none => throw (failure .unsupportedLayout)
  | some d =>
    rejectIf (value.kind ≠ d.kind) (failure .invalidArgument)
    validateContent id value current

def validateAttributeValue (id : FieldId) (attr : Attribute) (value : SemanticValue) :
    Result Unit := do
  rejectIf (descriptor id = none) (failure .unsupportedLayout)
  rejectIf (value.kind = .native) (failure .invalidArgument)
  match attr with
  | .probability => rejectIf (value.kind ≠ .probability) (failure .invalidArgument)
  | .belief => rejectIf (value.kind ≠ .belief) (failure .invalidArgument)
  | _ => validateValue id value (attr = .current ∨
      id = Field.sampleRate ∧ (attr = .minimum ∨ attr = .maximum))

end Vita
