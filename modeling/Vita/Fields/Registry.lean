import Vita.Core.Error

/-!
# The field registry (`fields/types.hpp`)

A field is named by its CIF word and its bit in that word. The registry gives each field its fixed
extent in words (zero for the fields whose extent is on the wire) and the representation of its
values. `ValueKind` lists the alternatives of the C++ variant `SemanticValue` in their order.
-/

namespace Vita

structure FieldId where
  cif : ℕ := 0
  bit : ℕ := 0
deriving DecidableEq, Repr

/-- The alternatives of `SemanticValue`; `native` is a value held by the packet's native arena. -/
inductive ValueKind where
  | word | hertz | payloadFormat | decibels | gainStages | femtoseconds | celsius
  | deviceIdentifier | native | radians | polarization | pointing | spatialReference | beamWidth
  | metres | ebNoBer | threshold | interceptPoints | snrNoiseFigure | unsigned64 | versionBuild
  | bufferSize | countryCode | emsDeviceClass | humidity | barometricPressure | seaSwell
  | timestampDetails | probability | belief
deriving DecidableEq, Repr

/-! ## Field identifiers -/

namespace Field

def referencePoint : FieldId := ⟨0, 30⟩
def bandwidth : FieldId := ⟨0, 29⟩
def ifReferenceFrequency : FieldId := ⟨0, 28⟩
def rfReferenceFrequency : FieldId := ⟨0, 27⟩
def rfReferenceFrequencyOffset : FieldId := ⟨0, 26⟩
def ifBandOffset : FieldId := ⟨0, 25⟩
def referenceLevel : FieldId := ⟨0, 24⟩
def gain : FieldId := ⟨0, 23⟩
def overRangeCount : FieldId := ⟨0, 22⟩
def sampleRate : FieldId := ⟨0, 21⟩
def timestampAdjustment : FieldId := ⟨0, 20⟩
def timestampCalibrationTime : FieldId := ⟨0, 19⟩
def temperature : FieldId := ⟨0, 18⟩
def deviceIdentifier : FieldId := ⟨0, 17⟩
def stateEvent : FieldId := ⟨0, 16⟩
def dataPayloadFormat : FieldId := ⟨0, 15⟩
def formattedGps : FieldId := ⟨0, 14⟩
def formattedIns : FieldId := ⟨0, 13⟩
def ecefEphemeris : FieldId := ⟨0, 12⟩
def relativeEphemeris : FieldId := ⟨0, 11⟩
def ephemerisReferenceId : FieldId := ⟨0, 10⟩
def gpsAscii : FieldId := ⟨0, 9⟩
def contextAssociationLists : FieldId := ⟨0, 8⟩
def phaseOffset : FieldId := ⟨1, 31⟩
def polarization : FieldId := ⟨1, 30⟩
def pointingVector3D : FieldId := ⟨1, 29⟩
def pointingVectorStructure : FieldId := ⟨1, 28⟩
def spatialScanType : FieldId := ⟨1, 27⟩
def spatialReferenceType : FieldId := ⟨1, 26⟩
def beamWidth : FieldId := ⟨1, 25⟩
def range : FieldId := ⟨1, 24⟩
def ebNoBer : FieldId := ⟨1, 20⟩
def threshold : FieldId := ⟨1, 19⟩
def compressionPoint : FieldId := ⟨1, 18⟩
def interceptPoints : FieldId := ⟨1, 17⟩
def snrNoiseFigure : FieldId := ⟨1, 16⟩
def auxiliaryFrequency : FieldId := ⟨1, 15⟩
def auxiliaryGain : FieldId := ⟨1, 14⟩
def auxiliaryBandwidth : FieldId := ⟨1, 13⟩
def spectrum : FieldId := ⟨1, 10⟩
def sectorStepScan : FieldId := ⟨1, 9⟩
def indexList : FieldId := ⟨1, 7⟩
def discreteIO32 : FieldId := ⟨1, 6⟩
def discreteIO64 : FieldId := ⟨1, 5⟩
def healthStatus : FieldId := ⟨1, 4⟩
def v49SpecCompliance : FieldId := ⟨1, 3⟩
def versionBuild : FieldId := ⟨1, 2⟩
def bufferSize : FieldId := ⟨1, 1⟩
def bind : FieldId := ⟨2, 31⟩
def citedSid : FieldId := ⟨2, 30⟩
def siblingSid : FieldId := ⟨2, 29⟩
def parentSid : FieldId := ⟨2, 28⟩
def childSid : FieldId := ⟨2, 27⟩
def citedMessageId : FieldId := ⟨2, 26⟩
def controlleeId : FieldId := ⟨2, 25⟩
def controlleeUuid : FieldId := ⟨2, 24⟩
def controllerId : FieldId := ⟨2, 23⟩
def controllerUuid : FieldId := ⟨2, 22⟩
def informationSource : FieldId := ⟨2, 21⟩
def trackId : FieldId := ⟨2, 20⟩
def countryCode : FieldId := ⟨2, 19⟩
def operatorId : FieldId := ⟨2, 18⟩
def platformClass : FieldId := ⟨2, 17⟩
def platformInstance : FieldId := ⟨2, 16⟩
def platformDisplay : FieldId := ⟨2, 15⟩
def emsDeviceClass : FieldId := ⟨2, 14⟩
def emsDeviceType : FieldId := ⟨2, 13⟩
def emsDeviceInstance : FieldId := ⟨2, 12⟩
def modulationClass : FieldId := ⟨2, 11⟩
def modulationType : FieldId := ⟨2, 10⟩
def functionId : FieldId := ⟨2, 9⟩
def modeId : FieldId := ⟨2, 8⟩
def eventId : FieldId := ⟨2, 7⟩
def functionPriority : FieldId := ⟨2, 6⟩
def communicationPriority : FieldId := ⟨2, 5⟩
def rfFootprint : FieldId := ⟨2, 4⟩
def rfFootprintRange : FieldId := ⟨2, 3⟩
def timestampDetails : FieldId := ⟨3, 31⟩
def timestampSkew : FieldId := ⟨3, 30⟩
def riseTime : FieldId := ⟨3, 27⟩
def fallTime : FieldId := ⟨3, 26⟩
def offsetTime : FieldId := ⟨3, 25⟩
def pulseWidth : FieldId := ⟨3, 24⟩
def period : FieldId := ⟨3, 23⟩
def duration : FieldId := ⟨3, 22⟩
def dwell : FieldId := ⟨3, 21⟩
def jitter : FieldId := ⟨3, 20⟩
def age : FieldId := ⟨3, 17⟩
def shelfLife : FieldId := ⟨3, 16⟩
def airTemperature : FieldId := ⟨3, 7⟩
def seaGroundTemperature : FieldId := ⟨3, 6⟩
def humidity : FieldId := ⟨3, 5⟩
def barometricPressure : FieldId := ⟨3, 4⟩
def seaSwellState : FieldId := ⟨3, 3⟩
def troposphericState : FieldId := ⟨3, 2⟩
def networkId : FieldId := ⟨3, 1⟩

end Field

/-! ## Attributes -/

inductive Attribute where
  | current | average | median | standardDeviation | maximum | minimum | precision | accuracy
  | firstDerivative | secondDerivative | thirdDerivative | probability | belief
deriving DecidableEq, Repr

namespace Attribute

/-- The attributes in the order of their codes. -/
def all : List Attribute :=
  [current, average, median, standardDeviation, maximum, minimum, precision, accuracy,
    firstDerivative, secondDerivative, thirdDerivative, probability, belief]

def index : Attribute → ℕ
  | current => 0
  | average => 1
  | median => 2
  | standardDeviation => 3
  | maximum => 4
  | minimum => 5
  | precision => 6
  | accuracy => 7
  | firstDerivative => 8
  | secondDerivative => 9
  | thirdDerivative => 10
  | probability => 11
  | belief => 12

/-- `attribute_bit`: the attribute's bit in CIF7. -/
def bit (a : Attribute) : UInt32 := (1 : UInt32) <<< UInt32.ofNat (31 - a.index)

/-- The attribute is selected by a CIF7 word. -/
def selectedBy (a : Attribute) (mask : UInt32) : Bool := Words.bit mask (31 - a.index)

/-- The attributes other than probability and belief have the representation of the field. -/
def base (a : Attribute) : Bool := a.index < 11

end Attribute

def allAttributes : UInt32 := 0xfff80000

/-- A zero attribute word means the current value alone. -/
def effectiveAttributes (attributes : UInt32) : UInt32 :=
  if attributes ≠ 0 then attributes else Attribute.current.bit

/-- The attributes that a CIF7 word (or its absence) selects, in ascending order. -/
def selectedAttributes (attributes : UInt32) : List Attribute :=
  Attribute.all.filter (·.selectedBy (effectiveAttributes attributes))

/-! ## Descriptors -/

structure FieldDescriptor where
  id : FieldId
  words : ℕ
  kind : ValueKind
  attributes : UInt32 := allAttributes
deriving DecidableEq, Repr

def baselineDescriptors : List FieldDescriptor :=
  [⟨Field.referencePoint, 1, .word, allAttributes⟩,
    ⟨Field.sampleRate, 2, .hertz, allAttributes⟩,
    ⟨Field.stateEvent, 1, .word, allAttributes⟩,
    ⟨Field.dataPayloadFormat, 2, .payloadFormat, allAttributes⟩]

def scalarDescriptors : List FieldDescriptor :=
  [⟨Field.bandwidth, 2, .hertz, allAttributes⟩,
    ⟨Field.ifReferenceFrequency, 2, .hertz, allAttributes⟩,
    ⟨Field.rfReferenceFrequency, 2, .hertz, allAttributes⟩,
    ⟨Field.rfReferenceFrequencyOffset, 2, .hertz, allAttributes⟩,
    ⟨Field.ifBandOffset, 2, .hertz, allAttributes⟩,
    ⟨Field.referenceLevel, 1, .decibels, allAttributes⟩,
    ⟨Field.gain, 1, .gainStages, allAttributes⟩,
    ⟨Field.overRangeCount, 1, .word, allAttributes⟩,
    ⟨Field.timestampAdjustment, 2, .femtoseconds, allAttributes⟩,
    ⟨Field.timestampCalibrationTime, 1, .word, allAttributes⟩,
    ⟨Field.temperature, 1, .celsius, allAttributes⟩,
    ⟨Field.deviceIdentifier, 2, .deviceIdentifier, allAttributes⟩,
    ⟨Field.ephemerisReferenceId, 1, .word, allAttributes⟩]

def structuredDescriptors : List FieldDescriptor :=
  [⟨Field.formattedGps, 11, .native, allAttributes⟩,
    ⟨Field.formattedIns, 11, .native, allAttributes⟩,
    ⟨Field.ecefEphemeris, 13, .native, allAttributes⟩,
    ⟨Field.relativeEphemeris, 13, .native, allAttributes⟩,
    ⟨Field.gpsAscii, 0, .native, allAttributes⟩,
    ⟨Field.contextAssociationLists, 0, .native, allAttributes⟩]

def cif1FixedDescriptors : List FieldDescriptor :=
  [⟨Field.phaseOffset, 1, .radians, allAttributes⟩,
    ⟨Field.polarization, 1, .polarization, allAttributes⟩,
    ⟨Field.pointingVector3D, 1, .pointing, allAttributes⟩,
    ⟨Field.spatialScanType, 1, .word, allAttributes⟩,
    ⟨Field.spatialReferenceType, 1, .spatialReference, allAttributes⟩,
    ⟨Field.beamWidth, 1, .beamWidth, allAttributes⟩,
    ⟨Field.range, 1, .metres, allAttributes⟩,
    ⟨Field.ebNoBer, 1, .ebNoBer, allAttributes⟩,
    ⟨Field.threshold, 1, .threshold, allAttributes⟩,
    ⟨Field.compressionPoint, 1, .decibels, allAttributes⟩,
    ⟨Field.interceptPoints, 1, .interceptPoints, allAttributes⟩,
    ⟨Field.snrNoiseFigure, 1, .snrNoiseFigure, allAttributes⟩,
    ⟨Field.auxiliaryFrequency, 2, .hertz, allAttributes⟩,
    ⟨Field.auxiliaryGain, 1, .gainStages, allAttributes⟩,
    ⟨Field.auxiliaryBandwidth, 2, .hertz, allAttributes⟩,
    ⟨Field.discreteIO32, 1, .word, allAttributes⟩,
    ⟨Field.discreteIO64, 2, .unsigned64, allAttributes⟩,
    ⟨Field.healthStatus, 1, .word, allAttributes⟩,
    ⟨Field.v49SpecCompliance, 1, .word, allAttributes⟩,
    ⟨Field.versionBuild, 1, .versionBuild, allAttributes⟩,
    ⟨Field.bufferSize, 2, .bufferSize, allAttributes⟩]

def cif1StructureDescriptors : List FieldDescriptor :=
  [⟨Field.pointingVectorStructure, 0, .native, allAttributes⟩,
    ⟨Field.indexList, 0, .native, allAttributes⟩,
    ⟨Field.spectrum, 13, .native, allAttributes⟩,
    ⟨Field.sectorStepScan, 0, .native, allAttributes⟩]

def cif2Descriptors : List FieldDescriptor :=
  [⟨Field.bind, 1, .word, allAttributes⟩,
    ⟨Field.citedSid, 1, .word, allAttributes⟩,
    ⟨Field.siblingSid, 1, .word, allAttributes⟩,
    ⟨Field.parentSid, 1, .word, allAttributes⟩,
    ⟨Field.childSid, 1, .word, allAttributes⟩,
    ⟨Field.citedMessageId, 1, .word, allAttributes⟩,
    ⟨Field.controlleeId, 1, .word, allAttributes⟩,
    ⟨Field.controlleeUuid, 4, .native, allAttributes⟩,
    ⟨Field.controllerId, 1, .word, allAttributes⟩,
    ⟨Field.controllerUuid, 4, .native, allAttributes⟩,
    ⟨Field.informationSource, 1, .word, allAttributes⟩,
    ⟨Field.trackId, 1, .word, allAttributes⟩,
    ⟨Field.countryCode, 1, .countryCode, allAttributes⟩,
    ⟨Field.operatorId, 1, .word, allAttributes⟩,
    ⟨Field.platformClass, 1, .word, allAttributes⟩,
    ⟨Field.platformInstance, 1, .word, allAttributes⟩,
    ⟨Field.platformDisplay, 1, .word, allAttributes⟩,
    ⟨Field.emsDeviceClass, 1, .emsDeviceClass, allAttributes⟩,
    ⟨Field.emsDeviceType, 1, .word, allAttributes⟩,
    ⟨Field.emsDeviceInstance, 1, .word, allAttributes⟩,
    ⟨Field.modulationClass, 1, .word, allAttributes⟩,
    ⟨Field.modulationType, 1, .word, allAttributes⟩,
    ⟨Field.functionId, 1, .word, allAttributes⟩,
    ⟨Field.modeId, 1, .word, allAttributes⟩,
    ⟨Field.eventId, 1, .word, allAttributes⟩,
    ⟨Field.functionPriority, 1, .word, allAttributes⟩,
    ⟨Field.communicationPriority, 1, .word, allAttributes⟩,
    ⟨Field.rfFootprint, 1, .word, allAttributes⟩,
    ⟨Field.rfFootprintRange, 1, .word, allAttributes⟩]

def cif3Descriptors : List FieldDescriptor :=
  [⟨Field.timestampDetails, 2, .timestampDetails, allAttributes⟩,
    ⟨Field.timestampSkew, 2, .femtoseconds, allAttributes⟩,
    ⟨Field.riseTime, 2, .femtoseconds, allAttributes⟩,
    ⟨Field.fallTime, 2, .femtoseconds, allAttributes⟩,
    ⟨Field.offsetTime, 2, .femtoseconds, allAttributes⟩,
    ⟨Field.pulseWidth, 2, .femtoseconds, allAttributes⟩,
    ⟨Field.period, 2, .femtoseconds, allAttributes⟩,
    ⟨Field.duration, 2, .femtoseconds, allAttributes⟩,
    ⟨Field.dwell, 2, .femtoseconds, allAttributes⟩,
    ⟨Field.jitter, 2, .femtoseconds, allAttributes⟩,
    ⟨Field.age, 0, .native, allAttributes⟩,
    ⟨Field.shelfLife, 0, .native, allAttributes⟩,
    ⟨Field.airTemperature, 1, .celsius, allAttributes⟩,
    ⟨Field.seaGroundTemperature, 1, .celsius, allAttributes⟩,
    ⟨Field.humidity, 1, .humidity, allAttributes⟩,
    ⟨Field.barometricPressure, 1, .barometricPressure, allAttributes⟩,
    ⟨Field.seaSwellState, 1, .seaSwell, allAttributes⟩,
    ⟨Field.troposphericState, 1, .word, allAttributes⟩,
    ⟨Field.networkId, 1, .word, allAttributes⟩]

def descriptors : List FieldDescriptor :=
  baselineDescriptors ++ scalarDescriptors ++ structuredDescriptors ++ cif1FixedDescriptors ++ cif1StructureDescriptors ++ cif2Descriptors ++ cif3Descriptors

def descriptor (id : FieldId) : Option FieldDescriptor := descriptors.find? (·.id = id)

/-! ## Families of fields -/

/-- The fields whose base values live in the native arena. -/
def structuredField (id : FieldId) : Bool :=
  (id.cif = 0 ∧ (11 ≤ id.bit ∧ id.bit ≤ 14 ∨ id.bit = 9 ∨ id.bit = 8)) ∨
    (id.cif = 2 ∧ (id.bit = 24 ∨ id.bit = 22)) ∨
    (id.cif = 3 ∧ (id.bit = 17 ∨ id.bit = 16)) ∨
    (id.cif = 1 ∧ (id.bit = 28 ∨ id.bit = 10 ∨ id.bit = 9 ∨ id.bit = 7))

def temporalDurationField (id : FieldId) : Bool := id.cif = 3 ∧ (id.bit = 17 ∨ id.bit = 16)

def cif2Generic16Field (id : FieldId) : Bool :=
  id.cif = 2 ∧ (id.bit = 18 ∨ 6 ≤ id.bit ∧ id.bit ≤ 11)

/-- CIF presence and Context change indicators are not field selectors. -/
def validFieldSelector (id : FieldId) : Bool :=
  id.cif ≤ 3 ∧ id.bit ≤ 31 ∧ (id.cif = 0 → 8 ≤ id.bit ∧ id.bit ≤ 30)

def fieldBefore (a b : FieldId) : Bool := a.cif < b.cif ∨ a.cif = b.cif ∧ a.bit > b.bit

/-! ## Facts about the registry -/

theorem mem_descriptors {id : FieldId} {d : FieldDescriptor} (h : descriptor id = some d) :
    d ∈ descriptors ∧ d.id = id := by
  have hfound := List.find?_some h
  exact ⟨List.mem_of_find?_eq_some h, by simpa using hfound⟩

/-- A registered field is a valid selector. -/
theorem validFieldSelector_of_descriptor {id : FieldId} {d : FieldDescriptor}
    (h : descriptor id = some d) : validFieldSelector id := by
  obtain ⟨hmem, rfl⟩ := mem_descriptors h
  have hall : ∀ d ∈ descriptors, validFieldSelector d.id := by decide
  exact hall d hmem

/-- Exactly the structured fields hold native values. -/
theorem descriptor_native {id : FieldId} {d : FieldDescriptor} (h : descriptor id = some d) :
    structuredField id = decide (d.kind = .native) := by
  obtain ⟨hmem, rfl⟩ := mem_descriptors h
  have hall : ∀ d ∈ descriptors, structuredField d.id = decide (d.kind = .native) := by decide
  exact hall d hmem

end Vita
