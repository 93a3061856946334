import Vita.Fields.Values

/-!
# Validation of structured values

`fields/structured.hpp` and `fields/cif1_structured.hpp`: the checks on native structures and the
shapes of the two record structures, pointing vectors and sector step scans.
-/

namespace Vita

open Checked Words

/-! ## Fixed structures -/

def validateFix (oui : UInt32) (fix : EmbeddedFixTime) : Result Unit :=
  rejectIf (oui > 0xffffff ∨ fix.tsi > 3 ∨ fix.tsf > 3 ∨
    fix.tsi = 0 ∧ fix.seconds ≠ 0xffffffff ∨ fix.tsf = 0 ∧ fix.fractional ≠ 0xffffffffffffffff ∨
    fix.tsf = 2 ∧ fix.fractional ≥ 1000000000000) (failure .invalidArgument)

/-- A known value lies between the bounds and is not the wire code of "unknown". -/
def numericIn (low high : ℤ) (v : Option Int32) : Bool :=
  ∀ x ∈ v, low ≤ x.toInt ∧ x.toInt ≤ high ∧ x ≠ 0x7fffffff

/-- `numeric` with its default bounds. -/
def numeric (v : Option Int32) : Bool := numericIn (-2147483648) 2147483646 v

/-- One degree in Q22. -/
def degree : ℤ := 2 ^ 22

def validateUuid (v : UuidValue) (current : Bool) : Result Unit :=
  rejectIf (current ∧ ∀ i, v.words i = 0) (failure .invalidArgument)

def validateGeolocation (v : GeolocationValue) (current : Bool) : Result Unit := do
  validateFix v.oui v.fix
  if current then
    rejectIf (¬(numericIn (-90 * degree) (90 * degree) v.latitudeQ22 ∧
      numericIn (-180 * degree) (180 * degree) v.longitudeQ22 ∧ numeric v.altitudeQ5 ∧
      numericIn 0 2147483646 v.speedQ16 ∧ numericIn 0 (360 * degree - 1) v.headingQ22 ∧
      numericIn 0 (360 * degree - 1) v.trackQ22 ∧
      numericIn (-180 * degree) (180 * degree) v.magneticVariationQ22)) (failure .invalidArgument)
  else
    rejectIf (¬(numeric v.latitudeQ22 ∧ numeric v.longitudeQ22 ∧ numeric v.altitudeQ5 ∧
      numeric v.speedQ16 ∧ numeric v.headingQ22 ∧ numeric v.trackQ22 ∧
      numeric v.magneticVariationQ22)) (failure .invalidArgument)

def validateEphemeris (v : EphemerisValue) : Result Unit := do
  validateFix v.oui v.fix
  rejectIf (¬(∀ i, numeric (v.positionQ5 i) ∧ numeric (v.attitudeQ22 i) ∧
    numeric (v.velocityQ16 i))) (failure .invalidArgument)

def validateAscii (oui : UInt32) (text : Bytes) : Result Unit :=
  rejectIf (oui > 0xffffff ∨ ∃ c ∈ text, c = 0 ∨ c > 127) (failure .invalidArgument)

def AssociationLists.count (v : AssociationLists) : ℕ :=
  v.source.length + v.system.length + v.vector.length + v.asynchronous.length + v.tags.length

def validateAssociations (v : AssociationLists) : Result Unit := do
  rejectIf (v.source.length > 511 ∨ v.system.length > 511 ∨ v.vector.length > 65535 ∨
    v.asynchronous.length > 32767 ∨
    (if v.tagsPresent then v.tags.length ≠ v.asynchronous.length else v.tags ≠ []))
    (failure .invalidArgument)
  rejectIf (v.count > 1024) (failure .resourceLimit)

def validateDuration (v : StateDurationValue) : Result Unit :=
  rejectIf (v.tsi > 3 ∨ v.tsf > 3 ∨ v.tsi = 0 ∧ v.tsf = 0 ∨ v.tsi = 0 ∧ v.seconds ≠ 0 ∨
    v.tsf = 0 ∧ v.fractional ≠ 0) (failure .invalidArgument)

def validateSpectrum (v : SpectrumValue) (current : Bool) : Result Unit := do
  rejectIf (v.spectrumType > 4 ∧ v.spectrumType < 128 ∨ v.averaging &&& 0xc0 ≠ 0 ∨ v.deltaKind > 3 ∨
    v.windowType ≥ 44 ∧ v.windowType < 100) (failure .invalidArgument)
  rejectIf (current ∧ (v.averaging = 32 ∨ v.resolutionQ20 < 0 ∨ v.spanQ20 < 0 ∨
    v.deltaKind = 1 ∧ v.deltaRaw.toInt32 > 409600)) (failure .invalidArgument)

/-! ## Lists and records -/

def validEntryBytes (width : ℕ) : Bool := width = 1 ∨ width = 2 ∨ width = 4

/-- The entry fits the width. -/
def entryFits (width : ℕ) (value : UInt32) : Bool := width < 4 → value.toNat < 2 ^ (8 * width)

def validateIndices (v : IndexListValue) : Result Unit := do
  rejectIf (¬validEntryBytes v.entryBytes.toNat) (failure .invalidArgument)
  rejectIf (v.entries.length > 1024) (failure .resourceLimit)
  rejectIf (¬∀ value ∈ v.entries, entryFits v.entryBytes.toNat value) (failure .invalidArgument)

/-- The words of a record structure: its header, its records and the code in its description. -/
structure RecordShape where
  headerWords : ℕ
  recordWords : ℕ
  records : ℕ
  headerCode : ℕ
deriving DecidableEq, Repr

/-- `total_words`, which is also the structure's work. -/
def RecordShape.totalWords (s : RecordShape) : ℕ := s.headerWords + s.recordWords * s.records

def pointingShape (global reference : Bool) (count : ℕ) : Result RecordShape := do
  rejectIf (count > 4095) (failure .invalidArgument)
  let h := if global then 4 else 3
  return { headerWords := h, recordWords := if reference then 2 else 1, records := count,
           headerCode := h }

/-- The words of a start time. -/
def startWords (binding : TimestampFormatBinding) : ℕ :=
  (if binding.tsi ≠ 0 then 1 else 0) + (if binding.tsf ≠ 0 then 2 else 0)

/-- The words of a sector record: the sector, the first frequency and the selected members, the widths
`2,2,2,1,1,1,2,(start time),2,2` taken from bit 29 down. -/
def sectorRecordWords (selectors : UInt32) (binding : TimestampFormatBinding) : ℕ :=
  3 + (if bit selectors 29 then 2 else 0) + (if bit selectors 28 then 2 else 0) +
    (if bit selectors 27 then 2 else 0) + (if bit selectors 26 then 1 else 0) +
    (if bit selectors 25 then 1 else 0) + (if bit selectors 24 then 1 else 0) +
    (if bit selectors 23 then 2 else 0) + (if bit selectors 22 then startWords binding else 0) +
    (if bit selectors 21 then 2 else 0) + (if bit selectors 20 then 2 else 0)

def sectorShape (selectors : UInt32) (count : ℕ) (binding : TimestampFormatBinding) :
    Result RecordShape := do
  rejectIf (selectors &&& 0xc0000000 ≠ 0xc0000000 ∨ selectors &&& 0x000fffff ≠ 0 ∨ count > 4095)
    (failure .invalidArgument)
  rejectIf (bit selectors 22 ∧ (binding.tsi > 3 ∨ binding.tsf > 3)) (failure .invalidArgument)
  rejectIf (bit selectors 22 ∧ (¬binding.bound ∨ binding.tsi = 0 ∧ binding.tsf = 0))
    (failure .unsupportedCapability)
  return { headerWords := 3, recordWords := sectorRecordWords selectors binding, records := count,
           headerCode := 0 }

def validateReference (v : PointingReference) (global : Bool) : Result Unit :=
  rejectIf (v.reference > 3 ∨ v.beam > 2 ∨ global ∧ v.index ≠ 0) (failure .invalidArgument)

/-- The checks `validate_pointing` makes on one record. -/
def validatePointingRecord (recordReference : Bool) (record : PointingVectorRecord)
    (current : Bool) : Result Unit := do
  rejectIf (record.reference.isSome ≠ recordReference) (failure .invalidArgument)
  match record.reference with
  | some reference => validateReference reference false
  | none => return ()
  rejectIf (current ∧ (record.vector.elevationQ7 < -11520 ∨ record.vector.elevationQ7 > 11520))
    (failure .invalidArgument)

def validateGlobal (global : Option PointingReference) : Result Unit :=
  match global with
  | some reference => validateReference reference true
  | none => return ()

def validatePointing (v : PointingVectorValue) (current : Bool) : Result Unit := do
  rejectIf (v.records.length > 256) (failure .resourceLimit)
  validateGlobal v.global
  v.records.forM fun record => validatePointingRecord v.recordReference record current

/-- The optional members of a record are those its selectors name, in selector order. -/
def SectorRecord.present (r : SectorRecord) : List Bool :=
  [r.f2Q20.isSome, r.bandwidthQ20.isSome, r.stepQ20.isSome, r.points.isSome, r.gainQ7.isSome,
    r.thresholdQ7.isSome, r.dwellFs.isSome, r.start.isSome, r.time3Fs.isSome, r.time4Fs.isSome]

def selectedMembers (selectors : UInt32) : List Bool :=
  (List.range 10).map fun i => bit selectors (29 - i)

/-- The checks `validate_sector` makes on one record. -/
def validateSectorRecord (selectors : UInt32) (startFormat : TimestampFormatBinding)
    (record : SectorRecord) (current : Bool) : Result Unit := do
  rejectIf (record.present ≠ selectedMembers selectors) (failure .invalidArgument)
  rejectIf (∃ t ∈ record.start, t.tsi ≠ startFormat.tsi ∨ t.tsf ≠ startFormat.tsf ∨
    t.tsi = 0 ∧ t.seconds ≠ 0 ∨ t.tsf = 0 ∧ t.fractional ≠ 0) (failure .invalidArgument)
  rejectIf (current ∧ (record.f1Q20 < 0 ∨ (∃ v ∈ record.f2Q20, v < 0) ∨
    (∃ v ∈ record.bandwidthQ20, v < 0) ∨ (∃ v ∈ record.stepQ20, v < 0) ∨
    ∃ v ∈ record.dwellFs, v < 0)) (failure .invalidArgument)

def validateSector (v : SectorStepScanValue) (current : Bool) : Result Unit := do
  rejectIf (v.records.length > 256) (failure .resourceLimit)
  let _ ← sectorShape v.selectors v.records.length v.startFormat
  v.records.forM fun record => validateSectorRecord v.selectors v.startFormat record current

/-- `validate_native_attribute`, the builder's check of a structured value. The sentence validator of
an ASCII value is the caller's and is passed along. -/
def validateNativeAttribute (sentence : Bytes → Result Unit) (v : NativeValue) (current : Bool) :
    Result Unit :=
  match v with
  | .geolocation v => validateGeolocation v current
  | .ephemeris v => validateEphemeris v
  | .gpsAscii v => do
    validateAscii v.oui v.text
    sentence v.text
  | .associations v => validateAssociations v
  | .uuid v => validateUuid v current
  | .duration v => validateDuration v
  | .indices v => validateIndices v
  | .pointing v => validatePointing v current
  | .spectrum v => validateSpectrum v current
  | .sectors v => validateSector v current

/-- The structure belongs to the field: the match at the head of `append_native`. -/
def NativeValue.matches (v : NativeValue) (id : FieldId) : Bool :=
  match v with
  | .geolocation _ => id = Field.formattedGps ∨ id = Field.formattedIns
  | .ephemeris _ => id = Field.ecefEphemeris ∨ id = Field.relativeEphemeris
  | .gpsAscii _ => id = Field.gpsAscii
  | .associations _ => id = Field.contextAssociationLists
  | .uuid _ => id = Field.controlleeUuid ∨ id = Field.controllerUuid
  | .duration _ => temporalDurationField id
  | .indices _ => id = Field.indexList
  | .pointing _ => id = Field.pointingVectorStructure
  | .spectrum _ => id = Field.spectrum
  | .sectors _ => id = Field.sectorStepScan

end Vita
