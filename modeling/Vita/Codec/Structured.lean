import Vita.Codec.Layout
import Mathlib.Data.List.DropRight

/-!
# Structured fields on the wire (`codec/structured.hpp`, `codec/cif1_structured.hpp`)

For every structured field: its extent as the wire declares it, the check of its bytes, the reader of
its value and the writer.
-/

namespace Vita.Codec

open Words Checked

/-! ## Sequential reads -/

def invalidWire : Fault := .error (failure .invalidArgument)

/-- Four bytes from `offset`, and the offset after them. -/
def readWord (bytes : Bytes) (offset : ℕ) : Decoded (UInt32 × ℕ) := do
  let w ← load32 bytes offset
  return (w, offset + 4)

def readUnsigned64 (bytes : Bytes) (offset : ℕ) : Decoded (UInt64 × ℕ) := do
  let high ← load32 bytes offset
  let low ← load32 bytes (offset + 4)
  return ((high.toUInt64 <<< 32) ||| low.toUInt64, offset + 8)

/-- `read_signed64`. -/
def readSigned64 (bytes : Bytes) (offset : ℕ) : Decoded (Int64 × ℕ) := do
  let (bits, offset) ← readUnsigned64 bytes offset
  return (bits.toInt64, offset)

/-- A pair of Q7 values, the first in the low half. -/
def readPair (bytes : Bytes) (offset : ℕ) : Decoded ((Int16 × Int16) × ℕ) := do
  let w ← load32 bytes offset
  return ((signed16 w, signed16 (w >>> 16)), offset + 4)

/-- `read_known`: a signed word, with one code for "unknown". -/
def readKnown (bytes : Bytes) (offset : ℕ) : Decoded (Option Int32 × ℕ) := do
  let raw ← load32 bytes offset
  return (if raw = 0x7fffffff then none else some raw.toInt32, offset + 4)

/-- A member that is on the wire only when it is selected. -/
def readIf {α : Type} (selected : Bool) (read : Bytes → ℕ → Decoded (α × ℕ)) (bytes : Bytes)
    (offset : ℕ) : Decoded (Option α × ℕ) :=
  if selected then do
    let (a, offset) ← read bytes offset
    return (some a, offset)
  else return (none, offset)

/-- `count` elements read one after the other. -/
def readMany {α : Type} (read : Bytes → ℕ → Decoded (α × ℕ)) (bytes : Bytes) :
    ℕ → ℕ → Decoded (List α × ℕ)
  | 0, offset => return ([], offset)
  | count + 1, offset => do
    let (a, offset) ← read bytes offset
    let (rest, offset) ← readMany read bytes count offset
    return (a :: rest, offset)

/-! ## Declared extents -/

def cif1Structure (id : FieldId) : Bool :=
  id = Field.indexList ∨ id = Field.pointingVectorStructure ∨ id = Field.spectrum ∨
    id = Field.sectorStepScan

/-- The record structure a description declares: `h` is the header code, `n` the record count. -/
def declaredShape (id : FieldId) (h n : ℕ) (selectors : UInt32) (binding : TimestampFormatBinding) :
    Result RecordShape := do
  if id = Field.pointingVectorStructure then
    rejectIf (h ≠ 3 ∧ h ≠ 4 ∨ selectors &&& 0x3fffffff ≠ 0 ∨ ¬bit selectors 30)
      (failure .invalidArgument)
    pointingShape (h = 4) (bit selectors 31) n
  else if id = Field.sectorStepScan then
    rejectIf (h ≠ 0) (failure .invalidArgument)
    sectorShape selectors n binding
  else throw (failure .invalidArgument)

def wireRecordShape (id : FieldId) (bytes : Bytes) (binding : TimestampFormatBinding) :
    Decoded RecordShape := do
  rejectIf (bytes.length < 12)
    (Fault.error { code := .shortInput, offset := 0, requiredCapacity := 12 })
  let total ← load32 bytes 0
  let description ← load32 bytes 4
  let selectors ← load32 bytes 8
  let declared ← (checkedMultiply total.toNat 4).decoded
  rejectIf (bytes.length < declared)
    (Fault.error { code := .shortInput, offset := 0, requiredCapacity := declared })
  rejectIf (total < 3) invalidWire
  let h := (description >>> 24).toNat
  let shape ← (declaredShape id h (bits description 0 12) selectors binding).decoded
  rejectIf (shape.headerCode ≠ h ∨ shape.recordWords ≠ bits description 12 12 ∨
    shape.totalWords ≠ total.toNat) invalidWire
  return shape

def indexWireExtent (bytes : Bytes) : Decoded FieldExtent := do
  rejectIf (bytes.length < 8)
    (Fault.error { code := .shortInput, offset := 0, requiredCapacity := 8 })
  let total ← load32 bytes 0
  let header ← load32 bytes 4
  let width := (header >>> 28).toNat
  let count := bits header 0 20
  let declared ← (checkedMultiply total.toNat 4).decoded
  rejectIf (bytes.length < declared)
    (Fault.error { code := .shortInput, offset := 0, requiredCapacity := declared })
  rejectIf (header &&& 0x0ff00000 ≠ 0 ∨ ¬validEntryBytes width ∨
    total.toNat ≠ 2 + (count * width + 3) / 4) invalidWire
  return { bytes := declared, units := 2 + count, indexEntries := count }

def cif1WireExtent (id : FieldId) (bytes : Bytes) (binding : TimestampFormatBinding) :
    Decoded FieldExtent :=
  if id = Field.spectrum then do
    rejectIf (bytes.length < 52)
      (Fault.error { code := .shortInput, offset := 0, requiredCapacity := 52 })
    return { bytes := 52, units := 13 }
  else if id = Field.indexList then indexWireExtent bytes
  else do
    let shape ← wireRecordShape id bytes binding
    return { bytes := shape.totalWords * 4, units := shape.totalWords, records := shape.records }

/-- The two variable structures of CIF0: their sizes and units by their first two words. -/
def variableExtent (id : FieldId) (bytes : Bytes) : Decoded FieldExtent := do
  rejectIf (bytes.length < 8)
    (Fault.error { code := .shortInput, offset := 0, requiredCapacity := 8 })
  let first ← load32 bytes 0
  let second ← load32 bytes 4
  if id = Field.gpsAscii then
    rejectIf (first &&& 0xff000000 ≠ 0) invalidWire
    let data ← (checkedMultiply second.toNat 4).decoded
    let total ← (checkedAdd data 8).decoded
    return { bytes := total, units := data + 2 }
  else if id = Field.contextAssociationLists then
    rejectIf (first &&& 0xfe00fe00 ≠ 0) invalidWire
    let count := bits first 16 9 + bits first 0 9 + (second >>> 16).toNat + bits second 0 15 +
      (if bit second 15 then bits second 0 15 else 0)
    return { bytes := 8 + 4 * count, units := 2 + count }
  else throw (Fault.error (failure .unsupportedLayout))

/-- The size and work of the structures outside CIF1. -/
def plainExtent (id : FieldId) (bytes : Bytes) (binding : TimestampFormatBinding) :
    Decoded FieldExtent :=
  if temporalDurationField id then (durationExtent binding).decoded
  else if id = Field.controlleeUuid ∨ id = Field.controllerUuid then
    return { bytes := 16, units := 4 }
  else if id = Field.formattedGps ∨ id = Field.formattedIns then return { bytes := 44, units := 11 }
  else if id = Field.ecefEphemeris ∨ id = Field.relativeEphemeris then
    return { bytes := 52, units := 13 }
  else variableExtent id bytes

def wireStructureExtent (id : FieldId) (bytes : Bytes) (binding : TimestampFormatBinding) :
    Decoded FieldExtent :=
  if cif1Structure id then cif1WireExtent id bytes binding
  else do
    let extent ← plainExtent id bytes binding
    rejectIf (bytes.length < extent.bytes)
      (Fault.error { code := .shortInput, offset := 0, requiredCapacity := extent.bytes })
    return { bytes := extent.bytes, units := extent.units }

/-! ## Records -/

def readReference (bytes : Bytes) (offset : ℕ) (global : Bool) : Decoded PointingReference := do
  rejectIf (offset > bytes.length ∨ bytes.length - offset < 4) (Fault.error (failure .shortInput))
  let raw ← load32 bytes offset
  rejectIf (raw &&& 0xfff0 ≠ 0) invalidWire
  let v : PointingReference :=
    ⟨(raw >>> 16).toUInt16, ((raw >>> 2) &&& 3).toUInt8, (raw &&& 3).toUInt8⟩
  (validateReference v global).decoded
  return v

structure PointingVectorWireView where
  bytes : Bytes

namespace PointingVectorWireView

def size (view : PointingVectorWireView) : Decoded ℕ := do
  let shape ← wireRecordShape Field.pointingVectorStructure view.bytes {}
  rejectIf (shape.totalWords * 4 ≠ view.bytes.length) invalidWire
  return shape.records

def global (view : PointingVectorWireView) : Decoded (Option PointingReference) := do
  let _ ← view.size
  let description ← load32 view.bytes 4
  if (description >>> 24).toNat = 4 then
    let reference ← readReference view.bytes 12 true
    return some reference
  else return none

/-- The optional reference at the head of a record. -/
def recordReference (bytes : Bytes) (recordWords offset : ℕ) :
    Decoded (Option PointingReference × ℕ) :=
  if recordWords = 2 then do
    let reference ← readReference bytes offset false
    return (some reference, offset + 4)
  else return (none, offset)

def get (view : PointingVectorWireView) (index : ℕ) : Decoded PointingVectorRecord := do
  let shape ← wireRecordShape Field.pointingVectorStructure view.bytes {}
  rejectIf (shape.totalWords * 4 ≠ view.bytes.length ∨ index ≥ shape.records) invalidWire
  let (reference, offset) ← recordReference view.bytes shape.recordWords
    ((shape.headerWords + index * shape.recordWords) * 4)
  let angles ← load32 view.bytes offset
  return { vector := ⟨angles.toUInt16, signed16 (angles >>> 16)⟩, reference }

end PointingVectorWireView

structure SectorStepScanWireView where
  bytes : Bytes
  startFormat : TimestampFormatBinding

/-- The start time of a sector in the packet's format. -/
def readStart (format : TimestampFormatBinding) (bytes : Bytes) (offset : ℕ) :
    Decoded (SectorStartTime × ℕ) := do
  let (seconds, offset) ← readIf (format.tsi ≠ 0) readWord bytes offset
  let (fractional, offset) ← readIf (format.tsf ≠ 0) readUnsigned64 bytes offset
  return ({ fractional := fractional.getD 0, seconds := seconds.getD 0, tsi := format.tsi,
            tsf := format.tsf }, offset)

/-- A sector record with the members its selectors name. -/
def readSector (selectors : UInt32) (format : TimestampFormatBinding) (bytes : Bytes) (offset : ℕ) :
    Decoded (SectorRecord × ℕ) := do
  let (sector, offset) ← readWord bytes offset
  let (f1Q20, offset) ← readSigned64 bytes offset
  let (f2Q20, offset) ← readIf (bit selectors 29) readSigned64 bytes offset
  let (bandwidthQ20, offset) ← readIf (bit selectors 28) readSigned64 bytes offset
  let (stepQ20, offset) ← readIf (bit selectors 27) readSigned64 bytes offset
  let (points, offset) ← readIf (bit selectors 26) readWord bytes offset
  let (gainQ7, offset) ← readIf (bit selectors 25) readPair bytes offset
  let (thresholdQ7, offset) ← readIf (bit selectors 24) readPair bytes offset
  let (dwellFs, offset) ← readIf (bit selectors 23) readSigned64 bytes offset
  let (start, offset) ← readIf (bit selectors 22) (readStart format) bytes offset
  let (time3Fs, offset) ← readIf (bit selectors 21) readSigned64 bytes offset
  let (time4Fs, offset) ← readIf (bit selectors 20) readSigned64 bytes offset
  return ({ sector, f1Q20, f2Q20, bandwidthQ20, stepQ20, points, gainQ7, thresholdQ7, dwellFs, start,
            time3Fs, time4Fs }, offset)

namespace SectorStepScanWireView

def size (view : SectorStepScanWireView) : Decoded ℕ := do
  let shape ← wireRecordShape Field.sectorStepScan view.bytes view.startFormat
  rejectIf (shape.totalWords * 4 ≠ view.bytes.length) invalidWire
  return shape.records

def selectors (view : SectorStepScanWireView) : Decoded UInt32 := do
  let _ ← view.size
  load32 view.bytes 8

def get (view : SectorStepScanWireView) (index : ℕ) : Decoded SectorRecord := do
  let shape ← wireRecordShape Field.sectorStepScan view.bytes view.startFormat
  rejectIf (shape.totalWords * 4 ≠ view.bytes.length ∨ index ≥ shape.records) invalidWire
  let mask ← load32 view.bytes 8
  let (record, _) ← readSector mask view.startFormat view.bytes
    ((shape.headerWords + index * shape.recordWords) * 4)
  return record

end SectorStepScanWireView

def readSpectrum (bytes : Bytes) : Decoded SpectrumValue := do
  rejectIf (bytes.length ≠ 52) (Fault.error (failure .shortInput))
  let (first, offset) ← readWord bytes 0
  rejectIf (first &&& 0xfff00000 ≠ 0) invalidWire
  let (windowType, offset) ← readWord bytes offset
  let (transformPoints, offset) ← readWord bytes offset
  let (windowPoints, offset) ← readWord bytes offset
  let (resolutionQ20, offset) ← readSigned64 bytes offset
  let (spanQ20, offset) ← readSigned64 bytes offset
  let (averages, offset) ← readWord bytes offset
  let (weightingRaw, offset) ← readWord bytes offset
  let (f1, offset) ← readWord bytes offset
  let (f2, offset) ← readWord bytes offset
  let (deltaRaw, _) ← readWord bytes offset
  let v : SpectrumValue :=
    { spectrumType := (first &&& 255).toUInt8, averaging := ((first >>> 8) &&& 255).toUInt8
      deltaKind := ((first >>> 16) &&& 15).toUInt8, windowType, transformPoints, windowPoints
      resolutionQ20, spanQ20, averages, weightingRaw, f1Index := f1.toInt32, f2Index := f2.toInt32
      deltaRaw }
  (validateSpectrum v false).decoded
  return v

/-! ## Checks of received structures -/

/-- The bytes after the entries of an index list are zero. -/
def validateIndexPadding (bytes : Bytes) : Decoded Unit := do
  let h ← load32 bytes 4
  let used := 8 + bits h 0 20 * (h >>> 28).toNat
  rejectIf (¬∀ b ∈ bytes.drop used, b = 0) invalidWire

def validatePointingWire (bytes : Bytes) (records : ℕ) : Decoded Unit := do
  let view : PointingVectorWireView := { bytes }
  let _ ← view.global
  (List.range records).forM fun i => do
    let _ ← view.get i

def validateCif1Wire (id : FieldId) (bytes : Bytes) (binding : TimestampFormatBinding) :
    Decoded Unit := do
  let extent ← cif1WireExtent id bytes binding
  rejectIf (extent.bytes ≠ bytes.length) invalidWire
  if id = Field.indexList then validateIndexPadding bytes
  else if id = Field.pointingVectorStructure then validatePointingWire bytes extent.records
  else if id = Field.spectrum then do
    let _ ← readSpectrum bytes
  else return ()

def readFix (bytes : Bytes) : Decoded EmbeddedFixTime := do
  let header ← load32 bytes 0
  let (seconds, offset) ← readWord bytes 4
  let (fractional, _) ← readUnsigned64 bytes offset
  return { tsi := ((header >>> 26) &&& 3).toUInt8, tsf := ((header >>> 24) &&& 3).toUInt8, seconds,
           fractional }

/-- The head of a formatted location or an ephemeris. -/
def validateFixWire (bytes : Bytes) : Decoded Unit := do
  let header ← load32 bytes 0
  rejectIf (header &&& 0xf0000000 ≠ 0) invalidWire
  let fix ← readFix bytes
  (validateFix (header &&& 0xffffff) fix).decoded

/-- One byte of a sentence: after the first zero only padding follows. The state is the number of
zeros seen. -/
def asciiStep (pad : ℕ) (c : UInt8) : Decoded ℕ :=
  if c = 0 then return pad + 1
  else do
    rejectIf (pad ≠ 0 ∨ c > 127) invalidWire
    return pad

def validateAsciiWire (bytes : Bytes) : Decoded Unit := do
  let pad ← (bytes.drop 8).foldlM asciiStep 0
  rejectIf (pad > 3) invalidWire

def validateStructureWire (id : FieldId) (bytes : Bytes) (binding : TimestampFormatBinding) :
    Decoded Unit :=
  if cif1Structure id then validateCif1Wire id bytes binding
  else do
    let extent ← wireStructureExtent id bytes binding
    rejectIf (extent.bytes ≠ bytes.length) invalidWire
    if id.cif = 0 ∧ 11 ≤ id.bit ∧ id.bit ≤ 14 then validateFixWire bytes
    else if id = Field.gpsAscii then validateAsciiWire bytes
    else return ()

/-! ## Readers of structures -/

def wireDuration (bytes : Bytes) (binding : TimestampFormatBinding) : Decoded StateDurationValue := do
  validateStructureWire Field.age bytes binding
  let (seconds, offset) ← readIf (binding.tsi ≠ 0) readWord bytes 0
  let (fractional, _) ← readIf (binding.tsf ≠ 0) readUnsigned64 bytes offset
  return { fractional := fractional.getD 0, seconds := seconds.getD 0, tsi := binding.tsi,
           tsf := binding.tsf }

def wireUuid (bytes : Bytes) : Decoded UuidValue := do
  validateStructureWire Field.controlleeUuid bytes {}
  let a ← load32 bytes 0
  let b ← load32 bytes 4
  let c ← load32 bytes 8
  let d ← load32 bytes 12
  return { words := ![a, b, c, d] }

def wireGeolocation (bytes : Bytes) : Decoded GeolocationValue := do
  validateStructureWire Field.formattedGps bytes {}
  let header ← load32 bytes 0
  let fix ← readFix bytes
  let (latitudeQ22, offset) ← readKnown bytes 16
  let (longitudeQ22, offset) ← readKnown bytes offset
  let (altitudeQ5, offset) ← readKnown bytes offset
  let (speedQ16, offset) ← readKnown bytes offset
  let (headingQ22, offset) ← readKnown bytes offset
  let (trackQ22, offset) ← readKnown bytes offset
  let (magneticVariationQ22, _) ← readKnown bytes offset
  return { oui := header &&& 0xffffff, fix, latitudeQ22, longitudeQ22, altitudeQ5, speedQ16,
           headingQ22, trackQ22, magneticVariationQ22 }

/-- Three known values in a row. -/
def readTriple (bytes : Bytes) (offset : ℕ) : Decoded ((Fin 3 → Option Int32) × ℕ) := do
  let (a, offset) ← readKnown bytes offset
  let (b, offset) ← readKnown bytes offset
  let (c, offset) ← readKnown bytes offset
  return (![a, b, c], offset)

def wireEphemeris (bytes : Bytes) : Decoded EphemerisValue := do
  validateStructureWire Field.ecefEphemeris bytes {}
  let header ← load32 bytes 0
  let fix ← readFix bytes
  let (positionQ5, offset) ← readTriple bytes 16
  let (attitudeQ22, offset) ← readTriple bytes offset
  let (velocityQ16, _) ← readTriple bytes offset
  return { oui := header &&& 0xffffff, fix, positionQ5, attitudeQ22, velocityQ16 }

def wireAscii (bytes : Bytes) : Decoded GpsAsciiValue := do
  validateStructureWire Field.gpsAscii bytes {}
  let header ← load32 bytes 0
  return { oui := header &&& 0xffffff, text := (bytes.drop 8).rdropWhile (· = 0) }

def wireAssociations (bytes : Bytes) : Decoded AssociationLists := do
  validateStructureWire Field.contextAssociationLists bytes {}
  let a ← load32 bytes 0
  let b ← load32 bytes 4
  let tagsPresent := bit b 15
  let (source, offset) ← readMany readWord bytes (bits a 16 9) 8
  let (system, offset) ← readMany readWord bytes (bits a 0 9) offset
  let (vector, offset) ← readMany readWord bytes (b >>> 16).toNat offset
  let (asynchronous, offset) ← readMany readWord bytes (bits b 0 15) offset
  let (tags, _) ← readMany readWord bytes (if tagsPresent then bits b 0 15 else 0) offset
  return { source, system, vector, asynchronous, tags, tagsPresent }

/-- A big-endian entry of `width` bytes. -/
def entryOfBytes (bytes : Bytes) : UInt32 :=
  bytes.foldl (fun value b => (value <<< 8) ||| b.toUInt32) 0

def readEntry (width : ℕ) (bytes : Bytes) (offset : ℕ) : Decoded (UInt32 × ℕ) :=
  if offset + width ≤ bytes.length then
    return (entryOfBytes ((bytes.drop offset).take width), offset + width)
  else throw (Fault.error (failure .shortInput))

/-- The entries of an index list, as `IndexListView::at` reads them. -/
def wireIndices (bytes : Bytes) (binding : TimestampFormatBinding) : Decoded IndexListValue := do
  validateCif1Wire Field.indexList bytes binding
  let header ← load32 bytes 4
  let width := (header >>> 28).toUInt8
  let (entries, _) ← readMany (readEntry width.toNat) bytes (bits header 0 20) 8
  return { entryBytes := width, entries }

/-! ## Writers -/

def writeUnsigned64 (v : UInt64) : Bytes := be32 (v >>> 32).toUInt32 ++ be32 v.toUInt32

def writeSigned64 (v : Int64) : Bytes := writeUnsigned64 v.toUInt64

def writePair (v : Int16 × Int16) : Bytes := be32 (pair (unsigned16 v.2) (unsigned16 v.1))

def writeKnown (v : Option Int32) : Bytes := be32 (v.elim 0x7fffffff Int32.toUInt32)

def writeFix (oui : UInt32) (fix : EmbeddedFixTime) : Bytes :=
  be32 (oui ||| (fix.tsi.toUInt32 <<< 26) ||| (fix.tsf.toUInt32 <<< 24)) ++ (be32 fix.seconds ++
    writeUnsigned64 fix.fractional)

def referenceBits (v : PointingReference) : UInt32 :=
  (v.index.toUInt32 <<< 16) ||| (v.reference.toUInt32 <<< 2) ||| v.beam.toUInt32

def writePointingRecord (r : PointingVectorRecord) : Bytes :=
  r.reference.elim [] (fun v => be32 (referenceBits v)) ++
    be32 (pair (unsigned16 r.vector.elevationQ7) r.vector.azimuthQ7)

/-- The three words that describe a record structure. -/
def writeShape (shape : RecordShape) (selectors : UInt32) : Bytes :=
  be32 (UInt32.ofNat shape.totalWords) ++ (be32 (UInt32.ofNat
    ((shape.headerCode <<< 24) ||| (shape.recordWords <<< 12) ||| shape.records)) ++ be32 selectors)

def writeStart (t : SectorStartTime) : Bytes :=
  (if t.tsi ≠ 0 then be32 t.seconds else []) ++
    (if t.tsf ≠ 0 then writeUnsigned64 t.fractional else [])

def writeSector (r : SectorRecord) : Bytes :=
  be32 r.sector ++ (writeSigned64 r.f1Q20 ++ (r.f2Q20.elim [] writeSigned64 ++
    (r.bandwidthQ20.elim [] writeSigned64 ++ (r.stepQ20.elim [] writeSigned64 ++
      (r.points.elim [] be32 ++ (r.gainQ7.elim [] writePair ++ (r.thresholdQ7.elim [] writePair ++
        (r.dwellFs.elim [] writeSigned64 ++ (r.start.elim [] writeStart ++
          (r.time3Fs.elim [] writeSigned64 ++ r.time4Fs.elim [] writeSigned64))))))))))

/-- The `width` big-endian bytes of an entry. -/
def writeEntry (width : ℕ) (n : UInt32) : Bytes :=
  (List.range width).map fun b => UInt8.ofNat (n.toNat / 2 ^ (8 * (width - 1 - b)) % 256)

def writeIndices (v : IndexListValue) (extent : FieldExtent) : Bytes :=
  be32 (UInt32.ofNat (extent.bytes / 4)) ++ (be32 ((v.entryBytes.toUInt32 <<< 28) |||
    UInt32.ofNat v.entries.length) ++ (v.entries.flatMap (writeEntry v.entryBytes.toNat) ++
      List.replicate (extent.bytes - 8 - v.entries.length * v.entryBytes.toNat) 0))

def writeSpectrum (v : SpectrumValue) : Bytes :=
  be32 ((v.deltaKind.toUInt32 <<< 16) ||| (v.averaging.toUInt32 <<< 8) ||| v.spectrumType.toUInt32) ++
    (be32 v.windowType ++ (be32 v.transformPoints ++ (be32 v.windowPoints ++
      (writeSigned64 v.resolutionQ20 ++ (writeSigned64 v.spanQ20 ++ (be32 v.averages ++
        (be32 v.weightingRaw ++ (be32 v.f1Index.toUInt32 ++ (be32 v.f2Index.toUInt32 ++
          be32 v.deltaRaw)))))))))

def writeAscii (v : GpsAsciiValue) (size : ℕ) : Bytes :=
  be32 v.oui ++ (be32 (UInt32.ofNat ((v.text.length + 3) / 4)) ++ (v.text ++
    List.replicate (size - 8 - v.text.length) 0))

def writeAssociations (v : AssociationLists) : Bytes :=
  be32 (UInt32.ofNat ((v.source.length <<< 16) ||| v.system.length)) ++
    (be32 (UInt32.ofNat ((v.vector.length <<< 16) ||| (if v.tagsPresent then 0x8000 else 0) |||
      v.asynchronous.length)) ++ (putWords v.source ++ (putWords v.system ++ (putWords v.vector ++
        (putWords v.asynchronous ++ putWords v.tags)))))

def writeGeolocation (v : GeolocationValue) : Bytes :=
  writeFix v.oui v.fix ++ (writeKnown v.latitudeQ22 ++ (writeKnown v.longitudeQ22 ++
    (writeKnown v.altitudeQ5 ++ (writeKnown v.speedQ16 ++ (writeKnown v.headingQ22 ++
      (writeKnown v.trackQ22 ++ writeKnown v.magneticVariationQ22))))))

def writeTriple (v : Fin 3 → Option Int32) : Bytes :=
  writeKnown (v 0) ++ (writeKnown (v 1) ++ writeKnown (v 2))

def writeEphemeris (v : EphemerisValue) : Bytes :=
  writeFix v.oui v.fix ++ (writeTriple v.positionQ5 ++ (writeTriple v.attitudeQ22 ++
    writeTriple v.velocityQ16))

/-- The structures whose writers measure the value again. -/
def writeMeasured (id : FieldId) (v : NativeValue) (size : ℕ) (binding : TimestampFormatBinding)
    (attr : Attribute) (write : FieldExtent → Result Bytes) : Result Bytes := do
  let extent ← nativeStructureExtent id v binding attr
  rejectIf (size < extent.bytes)
    { code := .shortOutput, offset := 0, requiredCapacity := extent.bytes }
  write extent

def writePointing (v : PointingVectorValue) : Result Bytes := do
  let shape ← pointingShape v.global.isSome v.recordReference v.records.length
  return writeShape shape (0x40000000 ||| (if v.recordReference then 0x80000000 else 0)) ++
    (v.global.elim [] (fun g => be32 (referenceBits g)) ++ v.records.flatMap writePointingRecord)

def writeSectors (v : SectorStepScanValue) : Result Bytes := do
  let shape ← sectorShape v.selectors v.records.length v.startFormat
  return writeShape shape v.selectors ++ v.records.flatMap writeSector

def writeDuration (v : StateDurationValue) (binding : TimestampFormatBinding) : Bytes :=
  (if binding.tsi ≠ 0 then be32 v.seconds else []) ++
    (if binding.tsf ≠ 0 then writeUnsigned64 v.fractional else [])

/-- `write_structure` into the `size` bytes of the field's extent. -/
def writeStructure (id : FieldId) (v : NativeValue) (size : ℕ) (binding : TimestampFormatBinding)
    (attr : Attribute) : Result Bytes := do
  rejectIf (¬v.matches id) (failure .unsupportedLayout)
  match v with
  | .indices l => writeMeasured id v size binding attr fun extent => return writeIndices l extent
  | .pointing p => writeMeasured id v size binding attr fun _ => writePointing p
  | .spectrum s => writeMeasured id v size binding attr fun _ => return writeSpectrum s
  | .sectors s => writeMeasured id v size binding attr fun _ => writeSectors s
  | .duration d => writeMeasured id v size binding attr fun _ => return writeDuration d binding
  | .uuid u => return putWords [u.words 0, u.words 1, u.words 2, u.words 3]
  | .geolocation g => return writeGeolocation g
  | .ephemeris e => return writeEphemeris e
  | .gpsAscii a => do
    validateAscii a.oui a.text
    return writeAscii a size
  | .associations a => do
    let _ ← associationsExtent a
    return writeAssociations a

end Vita.Codec
