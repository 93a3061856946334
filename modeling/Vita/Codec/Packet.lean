import Vita.Codec.Structured

/-!
# Packet bodies (`codec/packet.hpp`)

Indicator words, the decoder of value, selector and diagnostic bodies, and the encoder of snapshots.
A field view records where its span begins in the payload besides the bytes of the span. The result
of an encoder is the bytes it writes.
-/

namespace Vita.Codec

open Words Checked

structure RequestContext where
  cam : UInt32 := 0
deriving DecidableEq

structure DecodeOptions where
  request : Option RequestContext := none
  expectedClass : Option ClassId := none
  limits : TraversalLimits := {}

inductive DiagnosticGroup where
  | none | warning | error
deriving DecidableEq, Repr

/-! ## Checks of received values -/

/-- The bytes of a payload format word that name an item the standard defines. -/
def validPayloadFormat (word : UInt32) : Bool :=
  let code := bits word 24 5
  let kind := bits word 29 2
  let fraction := bits word 12 4
  let packing := bits word 6 6 + 1
  let size := bits word 0 6 + 1
  ¬(kind = 3 ∨ 8 ≤ code ∧ code ≤ 12 ∨ code ≥ 24 ∨ packing < size ∨
    (code ≠ 7 ∧ code ≠ 23) ∧ fraction ≠ 0 ∨ fraction ≥ size ∨ code = 13 ∧ size ≠ 16 ∨
    code = 14 ∧ size ≠ 32 ∨ code = 15 ∧ size ≠ 64)

/-- The checks of `validate_wire_value` on the first word. -/
def validFirstWord (id : FieldId) (w : UInt32) : Bool :=
  ¬((id = Field.airTemperature ∨ id = Field.seaGroundTemperature ∨ id = Field.humidity ∨
      id = Field.seaSwellState ∨ id = Field.troposphericState) ∧ w &&& 0xffff0000 ≠ 0 ∨
    id = Field.barometricPressure ∧ w &&& 0xfffe0000 ≠ 0 ∨
    id = Field.timestampDetails ∧ w &&& 0x00f80000 ≠ 0 ∨
    cif2Generic16Field id ∧ w &&& 0xffff0000 ≠ 0 ∨
    id = Field.bind ∧ w &&& 0xfffffffe ≠ 0 ∨
    id = Field.countryCode ∧ w &&& 0xffff7800 ≠ 0 ∨
    id = Field.emsDeviceClass ∧ (w &&& 0xffff0000 ≠ 0 ∨ w &&& 0xc000 = 0xc000) ∨
    (id = Field.phaseOffset ∨ id = Field.compressionPoint ∨ id = Field.spatialScanType ∨
      id = Field.healthStatus) ∧ w &&& 0xffff0000 ≠ 0 ∨
    id = Field.spatialReferenceType ∧ (w &&& 0x0000fff0 ≠ 0 ∨ w &&& 3 = 3) ∨
    (id = Field.referenceLevel ∨ id = Field.temperature) ∧ w &&& 0xffff0000 ≠ 0 ∨
    id = Field.deviceIdentifier ∧ w &&& 0xff000000 ≠ 0 ∨
    id = Field.stateEvent ∧ w &&& 0x00f00f00 ≠ 0 ∨
    id = Field.dataPayloadFormat ∧ ¬validPayloadFormat w)

/-- `validate_wire_value`: all checks report the same error. -/
def validateWireValue (id : FieldId) (bytes : Bytes) : Decoded Unit := do
  let first ← load32 bytes 0
  rejectIf (¬validFirstWord id first) invalidWire
  if id = Field.bufferSize ∨ id = Field.deviceIdentifier then
    let second ← load32 bytes 4
    rejectIf (second &&& 0xffff0000 ≠ 0) invalidWire

def validateWireAttribute (id : FieldId) (attr : Attribute) (bytes : Bytes)
    (binding : TimestampFormatBinding) : Decoded Unit := do
  match descriptor id with
  | none => throw (Fault.error (failure .unsupportedLayout))
  | some d =>
    if attr.base then
      if structuredField id then validateStructureWire id bytes binding
      else validateWireValue id bytes
    else
      let _ ← readAttributeScalar d attr bytes

/-! ## Field views -/

/-- A decoded field. `position` is where its span begins in the payload. -/
structure FieldView where
  id : FieldId
  attr : Attribute
  kind : BodyKind
  group : DiagnosticGroup := .none
  timestampFormat : TimestampFormatBinding := {}
  bytes : Bytes := []
  position : ℕ := 0

namespace FieldView

/-- The guard of the typed readers: a base value of one of the fields. -/
def holds (view : FieldView) (fields : FieldId → Bool) : Bool :=
  view.kind = .values ∧ view.attr.base ∧ fields view.id

def indices (view : FieldView) : Decoded IndexListValue := do
  rejectIf (¬view.holds (· = Field.indexList)) invalidWire
  wireIndices view.bytes view.timestampFormat

def pointingVectors (view : FieldView) : Decoded PointingVectorWireView := do
  rejectIf (¬view.holds (· = Field.pointingVectorStructure)) invalidWire
  validateCif1Wire view.id view.bytes view.timestampFormat
  return { bytes := view.bytes }

def spectrum (view : FieldView) : Decoded SpectrumValue := do
  rejectIf (¬view.holds (· = Field.spectrum)) invalidWire
  readSpectrum view.bytes

def sectors (view : FieldView) : Decoded SectorStepScanWireView := do
  rejectIf (¬view.holds (· = Field.sectorStepScan)) invalidWire
  validateCif1Wire view.id view.bytes view.timestampFormat
  return { bytes := view.bytes, startFormat := view.timestampFormat }

def duration (view : FieldView) : Decoded StateDurationValue := do
  rejectIf (¬view.holds temporalDurationField) invalidWire
  wireDuration view.bytes view.timestampFormat

def value (view : FieldView) : Decoded SemanticValue := do
  rejectIf (view.kind ≠ .values) (Fault.error (failure .invalidState))
  match descriptor view.id with
  | none => throw (Fault.error (failure .unsupportedLayout))
  | some d =>
    rejectIf (view.attr.base ∧ structuredField view.id)
      (Fault.error (failure .unsupportedCapability))
    readAttributeScalar d view.attr view.bytes

def uuid (view : FieldView) : Decoded UuidValue := do
  rejectIf (¬view.holds fun id => id = Field.controlleeUuid ∨ id = Field.controllerUuid) invalidWire
  wireUuid view.bytes

def geolocation (view : FieldView) : Decoded GeolocationValue := do
  rejectIf (¬view.holds fun id => id = Field.formattedGps ∨ id = Field.formattedIns) invalidWire
  wireGeolocation view.bytes

def ephemeris (view : FieldView) : Decoded EphemerisValue := do
  rejectIf (¬view.holds fun id => id = Field.ecefEphemeris ∨ id = Field.relativeEphemeris) invalidWire
  wireEphemeris view.bytes

def gpsAscii (view : FieldView) : Decoded GpsAsciiValue := do
  rejectIf (¬view.holds (· = Field.gpsAscii)) invalidWire
  wireAscii view.bytes

def associations (view : FieldView) : Decoded AssociationLists := do
  rejectIf (¬view.holds (· = Field.contextAssociationLists)) invalidWire
  wireAssociations view.bytes

end FieldView

/-! ## Indicators -/

/-- What `parse_indicators` yields: the words, the attribute mask, the selected fields in order, the
bytes of the words and the change flag. -/
structure IndicatorPlan where
  cif : ℕ → UInt32 := fun _ => 0
  attributes : UInt32 := 0
  selected : List FieldId := []
  bytes : ℕ := 0
  change : Bool := false

/-- Read the indicator word of one announced CIF. -/
def takeCif (data : Bytes) (first : UInt32) (s : (ℕ → UInt32) × ℕ) (i : ℕ) :
    Decoded ((ℕ → UInt32) × ℕ) :=
  if bit first i then do
    let (v, offset) ← take data data.length s.2
    return (Function.update s.1 i v, offset)
  else return s

/-- The fields of one CIF word, from bit 31 down. CIF0 keeps its change and presence bits to itself. -/
def indicated (cif : ℕ → UInt32) (i : ℕ) : List FieldId :=
  let word := if i = 0 then cif 0 &&& 0x7fffff00 else cif i
  (((List.range 32).reverse.filter (bit word ·)).map fun b => { cif := i, bit := b })

def selectField (capacity start : ℕ) (selected : List FieldId) (id : FieldId) :
    Decoded (List FieldId) := do
  rejectIf (descriptor id = none) (Fault.error { code := .unsupportedLayout, offset := start })
  rejectIf (selected.length = capacity) (Fault.error { code := .resourceLimit, offset := start })
  return selected ++ [id]

/-- The CIF7 word, when announced, names at least one defined attribute and no other. -/
def takeAttributes (first : UInt32) (cif7 : UInt32) (start : ℕ) : Decoded UInt32 :=
  if bit first 7 then do
    rejectIf (cif7 = 0 ∨ cif7 &&& ~~~allAttributes ≠ 0)
      (Fault.error { code := .invalidArgument, offset := start })
    return cif7
  else return 0

/-- `parse_indicators` at `start`, with `aggregate` fields selected before; the fields selected after
it are the second result. -/
def parseIndicators (capacity : ℕ) (data : Bytes) (start : ℕ) (allowChange : Bool) (aggregate : ℕ) :
    Decoded (IndicatorPlan × ℕ) := do
  let (first, offset) ← take data data.length start
  rejectIf (first &&& 0x71 ≠ 0 ∨ ¬allowChange ∧ bit first 31)
    (Fault.error { code := .invalidArgument, offset := start })
  let (cif, offset) ← (List.range' 1 7).foldlM (takeCif data first)
    (Function.update (fun _ => 0) 0 first, offset)
  let attributes ← takeAttributes first (cif 7) start
  let selected ← ((List.range 4).flatMap (indicated cif)).foldlM (selectField capacity start) []
  rejectIf ([1, 2, 3].any fun i => bit first i && cif i == 0)
    (Fault.error { code := .unsupportedLayout, offset := start })
  rejectIf (aggregate > capacity ∨ selected.length > capacity - aggregate)
    (Fault.error { code := .resourceLimit, offset := start })
  return ({ cif, attributes, selected, bytes := offset - start, change := bit first 31 },
    aggregate + selected.length)

/-! ## Decoding -/

structure PacketView where
  envelope : EnvelopeView
  fields : List FieldView := []
  bodyKind : BodyKind := .values
  isOpaque : Bool := false
  change : Bool := false
  requiresRequestContext : Bool := false

def validateDiagnosticBits (bits : UInt32) (cancel : Bool) : Result Unit := do
  rejectIf (bits &&& 0x0007e001 ≠ 0) (failure .invalidArgument)
  rejectIf (cancel ∧ bits &&& 0x1ff80000 ≠ 0) (failure .invalidArgument)

/-- The timestamp format of an envelope, as a binding. -/
def envelopeBinding (e : Envelope) : TimestampFormatBinding :=
  { tsi := UInt8.ofNat e.timestamp.tsi.code, tsf := UInt8.ofNat e.timestamp.tsf.code, bound := true }

/-- `payload.subspan(offset, count)`. -/
def subspan (data : Bytes) (offset count : ℕ) : Decoded Bytes :=
  if offset + count ≤ data.length then return (data.drop offset).take count else throw .outside

/-- The body that `append_fields` reads: its kind and group, where it starts, and the header bytes
that the traversal's offsets count and the wire position does not. -/
structure BodyReader where
  kind : BodyKind
  group : DiagnosticGroup := .none
  envelope : Envelope
  payload : Bytes
  valuesOffset : ℕ
  ownHeader : ℕ
  viewCapacity : ℕ

namespace BodyReader

def wireOffset (r : BodyReader) (offset : ℕ) : Decoded ℕ :=
  (checkedAdd r.valuesOffset (offset - r.ownHeader)).decoded

def provider (r : BodyReader) (id : FieldId) (attr : Attribute) (offset : ℕ) :
    Decoded FieldExtent := do
  let position ← r.wireOffset offset
  rejectIf (position > r.payload.length) (Fault.error { code := .shortInput, offset := position })
  if attr.base ∧ structuredField id then
    wireStructureExtent id (r.payload.drop position) (envelopeBinding r.envelope)
  else
    let size := if attr.base then ((descriptor id).elim 0 FieldDescriptor.words) * 4 else 4
    rejectIf (size > r.payload.length - position)
      (Fault.error { code := .shortInput, offset := position, requiredCapacity := position + size })
    return { bytes := size, units := 1 }

/-- The check of one element's bytes. -/
def checkElement (r : BodyReader) (e : LayoutElement) (position : ℕ) (bytes : Bytes) :
    Decoded Unit := do
  match r.kind with
  | .diagnostics =>
    let bits ← load32 r.payload position
    (validateDiagnosticBits bits r.envelope.cancel).decoded
  | .values => validateWireAttribute e.field e.attr bytes (envelopeBinding r.envelope)
  | .selectors => return ()

def visitor (r : BodyReader) (fields : List FieldView) (e : LayoutElement) :
    Decoded (List FieldView) := do
  let position ← r.wireOffset e.offset
  rejectIf (position > r.payload.length ∨ e.bytes > r.payload.length - position)
    (Fault.error { code := .shortInput, offset := position, requiredCapacity := position + e.bytes })
  let bytes ← subspan r.payload position e.bytes
  r.checkElement e position bytes
  rejectIf (fields.length ≥ r.viewCapacity) (Fault.error (failure .resourceLimit))
  return fields ++ [{ id := e.field, attr := e.attr, kind := r.kind, group := r.group,
                      timestampFormat := envelopeBinding r.envelope, bytes, position }]

def walk (r : BodyReader) (limits : TraversalLimits) : Walk FieldId (List FieldView) :=
  { body := r.kind, limits, idOf := fun id => id, provider := r.provider, visitor := r.visitor }

end BodyReader

/-- What `append_fields` leaves: the views so far, the work done and the size of the body. -/
structure Appended where
  fields : List FieldView
  work : ℕ
  size : ℕ

def appendFields (r : BodyReader) (limits : TraversalLimits) (plan : IndicatorPlan) (work : ℕ)
    (fields : List FieldView) : Decoded Appended := do
  let s ← (r.walk limits).run (plan.cif 0) plan.attributes plan.selected work fields
  return { fields := s.visited, work := s.work, size := s.offset - r.ownHeader }

/-- A values body directly after one group of indicators. -/
def valuesReader (env : EnvelopeView) (plan : IndicatorPlan) (viewCapacity : ℕ) : BodyReader :=
  { kind := .values, envelope := env.envelope, payload := env.payload, valuesOffset := plan.bytes,
    ownHeader := plan.bytes, viewCapacity }

/-- A selector body has no bytes; its views name the selected attributes. -/
def selectorWalk (viewCapacity : ℕ) (limits : TraversalLimits) : Walk FieldId (List FieldView) :=
  { body := .selectors, visitSelectors := true, limits, idOf := fun id => id
    provider := fun _ _ _ => return {}
    visitor := fun fields e => do
      rejectIf (fields.length ≥ viewCapacity) (Fault.error (failure .resourceLimit))
      return fields ++ [{ id := e.field, attr := e.attr, kind := .selectors }] }

/-- The body of a Context packet. -/
def decodeContext (fieldCapacity viewCapacity : ℕ) (env : EnvelopeView) (options : DecodeOptions) :
    Decoded PacketView := do
  let (plan, _) ← parseIndicators fieldCapacity env.payload 0 true 0
  let body ← appendFields (valuesReader env plan viewCapacity) options.limits plan 0 []
  rejectIf (plan.bytes + body.size ≠ env.payload.length)
    (Fault.error { code := .invalidArgument, offset := plan.bytes + body.size })
  return { envelope := env, fields := body.fields, change := plan.change }

/-- A command without a body of values. -/
def selectorsCommand (e : Envelope) (cam : UInt32) : Bool :=
  !e.ack && (e.cancel || decide (bits cam 23 2 = 0))

/-- The body of a Control, Cancellation or Query, or of a state acknowledgement. -/
def decodeCommand (fieldCapacity viewCapacity : ℕ) (env : EnvelopeView) (cam : UInt32)
    (options : DecodeOptions) : Decoded PacketView := do
  let e := env.envelope
  let (plan, _) ← parseIndicators fieldCapacity env.payload 0 (!e.ack && !e.cancel) 0
  if selectorsCommand e cam then
    let s ← (selectorWalk viewCapacity options.limits).run (plan.cif 0) plan.attributes plan.selected
      0 []
    rejectIf (plan.bytes ≠ env.payload.length)
      (Fault.error { code := .invalidArgument, offset := plan.bytes })
    return { envelope := env, fields := s.visited, bodyKind := .selectors, change := plan.change }
  else
    let body ← appendFields (valuesReader env plan viewCapacity) options.limits plan 0 []
    rejectIf (plan.bytes + body.size ≠ env.payload.length)
      (Fault.error { code := .invalidArgument, offset := plan.bytes + body.size })
    return { envelope := env, fields := body.fields, change := plan.change }

/-- One group of a diagnostic body, when it is there: its indicators, and the offset and the number of
fields after them. -/
def parseGroup (present : Bool) (fieldCapacity : ℕ) (payload : Bytes) (offset selected : ℕ) :
    Decoded (Option IndicatorPlan × ℕ × ℕ) :=
  if present then do
    let (plan, selected) ← parseIndicators fieldCapacity payload offset false selected
    return (some plan, offset + plan.bytes, selected)
  else return (none, offset, selected)

def diagnosticReader (env : EnvelopeView) (group : DiagnosticGroup) (plan : IndicatorPlan)
    (offset viewCapacity : ℕ) : BodyReader :=
  { kind := .diagnostics, group, envelope := env.envelope, payload := env.payload,
    valuesOffset := offset, ownHeader := plan.bytes, viewCapacity }

/-- The words of one group, from `offset`; the offset after them is the second result. -/
def appendGroup (env : EnvelopeView) (viewCapacity : ℕ) (limits : TraversalLimits)
    (group : DiagnosticGroup) (plan : Option IndicatorPlan) (offset work : ℕ)
    (fields : List FieldView) : Decoded (List FieldView × ℕ × ℕ) :=
  match plan with
  | none => return (fields, offset, work)
  | some plan => do
    let body ← appendFields (diagnosticReader env group plan offset viewCapacity) limits plan work
      fields
    return (body.fields, offset + body.size, body.work)

/-- The body of a diagnostic acknowledgement: both groups of indicators, then both groups of words. -/
def decodeDiagnostics (fieldCapacity viewCapacity : ℕ) (env : EnvelopeView) (warning error : Bool)
    (options : DecodeOptions) : Decoded PacketView := do
  let (warnings, offset, selected) ← parseGroup warning fieldCapacity env.payload 0 0
  let (errors, offset, _) ← parseGroup error fieldCapacity env.payload offset selected
  let (fields, offset, work) ←
    appendGroup env viewCapacity options.limits .warning warnings offset 0 []
  let (fields, offset, _) ← appendGroup env viewCapacity options.limits .error errors offset work fields
  rejectIf (offset ≠ env.payload.length)
    (Fault.error { code := .invalidArgument, offset := offset })
  return { envelope := env, fields, bodyKind := .diagnostics }

/-- The groups of a diagnostic acknowledgement: announced by its CAM and requested by the original. -/
def groupPresent (cam : UInt32) (request : Option RequestContext) (n : ℕ) : Bool :=
  bit cam n && request.any fun r => bit r.cam n

/-- The body of any command packet. -/
def decodeCommandBody (fieldCapacity viewCapacity : ℕ) (env : EnvelopeView) (cam : UInt32)
    (options : DecodeOptions) : Decoded PacketView :=
  if ¬env.envelope.ack ∨ bit cam 18 then decodeCommand fieldCapacity viewCapacity env cam options
  else if (bit cam 17 ∨ bit cam 16) ∧ options.request.isNone then
    return { envelope := env, bodyKind := .diagnostics, isOpaque := true,
             requiresRequestContext := true }
  else decodeDiagnostics fieldCapacity viewCapacity env (groupPresent cam options.request 17)
    (groupPresent cam options.request 16) options

/-- The body after a decoded envelope. -/
def decodeBody (fieldCapacity viewCapacity : ℕ) (env : EnvelopeView) (options : DecodeOptions) :
    Decoded PacketView :=
  let e := env.envelope
  if isData e.type ∨ isExtension e.type then return { envelope := env, isOpaque := true }
  else if e.type = .context then decodeContext fieldCapacity viewCapacity env options
  else
    match e.command with
    -- `decode_envelope` has read the command words of every command packet
    | none => throw .outside
    | some c => decodeCommandBody fieldCapacity viewCapacity env c.cam options

def decodePacketBounded (fieldCapacity viewCapacity : ℕ) (wire : Bytes) (options : DecodeOptions) :
    Decoded PacketView := do
  let env ← decodeEnvelope wire
  rejectIf (options.expectedClass.isSome ∧ env.envelope.classId ≠ options.expectedClass)
    (Fault.error (failure .unsupportedCapability))
  decodeBody fieldCapacity viewCapacity env options

/-! ## Encoding -/

def writeIndicators (layout : LayoutContext) (change : Bool) : Bytes :=
  be32 (layout.cif 0 ||| (if change then (1 : UInt32) <<< 31 else 0)) ++
    ((List.range' 1 7).filter (bit (layout.cif 0) ·)).flatMap fun i => be32 (layout.cif i)

/-- The extent of a stored value: the provider of `walk_layout`. -/
def storedExtent (binding : TimestampFormatBinding) (entry : FieldEntry) (attr : Attribute)
    (offset : ℕ) : Result FieldExtent := do
  match entry.values attr with
  | none => throw { code := .invalidArgument, offset := offset }
  | some value =>
    if attr.base ∧ structuredField entry.id then
      match value with
      | .native v => nativeStructureExtent entry.id v binding attr
      | _ => throw (failure .invalidArgument)
    else
      validateAttributeValue entry.id attr value
      return { bytes := if attr.base then ((descriptor entry.id).elim 0 FieldDescriptor.words) * 4
                        else 4, units := 1 }

def layoutWalk {σ : Type} (kind : BodyKind) (binding : TimestampFormatBinding)
    (visitor : σ → LayoutElement → Decoded σ) : Walk FieldEntry σ :=
  { body := kind, idOf := FieldEntry.id
    provider := fun entry attr offset => (storedExtent binding entry attr offset).decoded
    visitor }

/-- `walk_layout` with a visitor. -/
def walkLayout {σ : Type} (kind : BodyKind) (s : PacketSnapshot)
    (visitor : σ → LayoutElement → Decoded σ) (visited : σ) : Decoded (WalkState σ) :=
  (layoutWalk kind s.layout.timestampFormat visitor).run (s.layout.cif 0) s.layout.attributes s.fields
    0 visited

/-- The bytes of a snapshot's body, its indicators included. -/
def measure (kind : BodyKind) (s : PacketSnapshot) : Decoded ℕ := do
  let state ← walkLayout kind s (fun () _ => return ()) ()
  return state.offset

/-- The bytes of one element. -/
def writeElement (kind : BodyKind) (s : PacketSnapshot) (e : LayoutElement) : Result Bytes := do
  match s.fields.find? (·.id = e.field) with
  | none => throw (failure .invalidState)
  | some entry =>
    match kind with
    | .diagnostics => return be32 entry.diagnostic
    | .selectors => return []
    | .values =>
      match entry.values e.attr, descriptor e.field with
      | some value, some d =>
        if e.attr.base ∧ structuredField e.field then
          match value with
          | .native v => writeStructure e.field v e.bytes s.layout.timestampFormat e.attr
          | _ => throw (failure .invalidArgument)
        else return writeAttributeScalar d e.attr value
      | _, _ => throw (failure .invalidState)

/-- `write_values`: the elements' bytes one after the other. -/
def writeValues (kind : BodyKind) (s : PacketSnapshot) : Decoded Bytes := do
  let state ← walkLayout kind s (fun written e => do
    let bytes ← (writeElement kind s e).decoded
    return written ++ bytes) []
  return state.visited

/-- The scalars as the decoder will check them. -/
def checkScalars (s : PacketSnapshot) : Decoded Unit :=
  s.fields.forM fun field => Attribute.all.forM fun a =>
    match field.values a, descriptor field.id with
    | some value, some d =>
      if a.base ∧ structuredField field.id then return ()
      else validateWireAttribute field.id a (writeAttributeScalar d a value) {}
    | _, _ => return ()

/-- The temporal structures are in the envelope's timestamp format. -/
def checkBindings (e : Envelope) (s : PacketSnapshot) : Result Unit := do
  let binding := s.layout.timestampFormat
  rejectIf (PacketBuilder.requiredBindings s.fields ≠ [] ∧ ¬binding.bound)
    (failure .unsupportedCapability)
  rejectIf (PacketBuilder.requiredBindings s.fields ≠ [] ∧
    (binding.tsi.toNat ≠ e.timestamp.tsi.code ∨ binding.tsf.toNat ≠ e.timestamp.tsf.code))
    (failure .invalidArgument)

/-- The body and the subtype of the snapshot are those of the envelope. -/
def checkSnapshot (kind : BodyKind) (e : Envelope) (s : PacketSnapshot) : Result Unit := do
  if e.type = .context then
    rejectIf (kind ≠ .values) (failure .invalidArgument)
    rejectIf (s.layout.subtype ≠ .context) (failure .invalidArgument)
  else
    match e.command with
    | none => throw (failure .invalidArgument)
    | some c =>
      let selectors := selectorsCommand e c.cam
      rejectIf ((if selectors then .selectors else .values) ≠ kind ∨ e.ack ∧ ¬bit c.cam 18)
        (failure .invalidArgument)
      rejectIf (s.layout.action ≠ bits c.cam 23 2) (failure .invalidArgument)
      let expected : PacketSubtype := if e.ack then .stateAck else if e.cancel then .cancel
        else if selectors then .query else .control
      rejectIf (s.layout.subtype ≠ expected) (failure .invalidArgument)

def encodePacket (kind : BodyKind) (e : Envelope) (s : PacketSnapshot) (change : Bool)
    (capacity : ℕ) : Decoded Bytes := do
  rejectIf (isData e.type ∨ isExtension e.type ∨ e.trailer) invalidWire
  rejectIf (change ∧ e.type ≠ .context ∧ ¬(e.type = .command ∧ ¬e.ack ∧ ¬e.cancel)) invalidWire
  (checkSnapshot kind e s).decoded
  rejectIf (s.layout.packetClass ≠ 0 ∧
    ∀ c ∈ e.classId, s.layout.packetClass ≠ c.packetClass) invalidWire
  if kind = .values then (checkBindings e s).decoded
  let body ← measure kind s
  if kind = .values then checkScalars s
  let total ← (measureEnvelope e body).decoded
  rejectIf (capacity < total)
    (Fault.error { code := .shortOutput, offset := 0, requiredCapacity := total })
  let values ← writeValues kind s
  (encodeEnvelope e (writeIndicators s.layout change ++ values) none capacity).decoded

end Vita.Codec
