import Vita.Codec.Packet
import Vita.Common.Buffer

/-!
# Encoding into an output buffer (`codec/packet.hpp`, `codec/wire.hpp`)

The encoders with the output they are given: what they store, where, and in which order. Offsets are
those of the output; a store outside of it would be the fault `outside`. The bytes of a structure, a
group of indicators or a prologue are stored at once, since nothing can fail between them.
-/

namespace Vita.Codec

open Words Checked Buffer

/-- A computation that writes into the output. -/
abbrev Encoding (α : Type) := Writer Fault UInt8 α

/-- Store bytes in the output. -/
def put (offset : ℕ) (bytes : Bytes) : Encoding Unit := store .outside offset bytes

/-- `output.subspan(offset, count)`, read back. -/
def outputSpan (offset count : ℕ) : Encoding Bytes := do
  let output ← get
  check (subspan output offset count)

/-- The output has room for `total` bytes. -/
def checkRoom (total : ℕ) : Encoding Unit := do
  let output ← get
  check (rejectIf (output.length < total)
    (Fault.error { code := .shortOutput, offset := 0, requiredCapacity := total }))

/-- `encode_envelope`. The payload may be part of the output: it is moved to its place before the
prologue is written. -/
def encodeEnvelopeInto (e : Envelope) (payload : Bytes) (trailer : Option UInt32) : Encoding ℕ := do
  check (rejectIf (e.trailer ≠ trailer.isSome) (Fault.error invalidArgument))
  let size ← check (measureEnvelope e payload.length).decoded
  checkRoom size
  put (size - payload.length - (if e.trailer then 4 else 0)) payload
  put 0 (prologue e size)
  let offset := (prologue e size).length + payload.length
  match trailer with
  | none => return offset
  | some t => do
    put offset (be32 t)
    return offset + 4

/-! ## Values -/

section Walk

variable {F : Type}

/-- One attribute of one field, with a visitor that writes. -/
def Walk.elementInto (w : Walk F Unit) (visit : LayoutElement → Encoding Unit) (field : F)
    (s : WalkState Unit) (attr : Attribute) : Encoding (WalkState Unit) := do
  let extent ← check (w.extent field attr s.offset)
  let next ← check (checkedAdd s.offset extent.bytes).decoded
  check (w.checkLimits (w.idOf field) attr extent s.offset s.work)
  if w.body ≠ .selectors ∨ w.visitSelectors then
    visit { field := w.idOf field, attr, offset := s.offset, bytes := extent.bytes }
  return { offset := next, work := s.work + extent.units, visited := () }

/-- One field with all selected attributes. -/
def Walk.fieldInto (w : Walk F Unit) (visit : LayoutElement → Encoding Unit) (attributes : UInt32)
    (s : WalkState Unit) (field : F) : Encoding (WalkState Unit) := do
  match descriptor (w.idOf field) with
  | none => check (throw (Fault.error { code := .unsupportedLayout, offset := s.offset }))
  | some d =>
    check (rejectIf (effectiveAttributes attributes &&& ~~~d.attributes ≠ 0)
      (Fault.error { code := .unsupportedLayout, offset := s.offset }))
    (selectedAttributes attributes).foldlM (w.elementInto visit field) s

/-- `walk_field_layout` with a visitor that writes. -/
def Walk.runInto (w : Walk F Unit) (visit : LayoutElement → Encoding Unit) (cif0 attributes : UInt32)
    (fields : List F) : Encoding (WalkState Unit) :=
  fields.foldlM (w.fieldInto visit attributes)
    { offset := indicatorCount cif0 * 4, work := 0, visited := () }

end Walk

/-- `write_values` into the payload that begins at `payload` in the output. The traversal's offsets
count the snapshot's own header, the payload's need not. -/
def writeValuesInto (kind : BodyKind) (s : PacketSnapshot) (payload valuesStart ownHeader : ℕ) :
    Encoding Unit := do
  let _ ← (layoutWalk kind s.layout.timestampFormat fun () _ => return ()).runInto
    (fun e => do
      let bytes ← check (writeElement kind s e).decoded
      put (payload + (valuesStart + e.offset - ownHeader)) bytes)
    (s.layout.cif 0) s.layout.attributes s.fields

/-! ## Packets -/

/-- The checks of `encode_packet` before it measures the body. -/
def checkPacket (kind : BodyKind) (e : Envelope) (s : PacketSnapshot) (change : Bool) :
    Decoded Unit := do
  rejectIf (isData e.type ∨ isExtension e.type ∨ e.trailer) invalidWire
  rejectIf (change ∧ e.type ≠ .context ∧ ¬(e.type = .command ∧ ¬e.ack ∧ ¬e.cancel)) invalidWire
  (checkSnapshot kind e s).decoded
  rejectIf (s.layout.packetClass ≠ 0 ∧
    ∀ c ∈ e.classId, s.layout.packetClass ≠ c.packetClass) invalidWire
  if kind = .values then (checkBindings e s).decoded

/-- `encode_packet`; the number of bytes it wrote. -/
def encodePacketInto (kind : BodyKind) (e : Envelope) (s : PacketSnapshot) (change : Bool) :
    Encoding ℕ := do
  check (checkPacket kind e s change)
  let body ← check (measure kind s)
  check (if kind = .values then checkScalars s else return ())
  let total ← check (measureEnvelope e body).decoded
  checkRoom total
  let payload := total - body
  put payload (writeIndicators s.layout change)
  writeValuesInto kind s payload 0 0
  let bytes ← outputSpan payload body
  encodeEnvelopeInto e bytes none

/-! ## Diagnostics -/

/-- The bytes of a snapshot's indicators. -/
def indicatorSize (s : PacketSnapshot) : ℕ := indicatorCount (s.layout.cif 0) * 4

/-- The checks of `encode_diagnostic` on the envelope and on suppressed groups; the groups that are
present. -/
def checkDiagnostic (e : Envelope) (warnings errors : PacketSnapshot) (original : RequestContext) :
    Decoded (Bool × Bool) := do
  match e.command with
  | none => throw invalidWire
  | some c =>
    rejectIf (e.type ≠ .command ∨ ¬e.ack ∨ ¬(bit c.cam 20 ∨ bit c.cam 19)) invalidWire
    let w := bit c.cam 17 && bit original.cam 17
    let r := bit c.cam 16 && bit original.cam 16
    rejectIf (¬w ∧ warnings.fields ≠ [] ∨ ¬r ∧ errors.fields ≠ []) invalidWire
    return (w, r)

/-- The indicators of one group, when it is present; the offset after them. -/
def putIndicators (present : Bool) (s : PacketSnapshot) (payload offset : ℕ) : Encoding ℕ :=
  if present then do
    put (payload + offset) (writeIndicators s.layout false)
    return offset + indicatorSize s
  else return offset

/-- The words of one group of `size` bytes, when it is present; the offset after them. -/
def putWords32 (present : Bool) (s : PacketSnapshot) (payload offset size : ℕ) : Encoding ℕ :=
  if present then do
    writeValuesInto .diagnostics s payload offset (indicatorSize s)
    return offset + (size - indicatorSize s)
  else return offset

/-- `encode_diagnostic`; the number of bytes it wrote. -/
def encodeDiagnosticInto (e : Envelope) (warnings errors : PacketSnapshot) (original : RequestContext) :
    Encoding ℕ := do
  let (w, r) ← check (checkDiagnostic e warnings errors original)
  let wm ← check (measure .diagnostics warnings)
  let em ← check (measure .diagnostics errors)
  let body := (if w then wm else 0) + (if r then em else 0)
  check ((warnings.fields ++ errors.fields).forM fun f =>
    (validateDiagnosticBits f.diagnostic e.cancel).decoded)
  let total ← check (measureEnvelope e body).decoded
  checkRoom total
  let payload := total - body
  let offset ← putIndicators w warnings payload 0
  let offset ← putIndicators r errors payload offset
  let offset ← putWords32 w warnings payload offset wm
  let _ ← putWords32 r errors payload offset em
  let bytes ← outputSpan payload body
  encodeEnvelopeInto e bytes none

/-- The bytes that `encode_diagnostic` writes into an output of `capacity` bytes: both groups of
indicators, then both groups of words, each as far as it is present. -/
def encodeDiagnostic (e : Envelope) (warnings errors : PacketSnapshot) (original : RequestContext)
    (capacity : ℕ) : Decoded Bytes := do
  let (w, r) ← checkDiagnostic e warnings errors original
  let wm ← measure .diagnostics warnings
  let em ← measure .diagnostics errors
  (warnings.fields ++ errors.fields).forM fun f =>
    (validateDiagnosticBits f.diagnostic e.cancel).decoded
  let total ← (measureEnvelope e ((if w then wm else 0) + (if r then em else 0))).decoded
  rejectIf (capacity < total)
    (Fault.error { code := .shortOutput, offset := 0, requiredCapacity := total })
  let wv ← writeValues .diagnostics warnings
  let ev ← writeValues .diagnostics errors
  (encodeEnvelope e ((if w then writeIndicators warnings.layout false else []) ++
    ((if r then writeIndicators errors.layout false else []) ++
      ((if w then wv else []) ++ (if r then ev else [])))) none capacity).decoded

end Vita.Codec
