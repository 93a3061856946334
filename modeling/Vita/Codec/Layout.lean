import Vita.Codec.Scalar
import Vita.Codec.Wire
import Vita.Fields.Packet

/-!
# Field layout (`codec/layout.hpp`)

The extents of native structures and `walk_field_layout`, the one traversal that the encoder and the
decoder share: fields in their order, for each field the selected attributes in ascending order, with
offsets, per-structure limits and a work budget. A visitor with its own state sees every element.
-/

namespace Vita.Codec

open Words Checked

structure TraversalLimits where
  associationEntries : ℕ := 1024
  workUnits : ℕ := 4096
  indexEntries : ℕ := 1024
  records : ℕ := 256
deriving DecidableEq, Repr

structure FieldExtent where
  bytes : ℕ := 0
  units : ℕ := 1
  indexEntries : ℕ := 0
  records : ℕ := 0
deriving DecidableEq, Repr

structure LayoutElement where
  field : FieldId
  attr : Attribute
  offset : ℕ
  bytes : ℕ
deriving DecidableEq, Repr

/-! ## Extents of native structures -/

/-- `(n + 3) & ~3`. -/
def paddedBytes (n : ℕ) : ℕ := (n + 3) / 4 * 4

def durationExtent (binding : TimestampFormatBinding) : Result FieldExtent := do
  rejectIf (binding.tsi > 3 ∨ binding.tsf > 3) (failure .invalidArgument)
  rejectIf (¬binding.bound ∨ binding.tsi = 0 ∧ binding.tsf = 0) (failure .unsupportedCapability)
  return { bytes := startWords binding * 4, units := startWords binding }

def indicesExtent (v : IndexListValue) : Result FieldExtent := do
  rejectIf (v.entries.length > 1024 ∨ ¬validEntryBytes v.entryBytes.toNat) (failure .invalidArgument)
  rejectIf (¬∀ value ∈ v.entries, entryFits v.entryBytes.toNat value) (failure .invalidArgument)
  return { bytes := 8 + paddedBytes (v.entries.length * v.entryBytes.toNat)
           units := 2 + v.entries.length, indexEntries := v.entries.length }

def pointingExtent (v : PointingVectorValue) (current : Bool) : Result FieldExtent := do
  rejectIf (v.records.length > 256) (failure .invalidArgument)
  let shape ← pointingShape v.global.isSome v.recordReference v.records.length
  validateGlobal v.global
  v.records.forM fun record => validatePointing { v with records := [record] } current
  return { bytes := shape.totalWords * 4, units := shape.totalWords, records := shape.records }

def sectorsExtent (v : SectorStepScanValue) (binding : TimestampFormatBinding) (current : Bool) :
    Result FieldExtent := do
  rejectIf (v.records.length > 256) (failure .invalidArgument)
  let shape ← sectorShape v.selectors v.records.length v.startFormat
  rejectIf (bit v.selectors 22 ∧ ¬binding.bound) (failure .unsupportedCapability)
  rejectIf (bit v.selectors 22 ∧ (binding.tsi ≠ v.startFormat.tsi ∨ binding.tsf ≠ v.startFormat.tsf))
    (failure .invalidArgument)
  v.records.forM fun record => validateSector { v with records := [record] } current
  return { bytes := shape.totalWords * 4, units := shape.totalWords, records := shape.records }

def stateDurationExtent (v : StateDurationValue) (binding : TimestampFormatBinding) :
    Result FieldExtent := do
  validateDuration v
  let extent ← durationExtent binding
  rejectIf (v.tsi ≠ binding.tsi ∨ v.tsf ≠ binding.tsf) (failure .invalidArgument)
  return extent

def asciiExtent (v : GpsAsciiValue) : Result FieldExtent := do
  validateAscii v.oui v.text
  let padded ← checkedAdd v.text.length 3
  let extent ← checkedAdd 8 (padded / 4 * 4)
  return { bytes := extent, units := extent - 6 }

def associationsExtent (v : AssociationLists) : Result FieldExtent := do
  rejectIf (v.source.length > 1024 ∨ v.system.length > 1024 ∨ v.vector.length > 1024 ∨
    v.asynchronous.length > 1024 ∨ v.tags.length > 1024) (failure .resourceLimit)
  rejectIf (v.count > 1024 ∨ v.source.length > 511 ∨ v.system.length > 511 ∨
    (if v.tagsPresent then v.tags.length ≠ v.asynchronous.length else v.tags.length ≠ 0))
    (failure .invalidArgument)
  return { bytes := 8 + 4 * v.count, units := 2 + v.count }

/-- `native_structure_extent`. A builder stores only structures of their own field. -/
def nativeStructureExtent (id : FieldId) (v : NativeValue) (binding : TimestampFormatBinding)
    (attr : Attribute) : Result FieldExtent := do
  rejectIf (¬v.matches id) (failure .invalidArgument)
  match v with
  | .indices v => indicesExtent v
  | .pointing v => pointingExtent v (attr = .current)
  | .spectrum v => do
    validateSpectrum v (attr = .current)
    return { bytes := 52, units := 13 }
  | .sectors v => sectorsExtent v binding (attr = .current)
  | .duration v => stateDurationExtent v binding
  | .uuid v => do
    validateUuid v (attr = .current)
    return { bytes := 16, units := 4 }
  | .geolocation v => do
    validateGeolocation v (attr = .current)
    return { bytes := 44, units := 11 }
  | .ephemeris v => do
    validateEphemeris v
    return { bytes := 52, units := 13 }
  | .gpsAscii v => asciiExtent v
  | .associations v => associationsExtent v

/-! ## The traversal -/

/-- The number of indicator words that a CIF0 word announces, itself included. -/
def indicatorCount (cif0 : UInt32) : ℕ := 1 + ((List.range' 1 7).filter (bit cif0 ·)).length

structure WalkState (σ : Type) where
  offset : ℕ
  work : ℕ
  visited : σ

section Walk

variable {F σ : Type}

/-- What a traversal is given: the body's kind, the fields' identifiers, the extents of value fields
and the visitor. `visitSelectors` makes it visit selectors too. -/
structure Walk (F σ : Type) where
  body : BodyKind
  visitSelectors : Bool := false
  limits : TraversalLimits := {}
  idOf : F → FieldId
  provider : F → Attribute → ℕ → Decoded FieldExtent
  visitor : σ → LayoutElement → Decoded σ

def Walk.extent (w : Walk F σ) (field : F) (attr : Attribute) (offset : ℕ) : Decoded FieldExtent :=
  match w.body with
  | .values => w.provider field attr offset
  | .selectors => return { bytes := 0, units := 1 }
  | .diagnostics => return { bytes := 4, units := 1 }

/-- The limits an element has to respect after `work` units. -/
def Walk.checkLimits (w : Walk F σ) (id : FieldId) (attr : Attribute) (extent : FieldExtent)
    (offset work : ℕ) : Decoded Unit := do
  let limit := Fault.error { code := .resourceLimit, offset := offset }
  rejectIf (id = Field.contextAssociationLists ∧ w.body = .values ∧ attr.base ∧
    extent.units - 2 > w.limits.associationEntries) limit
  rejectIf (extent.indexEntries > w.limits.indexEntries ∨ extent.records > w.limits.records) limit
  rejectIf (work > w.limits.workUnits ∨ extent.units > w.limits.workUnits - work) limit

/-- Selectors are visited only on request. -/
def Walk.visit (w : Walk F σ) (visited : σ) (e : LayoutElement) : Decoded σ :=
  if w.body ≠ .selectors ∨ w.visitSelectors then w.visitor visited e else return visited

/-- One attribute of one field. -/
def Walk.element (w : Walk F σ) (field : F) (s : WalkState σ) (attr : Attribute) :
    Decoded (WalkState σ) := do
  let extent ← w.extent field attr s.offset
  let next ← (checkedAdd s.offset extent.bytes).decoded
  w.checkLimits (w.idOf field) attr extent s.offset s.work
  let visited ← w.visit s.visited
    { field := w.idOf field, attr, offset := s.offset, bytes := extent.bytes }
  return { offset := next, work := s.work + extent.units, visited }

/-- One field with all selected attributes. -/
def Walk.field (w : Walk F σ) (attributes : UInt32) (s : WalkState σ) (field : F) :
    Decoded (WalkState σ) := do
  match descriptor (w.idOf field) with
  | none => throw (Fault.error { code := .unsupportedLayout, offset := s.offset })
  | some d =>
    rejectIf (effectiveAttributes attributes &&& ~~~d.attributes ≠ 0)
      (Fault.error { code := .unsupportedLayout, offset := s.offset })
    (selectedAttributes attributes).foldlM (w.element field) s

/-- `walk_field_layout` from the start of the indicator words; the final state. -/
def Walk.run (w : Walk F σ) (cif0 attributes : UInt32) (fields : List F) (work : ℕ) (visited : σ) :
    Decoded (WalkState σ) :=
  fields.foldlM (w.field attributes) { offset := indicatorCount cif0 * 4, work, visited }

/-- The limits depend only on the body and the limits of a traversal. -/
theorem Walk.checkLimits_congr {G τ : Type} {w : Walk F σ} {w' : Walk G τ} (hbody : w.body = w'.body)
    (hlimits : w.limits = w'.limits) (id : FieldId) (attr : Attribute) (extent : FieldExtent)
    (offset work : ℕ) :
    w.checkLimits id attr extent offset work = w'.checkLimits id attr extent offset work := by
  simp only [Walk.checkLimits, hbody, hlimits]

/-- The elements of a traversal in their order. -/
def walkElements (attributes : UInt32) (fields : List F) : List (F × Attribute) :=
  fields.flatMap fun f => (selectedAttributes attributes).map (f, ·)

/-- A traversal checks the attributes of every field and visits the elements one after the other. -/
theorem Walk.run_eq_ok {w : Walk F σ} {cif0 attributes : UInt32} {fields : List F} {work : ℕ}
    {visited : σ} {s : WalkState σ} :
    w.run cif0 attributes fields work visited = .ok s ↔
      (∀ f ∈ fields, ∃ d, descriptor (w.idOf f) = some d ∧
        effectiveAttributes attributes &&& ~~~d.attributes = 0) ∧
      (walkElements attributes fields).foldlM (fun t e => w.element e.1 t e.2)
        { offset := indicatorCount cif0 * 4, work, visited } = .ok s := by
  have hfield : ∀ (f : F) (t t' : WalkState σ), w.field attributes t f = .ok t' ↔
      (∃ d, descriptor (w.idOf f) = some d ∧ effectiveAttributes attributes &&& ~~~d.attributes = 0) ∧
      ((selectedAttributes attributes).map (f, ·)).foldlM (fun t e => w.element e.1 t e.2) t =
        .ok t' := by
    intro f t t'
    rw [List.foldlM_map, Walk.field]
    cases descriptor (w.idOf f) with
    | none => simp
    | some d => simp
  unfold Walk.run walkElements
  generalize ({ offset := indicatorCount cif0 * 4, work, visited } : WalkState σ) = t
  induction fields generalizing t with
  | nil => simp
  | cons f fields ih =>
    rw [List.foldlM_cons, bind_eq_ok, List.flatMap_cons, List.foldlM_append, bind_eq_ok,
      List.forall_mem_cons]
    constructor
    · rintro ⟨t', hf, hrest⟩
      obtain ⟨hd, hf⟩ := (hfield f t t').mp hf
      obtain ⟨hall, hrest⟩ := (ih t').mp hrest
      exact ⟨⟨hd, hall⟩, t', hf, hrest⟩
    · rintro ⟨⟨hd, hall⟩, t', hf, hrest⟩
      exact ⟨t', (hfield f t t').mpr ⟨hd, hf⟩, (ih t').mpr ⟨hall, hrest⟩⟩

/-- The invariant rule of a traversal: what holds of the visited elements and the state before a step
holds after it, so it holds of all elements at the end. -/
theorem Walk.run_induction {w : Walk F σ} {cif0 attributes : UInt32} {fields : List F} {work : ℕ}
    {visited : σ} {s : WalkState σ} (P : List (F × Attribute) → WalkState σ → Prop)
    (hinit : P [] { offset := indicatorCount cif0 * 4, work, visited })
    (hstep : ∀ done f a t t', P done t → w.element f t a = .ok t' → P (done ++ [(f, a)]) t')
    (h : w.run cif0 attributes fields work visited = .ok s) :
    P (walkElements attributes fields) s :=
  foldlM_induction P hinit (fun done e t t' _ => hstep done e.1 e.2 t t') (Walk.run_eq_ok.mp h).2

end Walk

end Vita.Codec
