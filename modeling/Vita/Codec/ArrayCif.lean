import Vita.Codec.Packet

/-!
# Arrays of CIFs (`codec/array_cif.hpp`)

The Array-of-CIFs field holds records that share one set of indicators; a record may hold arrays again.
`walk` visits all values of an array, the nested ones included, and charges every field, view and unit
of work to one `Budget`. `validate` walks with a visitor that does nothing, `View.visit` walks again
from the budget that the validation began with.

Where a span begins in the whole input is not part of a span here, so the walk carries it as `origin`.
-/

namespace Vita.Codec.ArrayCif

open Words Checked

def arrayId : FieldId := { cif := 1, bit := 11 }

structure Options where
  timestamps : TimestampFormatBinding

/-- A cursor for a whole packet: what was used, and the maxima. -/
structure Budget where
  fields : ℕ := 0
  views : ℕ := 0
  work : ℕ := 0
  maxFields : ℕ := 128
  maxViews : ℕ := 1664
  maxWork : ℕ := 4096
  maxDepth : ℕ := 4
  maxRecords : ℕ := 256
  fieldLimits : TraversalLimits := {}
deriving DecidableEq, Repr

structure PathStep where
  ordinal : ℕ
  index : UInt32
deriving DecidableEq, Repr

/-- The steps that are in use; `depth` is their number. -/
abbrev Path := List PathStep

structure Element where
  field : FieldView
  path : Path

def arrayDescriptor : FieldDescriptor := { id := arrayId, words := 0, kind := .word }

/-- `Resolver`. -/
def resolve (id : FieldId) : Option FieldDescriptor :=
  if id = arrayId then some arrayDescriptor else descriptor id

def resourceLimit : Fault := Fault.error { code := .resourceLimit }

/-- The new count of a resource after `amount` more. -/
def charge (used limit amount : ℕ) : Decoded ℕ := do
  rejectIf (used > limit ∨ amount > limit - used) resourceLimit
  return used + amount

/-! ## Headers -/

structure Header where
  bytes : ℕ
  words : ℕ
  records : ℕ
  plan : IndicatorPlan

/-- One more field of the plan, which has room for 128. -/
def selectElement (selected : List FieldId) (id : FieldId) : Decoded (List FieldId) := do
  rejectIf (resolve id = none) (Fault.error { code := .unsupportedLayout })
  rejectIf (selected.length = 128) resourceLimit
  return selected ++ [id]

/-- The five CIF words of an array, present whether CIF0 announces them or not. -/
def readCifs (bytes : Bytes) : Decoded (ℕ → UInt32) := do
  let cif0 ← load32 bytes 12
  let cif1 ← load32 bytes 16
  let cif2 ← load32 bytes 20
  let cif3 ← load32 bytes 24
  let cif7 ← load32 bytes 28
  return fun
    | 0 => cif0
    | 1 => cif1
    | 2 => cif2
    | 3 => cif3
    | 7 => cif7
    | _ => 0

def header (bytes : Bytes) (options : Options) : Decoded Header := do
  rejectIf (options.timestamps.tsi > 3 ∨ options.timestamps.tsf > 3)
    (Fault.error { code := .invalidArgument })
  rejectIf (bytes.length < 12) (Fault.error { code := .shortInput, requiredCapacity := 12 })
  let total ← load32 bytes 0
  let header1 ← load32 bytes 4
  let width := (header1 >>> 12 &&& 4095).toNat
  let records := (header1 &&& 4095).toNat
  let third ← load32 bytes 8
  rejectIf (header1 >>> 24 ≠ 7 ∨ third ≠ 0) (Fault.error { code := .unsupportedLayout })
  let product ← (checkedMultiply width records).decoded
  let words ← (checkedAdd 8 product).decoded
  rejectIf (total.toNat ≠ words ∨ records ≠ 0 ∧ width < 1) (Fault.error { code := .invalidArgument })
  let extent ← (checkedMultiply total.toNat 4).decoded
  rejectIf (bytes.length < extent)
    (Fault.error { code := .shortInput, requiredCapacity := extent })
  let cif ← readCifs bytes
  rejectIf (cif 0 &&& 0x71 ≠ 0 ∨ cif 7 &&& ~~~allAttributes ≠ 0)
    (Fault.error { code := .invalidArgument })
  -- A zero CIF7 word without its enable bit is the current value alone.
  rejectIf (bit (cif 0) 7 ≠ decide (cif 7 ≠ 0)) (Fault.error { code := .unsupportedCapability })
  let selected ← ((List.range 4).flatMap (indicated cif)).foldlM selectElement []
  return { bytes := extent, words := width, records
           plan := { cif, attributes := cif 7, selected, bytes := indicatorCount (cif 0) * 4
                     change := bit (cif 0) 31 } }

/-! ## The walk of one record's values -/

section FieldLayout

variable {σ : Type}

/-- The limits that `walk_field_layout` sets on one value after `work` units. -/
def checkExtent (limits : TraversalLimits) (id : FieldId) (attr : Attribute) (extent : FieldExtent)
    (offset work : ℕ) : Decoded Unit := do
  let limit := Fault.error { code := .resourceLimit, offset := offset }
  rejectIf (id = Field.contextAssociationLists ∧ attr.base ∧
    extent.units - 2 > limits.associationEntries) limit
  rejectIf (extent.indexEntries > limits.indexEntries ∨ extent.records > limits.records) limit
  rejectIf (work > limits.workUnits ∨ extent.units > limits.workUnits - work) limit

/-- What `walk_field_layout` is given here: its extent provider walks nested arrays, so provider and
visitor share a state. -/
structure FieldWalk (σ : Type) where
  limits : TraversalLimits
  provider : σ → FieldId → Attribute → ℕ → Decoded (FieldExtent × σ)
  visitor : σ → LayoutElement → Decoded σ

def FieldWalk.element (w : FieldWalk σ) (id : FieldId) (s : WalkState σ) (attr : Attribute) :
    Decoded (WalkState σ) := do
  let (extent, visited) ← w.provider s.visited id attr s.offset
  let next ← (checkedAdd s.offset extent.bytes).decoded
  checkExtent w.limits id attr extent s.offset s.work
  let visited ← w.visitor visited { field := id, attr, offset := s.offset, bytes := extent.bytes }
  return { offset := next, work := s.work + extent.units, visited }

def FieldWalk.field (w : FieldWalk σ) (attributes : UInt32) (s : WalkState σ) (id : FieldId) :
    Decoded (WalkState σ) := do
  match resolve id with
  | none => throw (Fault.error { code := .unsupportedLayout, offset := s.offset })
  | some d =>
    rejectIf (effectiveAttributes attributes &&& ~~~d.attributes ≠ 0)
      (Fault.error { code := .unsupportedLayout, offset := s.offset })
    (selectedAttributes attributes).foldlM (w.element id) s

/-- `walk_field_layout` of a values body with the array's resolver. -/
def FieldWalk.run (w : FieldWalk σ) (plan : IndicatorPlan) (visited : σ) : Decoded (WalkState σ) :=
  plan.selected.foldlM (w.field plan.attributes)
    { offset := indicatorCount (plan.cif 0) * 4, work := 0, visited }

end FieldLayout

/-! ## The walk of an array -/

/-- The state of a walk. `presented` is a ghost: the elements that the visitor was called with. -/
structure Walked (σ : Type) where
  budget : Budget
  visited : σ
  presented : List Element := []

/-- A walk of the array at the head of some bytes, from a place in the input and a path on. -/
abbrev Walker (σ : Type) := Bytes → ℕ → Path → Walked σ → Decoded (ℕ × Walked σ)

section Walk

variable {σ : Type}

/-- Where a value stands in its record: the layout's offsets count indicator words that are not there,
and not the index word. -/
def placeOf (h : Header) (offset : ℕ) : ℕ := offset - h.plan.bytes + 4

/-- A value is an array again. -/
def holdsArray (id : FieldId) (attr : Attribute) : Bool := id = arrayId ∧ attr.base

/-- The extent of a value that is not an array. -/
def plainValueExtent (options : Options) (id : FieldId) (attr : Attribute) (rest : Bytes) :
    Decoded FieldExtent :=
  if attr.base ∧ structuredField id then wireStructureExtent id rest options.timestamps
  else return { bytes := if attr.base then (resolve id).elim 0 FieldDescriptor.words * 4 else 4 }

def checkPlainValue (options : Options) (id : FieldId) (attr : Attribute) (bytes : Bytes) :
    Decoded Unit :=
  if id = arrayId then do let _ ← readAttributeScalar arrayDescriptor attr bytes
  else validateWireAttribute id attr bytes options.timestamps

/-- The extent of one value of a record. A nested array charges its own units. -/
def provider (nested : Walker σ) (options : Options) (h : Header) (body : Bytes) (origin : ℕ)
    (path : Path) (s : Walked σ) (id : FieldId) (attr : Attribute) (offset : ℕ) :
    Decoded (FieldExtent × Walked σ) := do
  let place := placeOf h offset
  rejectIf (place > body.length) (Fault.error { code := .shortInput, offset := place })
  if holdsArray id attr then
    let (size, s) ← nested (body.drop place) (origin + place) path s
    rejectIf (size > body.length - place)
      (Fault.error { code := .shortInput, offset := place, requiredCapacity := place + size })
    let work ← charge s.budget.work s.budget.maxWork 0
    return ({ bytes := size, units := 0 }, { s with budget := { s.budget with work } })
  else
    let extent ← plainValueExtent options id attr (body.drop place)
    rejectIf (extent.bytes > body.length - place)
      (Fault.error { code := .shortInput, offset := place, requiredCapacity := place + extent.bytes })
    let bytes ← subspan body place extent.bytes
    checkPlainValue options id attr bytes
    let work ← charge s.budget.work s.budget.maxWork extent.units
    return (extent, { s with budget := { s.budget with work } })

def elementOf (options : Options) (path : Path) (id : FieldId) (attr : Attribute) (position : ℕ)
    (bytes : Bytes) : Element :=
  { field := { id, attr, kind := .values, timestampFormat := options.timestamps, bytes, position }
    path }

def present (visitor : σ → Element → Decoded σ) (options : Options) (h : Header) (body : Bytes)
    (origin : ℕ) (path : Path) (s : Walked σ) (e : LayoutElement) : Decoded (Walked σ) := do
  let place := placeOf h e.offset
  let views ← charge s.budget.views s.budget.maxViews 1
  let bytes ← subspan body place e.bytes
  let element := elementOf options path e.field e.attr (origin + place) bytes
  let visited ← visitor s.visited element
  return { budget := { s.budget with views }, visited, presented := s.presented ++ [element] }

/-- The walk of one record's values. The budget enforces the work of all records together, so the
work limit of one of them is the maximum itself. -/
def recordWalk (nested : Walker σ) (visitor : σ → Element → Decoded σ) (options : Options) (h : Header)
    (body : Bytes) (origin : ℕ) (path : Path) (budget : Budget) : FieldWalk (Walked σ) :=
  { limits := { budget.fieldLimits with workUnits := budget.maxWork }
    provider := provider nested options h body origin path
    visitor := present visitor options h body origin path }

/-- One record. -/
def walkRecord (nested : Walker σ) (visitor : σ → Element → Decoded σ) (options : Options)
    (h : Header) (bytes : Bytes) (origin : ℕ) (path : Path) (s : Walked σ) (record : ℕ) :
    Decoded (Walked σ) := do
  let start := 32 + record * h.words * 4
  let body ← subspan bytes start (h.words * 4)
  let index ← load32 body 0
  let recordPath := path ++ [{ ordinal := record, index }]
  let work ← charge s.budget.work s.budget.maxWork 1
  let fields ← charge s.budget.fields s.budget.maxFields h.plan.selected.length
  let measured ← (recordWalk nested visitor options h body (origin + start) recordPath s.budget).run
    h.plan { s with budget := { s.budget with work, fields } }
  rejectIf (measured.offset - h.plan.bytes + 4 ≠ body.length)
    (Fault.error { code := .invalidArgument })
  return measured.visited

/-- An array whose header is known, with `nested` for the arrays in its records. -/
def walkRecords (nested : Walker σ) (visitor : σ → Element → Decoded σ) (options : Options)
    (h : Header) (bytes : Bytes) (origin : ℕ) (path : Path) (s : Walked σ) :
    Decoded (ℕ × Walked σ) := do
  rejectIf (path.length ≥ 4 ∨ path.length ≥ s.budget.maxDepth ∨ h.records > s.budget.maxRecords)
    resourceLimit
  let work ← charge s.budget.work s.budget.maxWork 1
  let s ← (List.range h.records).foldlM (walkRecord nested visitor options h bytes origin path)
    { s with budget := { s.budget with work } }
  return (h.bytes, s)

/-- `walk`, for a number of levels. The fault after the last one stands for a call that does not
return: `inside_walk` shows that five levels are enough. -/
def walk (visitor : σ → Element → Decoded σ) (options : Options) : ℕ → Walker σ
  | 0, _, _, _, _ => throw Fault.outside
  | levels + 1, bytes, origin, path, s => do
    let h ← header bytes options
    walkRecords (walk visitor options levels) visitor options h bytes origin path s

end Walk

/-! ## Views -/

/-- The number of levels that a walk from the empty path needs. -/
def maxLevels : ℕ := 5

/-- A validated array. `walked` is a ghost: the elements that the validation presented. -/
structure View where
  bytes : Bytes
  options : Options
  initial : Budget
  walked : List Element

/-- The visitor of the validation. -/
def noop (_ : Unit) (_ : Element) : Decoded Unit := return ()

/-- The checks of `validate` on a copy of the budget, which is what the view and the caller get. -/
def validateCandidate (exactField : Bytes) (options : Options) (shared : Budget) :
    Decoded (View × Budget) := do
  let parsed ← header exactField options
  rejectIf (parsed.bytes ≠ exactField.length) (Fault.error { code := .invalidArgument })
  let fields ← charge shared.fields shared.maxFields 1
  let initial := { shared with fields }
  let (walked, s) ← walkRecords (walk noop options (maxLevels - 1)) noop options parsed exactField 0 []
    { budget := initial, visited := () }
  rejectIf (walked ≠ exactField.length) (Fault.error { code := .invalidArgument })
  return ({ bytes := exactField, options, initial, walked := s.presented }, s.budget)

/-- `validate`: the result, and the shared budget after it. -/
def validate (exactField : Bytes) (options : Options) (shared : Budget) : Decoded View × Budget :=
  match validateCandidate exactField options shared with
  | .ok (view, candidate) => (.ok view, candidate)
  | .error e => (.error e, shared)

namespace View

def recordCount (view : View) : Decoded ℕ := do
  let header1 ← load32 view.bytes 4
  return (header1 &&& 4095).toNat

def record (view : View) (index : ℕ) : Decoded Bytes := do
  let count ← view.recordCount
  rejectIf (index ≥ count) (Fault.error { code := .invalidArgument })
  let header1 ← load32 view.bytes 4
  let width := (header1 >>> 12 &&& 4095).toNat
  subspan view.bytes (32 + index * width * 4) (width * 4)

/-- `visit` with a visitor and its state. -/
def visit {σ : Type} (view : View) (visitor : σ → Element → Decoded σ) (visited : σ) : Decoded σ := do
  let (_, s) ← walk visitor view.options maxLevels view.bytes 0 []
    { budget := view.initial, visited }
  return s.visited

end View

end Vita.Codec.ArrayCif
