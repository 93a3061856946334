import Vita.Common.BitField
import Vita.Core.Error

/-!
# Packed samples (`codec/general_samples.hpp`)

A payload of items, each with its channel and event tags, in packing fields of one width. A packing field
holds the item at its start and the tags at its end. In the link mode the fields follow each other without
a gap; in the processing mode no field crosses a 32-bit word. The C++ function `pack` compares the
addresses of its two buffers; `overlapping` is the answer of that test. An output buffer is returned with
the result of the call.
-/

namespace Vita.Codec.General

open Checked BitField

inductive PackingMode where
  | link | processing
deriving DecidableEq, Repr

inductive SampleKind where
  | real | cartesian | polar
deriving DecidableEq, Repr

inductive RepeatMode where
  | none | component | channel
deriving DecidableEq, Repr

structure PackingSpec where
  itemBits : ℕ := 16
  packingBits : ℕ := 16
  channelTagBits : ℕ := 0
  eventTagBits : ℕ := 0
  packing : PackingMode := .link
  kind : SampleKind := .real
  repeating : RepeatMode := .none
  vectorSize : ℕ := 1
  repeatCount : ℕ := 1
deriving DecidableEq, Repr

structure Limits where
  maxItems : ℕ := 4096
  maxBytes : ℕ := 65535 * 4
deriving DecidableEq, Repr

structure Shape where
  structures : ℕ := 0
  itemsPerStructure : ℕ := 0
  items : ℕ := 0
  bytes : ℕ := 0
deriving DecidableEq, Repr

structure Item where
  dataBits : UInt64 := 0
  channelTag : UInt64 := 0
  eventTag : UInt64 := 0
deriving DecidableEq, Repr

/-- `sizeof(Item)`. -/
def Item.size : ℕ := 24

structure Coordinates where
  structure' : ℕ := 0
  time : ℕ := 0
  channel : ℕ := 0
  component : ℕ := 0
deriving DecidableEq, Repr

def components : SampleKind → ℕ
  | .real => 1
  | .cartesian => 2
  | .polar => 2

def fits (v : UInt64) (bits : ℕ) : Bool := bits == 64 || v.toNat >>> bits == 0

/-- The three enumerations are checked by their types. -/
def validate (s : PackingSpec) : Result Unit := do
  rejectIf (s.itemBits = 0 ∨ s.itemBits > 64 ∨ s.packingBits = 0 ∨ s.packingBits > 64 ∨
      s.channelTagBits > 15 ∨ s.eventTagBits > 7 ∨
      s.itemBits + s.channelTagBits + s.eventTagBits > s.packingBits ∨
      s.vectorSize = 0 ∨ s.vectorSize > 65535 ∨ s.repeatCount = 0 ∨ s.repeatCount > 65536)
    { code := .invalidArgument }
  rejectIf ((s.repeating = .none ∧ s.repeatCount ≠ 1) ∨ (s.repeating = .component ∧ s.kind = .real))
    { code := .invalidArgument }
  -- Whole fields in 32-bit words, not in a 64-bit group.
  rejectIf (s.packing = .processing ∧ s.packingBits > 32) { code := .unsupportedLayout }

def bitOffset (s : PackingSpec) (index : ℕ) : ℕ :=
  match s.packing with
  | .link => index * s.packingBits
  | .processing =>
    let per := 32 / s.packingBits
    (index / per) * 32 + (index % per) * s.packingBits

/-- The 32-bit words of a number of items. -/
def words (s : PackingSpec) (items : ℕ) : Result ℕ :=
  match s.packing with
  | .link => do
    let bits ← checkedMultiply items s.packingBits
    return bits / 32 + (if bits % 32 ≠ 0 then 1 else 0)
  | .processing =>
    let per := 32 / s.packingBits
    .ok (items / per + (if items % per ≠ 0 then 1 else 0))

def measure (s : PackingSpec) (structures : ℕ) (limits : Limits) : Result Shape := do
  validate s
  let samples ← checkedMultiply s.vectorSize s.repeatCount
  let group ← checkedMultiply samples (components s.kind)
  let items ← checkedMultiply structures group
  rejectIf (items > limits.maxItems) { code := .resourceLimit, requiredCapacity := items }
  let words ← words s items
  let bytes ← checkedMultiply words 4
  -- Also proves all bit-offset arithmetic used by the cursor.
  let _ ← checkedMultiply bytes 8
  rejectIf (bytes > limits.maxBytes) { code := .resourceLimit, requiredCapacity := bytes }
  return { structures, itemsPerStructure := group, items, bytes }

structure PackedSamples where
  bytes : Bytes
  spec : PackingSpec
  shape : Shape
deriving DecidableEq, Repr

namespace PackedSamples

def create (bytes : Bytes) (spec : PackingSpec) (structures : ℕ) (limits : Limits) :
    Result PackedSamples := do
  let shape ← measure spec structures limits
  rejectIf (bytes.length < shape.bytes) { code := .shortInput, requiredCapacity := shape.bytes }
  rejectIf (bytes.length ≠ shape.bytes) { code := .invalidArgument }
  return { bytes, spec, shape }

/-- The item in the packing field that starts at `bit`. -/
def itemAt (bytes : Bytes) (spec : PackingSpec) (bit : ℕ) : Item where
  dataBits := readBits bytes bit spec.itemBits
  channelTag := readBits bytes (bit + spec.packingBits - spec.channelTagBits) spec.channelTagBits
  eventTag := readBits bytes (bit + spec.packingBits - spec.channelTagBits - spec.eventTagBits)
    spec.eventTagBits

def at' (p : PackedSamples) (index : ℕ) : Result Item := do
  rejectIf (index ≥ p.shape.items) { code := .invalidArgument, offset := index }
  return itemAt p.bytes p.spec (bitOffset p.spec index)

/-- The time, the channel and the component of an item within its structure. -/
def position (spec : PackingSpec) (offset : ℕ) : ℕ × ℕ × ℕ :=
  let c := components spec.kind
  let r := spec.repeatCount
  let v := spec.vectorSize
  match spec.repeating with
  | .component =>
    let linear := (offset / (c * r)) * r + offset % r
    (linear / v, linear % v, (offset / r) % c)
  | .channel => ((offset / c) % r, offset / (c * r), offset % c)
  | .none => (0, offset / c, offset % c)

def coordinates (p : PackedSamples) (index : ℕ) : Result Coordinates := do
  rejectIf (index ≥ p.shape.items) { code := .invalidArgument, offset := index }
  let structure' := index / p.shape.itemsPerStructure
  let (time, channel, component) := position p.spec (index % p.shape.itemsPerStructure)
  return { structure', time := time % 2 ^ 32, channel := channel % 2 ^ 32, component := component % 2 ^ 32 }

/-- The offset of an item within its structure. -/
def offsetOf (spec : PackingSpec) (time channel component : ℕ) : ℕ :=
  let c := components spec.kind
  let r := spec.repeatCount
  match spec.repeating with
  | .component =>
    let linear := time * spec.vectorSize + channel
    ((linear / r) * c + component) * r + linear % r
  | .channel => (channel * r + time) * c + component
  | .none => channel * c + component

def index (p : PackedSamples) (x : Coordinates) : Result ℕ := do
  rejectIf (x.structure' ≥ p.shape.structures ∨ x.time ≥ p.spec.repeatCount ∨
    x.channel ≥ p.spec.vectorSize ∨ x.component ≥ components p.spec.kind) { code := .invalidArgument }
  return x.structure' * p.shape.itemsPerStructure + offsetOf p.spec x.time x.channel x.component

end PackedSamples

/-- An item can be written. -/
def Item.fits (spec : PackingSpec) (item : Item) : Bool :=
  General.fits item.dataBits spec.itemBits && General.fits item.channelTag spec.channelTagBits &&
    General.fits item.eventTag spec.eventTagBits

/-- One item is written into its packing field. -/
def writeItem (spec : PackingSpec) (wire : Bytes) (i : ℕ) (item : Item) : Bytes :=
  let bit := bitOffset spec i
  let wire := writeBits wire bit spec.itemBits item.dataBits
  let wire := writeBits wire (bit + spec.packingBits - spec.channelTagBits) spec.channelTagBits
    item.channelTag
  writeBits wire (bit + spec.packingBits - spec.channelTagBits - spec.eventTagBits) spec.eventTagBits
    item.eventTag

/-- The items are written one after the other. -/
def writeItems (spec : PackingSpec) (wire : Bytes) (items : List Item) : Bytes :=
  items.zipIdx.foldl (fun wire x => writeItem spec wire x.2 x.1) wire

/-- All that `pack` checks before it touches the output. -/
def checked (spec : PackingSpec) (structures : ℕ) (items : List Item) (output : Bytes) (overlapping : Bool)
    (limits : Limits) : Result Shape := do
  let shape ← measure spec structures limits
  rejectIf (items.length ≠ shape.items) { code := .invalidArgument }
  rejectIf (output.length < shape.bytes) { code := .shortOutput, requiredCapacity := shape.bytes }
  let _ ← checkedMultiply items.length Item.size
  rejectIf (overlapping = true) { code := .invalidArgument }
  rejectIf (¬items.all (Item.fits spec)) { code := .invalidArgument }
  return shape

/-- The result and the output afterwards. -/
def pack (spec : PackingSpec) (structures : ℕ) (items : List Item) (output : Bytes) (overlapping : Bool)
    (limits : Limits) : Result ℕ × Bytes :=
  match checked spec structures items output overlapping limits with
  | .error e => (.error e, output)
  | .ok shape =>
    (.ok shape.bytes, writeItems spec (List.replicate shape.bytes 0) items ++ output.drop shape.bytes)

end Vita.Codec.General
