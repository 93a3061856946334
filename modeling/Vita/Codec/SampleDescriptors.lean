import Vita.Codec.GeneralSamples
import Vita.Codec.IeeeSamples

/-!
# Sample descriptors and segmented payloads (`codec/sample_descriptors.hpp`, `codec/segmented_samples.hpp`)

A descriptor says how the payload of a data packet is packed and how its items are to be read. A payload is
viewed as one byte string or as a few byte strings one after the other; `MaxSegments` is the parameter of
the C++ template. The byte strings are lists here, so the check for a null pointer has no counterpart.
-/

namespace Vita.Codec.Samples

open Checked BitField General

inductive SignalDomain where
  | time | spectral | spectralLogPower
deriving DecidableEq, Repr

inductive NumberFormat where
  | numeric (spec : Numeric.NumericSpec)
  | ieee (format : Ieee.Format)
deriving DecidableEq, Repr

/-- `wire` is the payload format field. -/
structure Descriptor where
  wire : UInt64
  packing : PackingSpec
  number : NumberFormat
  domain : SignalDomain
deriving DecidableEq, Repr

inductive PadReporting where
  | omittedByClass | exact | allowZeroWhenImplied
deriving DecidableEq, Repr

structure PaddingEvidence where
  policy : PadReporting
  classIdPadBits : Option ℕ
deriving DecidableEq, Repr

structure PayloadBinding where
  structures : ℕ
  padding : PaddingEvidence
deriving DecidableEq, Repr

/-- The pad bits that the class identifier reports. -/
def PaddingEvidence.check (evidence : PaddingEvidence) (padding itemBits : ℕ) : Result Unit :=
  match evidence.policy, evidence.classIdPadBits with
  | .omittedByClass, bits => rejectIf (bits.isSome = true) { code := .invalidArgument }
  | _, none => .error { code := .invalidArgument }
  | policy, some bits =>
    rejectIf (bits > 31 ∨ (bits ≠ padding ∧ ¬(policy = .allowZeroWhenImplied ∧ bits = 0 ∧ padding < itemBits)))
      { code := .invalidArgument }

def measurePayload (d : Descriptor) (binding : PayloadBinding) (limits : Limits) : Result Shape := do
  let shape ← measure d.packing binding.structures limits
  let p := d.packing
  let last := if shape.items ≠ 0 then bitOffset p (shape.items - 1) + p.packingBits else 0
  binding.padding.check (shape.bytes * 8 - last) p.itemBits
  return shape

def contiguous (bytes : Bytes) (d : Descriptor) (binding : PayloadBinding) (limits : Limits) :
    Result PackedSamples := do
  let _ ← measurePayload d binding limits
  PackedSamples.create bytes d.packing binding.structures limits

structure Segment where
  bytes : Bytes
  last : ℕ
deriving DecidableEq, Repr

/-- The pieces that are not empty, each with its end, and the extent of all. -/
def segmentsFrom : ℕ → List Bytes → Result (List Segment × ℕ)
  | extent, [] => .ok ([], extent)
  | extent, bytes :: pieces =>
    if bytes.isEmpty then segmentsFrom extent pieces
    else do
      rejectIf (bytes.length > sizeMax - extent) { code := .overflow }
      let (segments, total) ← segmentsFrom (extent + bytes.length) pieces
      return ({ bytes, last := extent + bytes.length } :: segments, total)

structure SegmentedSamples where
  segments : List Segment
  descriptor : Descriptor
  shape : Shape
deriving DecidableEq, Repr

namespace SegmentedSamples

def create (maxSegments : ℕ) (pieces : List Bytes) (d : Descriptor) (binding : PayloadBinding)
    (limits : Limits) : Result SegmentedSamples := do
  rejectIf (pieces.length > maxSegments) { code := .resourceLimit, requiredCapacity := pieces.length }
  let shape ← measurePayload d binding limits
  let (segments, extent) ← segmentsFrom 0 pieces
  rejectIf (extent < shape.bytes) { code := .shortInput, requiredCapacity := shape.bytes }
  rejectIf (extent ≠ shape.bytes) { code := .invalidArgument }
  return { segments, descriptor := d, shape }

/-- The byte in the first segment that ends after it: `none` where the loop of `byte` falls through. -/
def lookup : List Segment → ℕ → ℕ → Option UInt8
  | [], _, _ => none
  | segment :: segments, start, offset =>
    if offset < segment.last then segment.bytes[offset - start]? else lookup segments segment.last offset

def byte (v : SegmentedSamples) (offset : ℕ) : UInt8 := (lookup v.segments 0 offset).getD 0

def bit (v : SegmentedSamples) (p : ℕ) : Bool := (v.byte (p / 8)).toNat.testBit (7 - p % 8)

def read (v : SegmentedSamples) (offset width : ℕ) : UInt64 := readFrom v.bit offset width

def at' (v : SegmentedSamples) (index : ℕ) : Result Item := do
  rejectIf (index ≥ v.shape.items) { code := .invalidArgument, offset := index }
  let p := v.descriptor.packing
  let offset := bitOffset p index
  return {
    dataBits := v.read offset p.itemBits
    channelTag := v.read (offset + p.packingBits - p.channelTagBits) p.channelTagBits
    eventTag := v.read (offset + p.packingBits - p.channelTagBits - p.eventTagBits) p.eventTagBits }

end SegmentedSamples

end Vita.Codec.Samples
