import Vita.Codec.NumericSamples

/-!
# IEEE sample formats (`codec/ieee_samples.hpp`)

The binary interchange formats of 16, 32 and 64 bits: exact decoding, encoding of exact values, and
conversion between the formats. Bit patterns are 64-bit words. The checks of the C++ code on its
enumerations are made by the types here, so `shape` does not fail.
-/

namespace Vita.Codec.Ieee

open Checked Numeric

inductive Format where
  | binary16 | binary32 | binary64
deriving DecidableEq, Repr

inductive Category where
  | zero | finite | infinity | quietNan | signalingNan
deriving DecidableEq, Repr

inductive Overflow where
  | error | ieeeResult | saturateFinite
deriving DecidableEq, Repr

inductive NonFinite where
  | reject | propagate
deriving DecidableEq, Repr

inductive NaNPayload where
  | exact | preserveHigh | canonical
deriving DecidableEq, Repr

structure Policy where
  precision : Precision
  rounding : Rounding
  overflow : Overflow
  nonfinite : NonFinite
  payload : NaNPayload
deriving DecidableEq, Repr

structure Flags where
  invalid : Bool := false
  inexact : Bool := false
  overflow : Bool := false
  underflow : Bool := false
  payloadLoss : Bool := false
deriving DecidableEq, Repr

structure Converted where
  bits : UInt64
  flags : Flags
deriving DecidableEq, Repr

structure Decoded where
  category : Category
  negative : Bool
  finite : BinaryValue
  payload : UInt64
  payloadBits : ℕ
deriving DecidableEq, Repr

structure Shape where
  width : ℕ
  fraction : ℕ
  exponent : ℕ
  bias : ℤ
deriving DecidableEq, Repr

def shape : Format → Shape
  | .binary16 => ⟨16, 10, 5, 15⟩
  | .binary32 => ⟨32, 23, 8, 127⟩
  | .binary64 => ⟨64, 52, 11, 1023⟩

structure Rounded where
  integer : UInt64
  inexact : Bool
deriving DecidableEq, Repr

/-- The selected quantum leaves at most 53 significant output bits. The rounding is that of `quantize`. -/
def round (v : BinaryValue) (quantum : ℤ) (mode : Rounding) : Rounded :=
  let shift := v.exponent.toInt - quantum
  if shift ≥ 0 then { integer := v.magnitude <<< shift.toNat.toUInt64, inexact := false }
  else
    let right := (-shift).toNat
    let integer := if right ≥ 64 then 0 else v.magnitude >>> right.toUInt64
    let residue := if right ≥ 64 then v.magnitude else v.magnitude &&& mask right
    let increment := increment mode v.negative integer residue right
    { integer := integer + increment.toUInt64, inexact := residue ≠ 0 }

/-- The sign bit. -/
def signBit (s : Shape) (negative : Bool) : UInt64 := negative.toUInt64 <<< (s.width - 1).toUInt64

def infinityBits (s : Shape) : UInt64 := mask s.exponent <<< s.fraction.toUInt64

def overflow (s : Shape) (negative : Bool) (p : Policy) : Result Converted := do
  rejectIf (p.precision = .exactOnly ∨ p.overflow = .error) { code := .overflow }
  let sign := signBit s negative
  let inf := infinityBits s
  let infinity := p.overflow = .ieeeResult ∧ (p.rounding = .nearestTiesEven ∨
    (p.rounding = .towardNegative ∧ negative) ∨ (p.rounding = .towardPositive ∧ ¬negative))
  return { bits := sign ||| if infinity then inf else inf - 1, flags := { inexact := true, overflow := true } }

/-- `*numeric::canonicalize(v)`: the exponents of the formats are small. -/
def canonical (v : BinaryValue) : BinaryValue :=
  match canonicalize v with
  | .ok w => w
  | .error _ => v

def decodeExact (format : Format) (bits : UInt64) : Result Decoded := do
  let s := shape format
  rejectIf (bits &&& ~~~mask s.width ≠ 0) { code := .invalidArgument }
  let negative : Bool := bits >>> (s.width - 1).toUInt64 ≠ 0
  let fraction := bits &&& mask s.fraction
  let exponent := (bits >>> s.fraction.toUInt64) &&& mask s.exponent
  let zero : BinaryValue := { magnitude := 0, exponent := 0, negative := false }
  if exponent = mask s.exponent then
    if fraction = 0 then
      return { category := .infinity, negative, finite := zero, payload := 0, payloadBits := 0 }
    else
      let category := if fraction &&& (1 <<< (s.fraction - 1).toUInt64) ≠ 0 then .quietNan else .signalingNan
      return { category, negative, finite := zero, payload := fraction &&& mask (s.fraction - 1),
               payloadBits := s.fraction - 1 }
  else if exponent ≠ 0 ∨ fraction ≠ 0 then
    let magnitude := fraction ||| if exponent ≠ 0 then 1 <<< s.fraction.toUInt64 else 0
    let q : ℤ := (if exponent ≠ 0 then (exponent.toNat : ℤ) else 1) - s.bias - s.fraction
    return { category := .finite, negative, finite := canonical { magnitude, exponent := .ofInt q, negative },
             payload := 0, payloadBits := 0 }
  else
    return { category := .zero, negative, finite := zero, payload := 0, payloadBits := 0 }

/-- Tininess after rounding uses the target precision with an unbounded exponent, before the precision is
reduced onto the subnormal quantum. -/
def tinyAfterRounding (s : Shape) (value : BinaryValue) (mode : Rounding) (top : ℤ) : Bool :=
  if top < 1 - s.bias then
    let precisionRounded := round value (top - s.fraction) mode
    let carry := precisionRounded.integer = 1 <<< (s.fraction + 1).toUInt64
    top + (if carry then 1 else 0) < 1 - s.bias
  else false

/-- The result of a value whose highest bit is at `top`, rounded at its quantum. -/
def encodeRounded (s : Shape) (value : BinaryValue) (policy : Policy) (top : ℤ) (rounded : Rounded) :
    Result Converted :=
  let minimum := 1 - s.bias
  let tiny := tinyAfterRounding s value policy.rounding top
  let carry := rounded.integer = 1 <<< (s.fraction + 1).toUInt64
  let significand := if carry then rounded.integer >>> 1 else rounded.integer
  let top := if carry then top + 1 else top
  if top > s.bias then overflow s value.negative policy
  else if rounded.inexact ∧ policy.precision = .exactOnly then .error { code := .invalidArgument }
  else
    let normal := significand ≥ 1 <<< s.fraction.toUInt64
    let exponent : UInt64 :=
      if normal then ((if top < minimum then minimum else top) + s.bias).toNat.toUInt64 else 0
    .ok { bits := signBit s value.negative ||| (exponent <<< s.fraction.toUInt64) |||
            (significand &&& mask s.fraction),
          flags := { inexact := rounded.inexact, underflow := rounded.inexact && tiny } }

/-- Unlike `canonicalize`, a zero magnitude with a sign asks for negative zero. -/
def encodeFinite (format : Format) (value : BinaryValue) (policy : Policy) : Result Converted :=
  let s := shape format
  if value.magnitude = 0 then .ok { bits := signBit s value.negative, flags := {} }
  else
    let top := value.exponent.toInt + bitWidth value.magnitude - 1
    if top > s.bias then overflow s value.negative policy
    else
      let minimum := 1 - s.bias
      let q := (if top < minimum then minimum else top) - s.fraction
      encodeRounded s value policy top (round value q policy.rounding)

/-- A NaN in another format. -/
def convertNan (src : Decoded) (dst : Shape) (policy : Policy) : Result Converted :=
  let sign := signBit dst src.negative
  let inf := infinityBits dst
  let quiet : UInt64 := 1 <<< (dst.fraction - 1).toUInt64
  let invalid : Bool := src.category = .signalingNan
  if policy.payload = .canonical then
    .ok { bits := inf ||| quiet,
          flags := { invalid, payloadLoss := src.negative || decide (src.payload ≠ 0) } }
  else
    let target := dst.fraction - 1
    let shift := src.payloadBits - target
    let payloadLoss : Bool := src.payloadBits > target ∧ src.payload &&& mask shift ≠ 0
    let payload := if src.payloadBits > target then src.payload >>> shift.toUInt64
      else src.payload <<< (target - src.payloadBits).toUInt64
    if payloadLoss ∧ policy.payload = .exact then .error { code := .invalidArgument }
    else .ok { bits := sign ||| inf ||| quiet ||| payload, flags := { invalid, payloadLoss } }

def convert (source : Format) (bits : UInt64) (destination : Format) (policy : Policy) : Result Converted := do
  let src ← decodeExact source bits
  let dst := shape destination
  match src.category with
  | .finite => encodeFinite destination src.finite policy
  | .zero => encodeFinite destination { magnitude := 0, exponent := 0, negative := src.negative } policy
  | .infinity =>
    rejectIf (policy.nonfinite = .reject) { code := .invalidArgument }
    return { bits := signBit dst src.negative ||| infinityBits dst, flags := {} }
  | .quietNan | .signalingNan =>
    rejectIf (policy.nonfinite = .reject) { code := .invalidArgument }
    convertNan src dst policy

end Vita.Codec.Ieee
