import Vita.Core.Error
import Mathlib.Data.Int.Notation

/-!
# Numeric sample formats (`codec/numeric_samples.hpp`)

Fixed-point, non-normalized and VRT floating-point items, and their conversion from and to exact binary
values. Magnitudes and bit patterns are 64-bit words and wrap as in the C++ code; positions, widths and
quanta are far below the limits of `int`. The range checks of the C++ code on its enumerations are made by
the types here.
-/

namespace Vita.Codec.Numeric

open Checked

/-- An exact finite value. -/
structure BinaryValue where
  magnitude : UInt64
  exponent : Int16
  negative : Bool
deriving DecidableEq, Repr

inductive Kind where
  | unsignedFixed | signedFixed | unsignedNonNormalized | signedNonNormalized | unsignedVrt | signedVrt
deriving DecidableEq, Repr

structure NumericSpec where
  kind : Kind
  bits : ℕ
  fractionalBits : ℕ := 0
  exponentBits : ℕ := 0
deriving DecidableEq, Repr

inductive Precision where
  | exactOnly | allowRounding
deriving DecidableEq, Repr

inductive Rounding where
  | nearestTiesEven | towardZero | towardNegative | towardPositive
deriving DecidableEq, Repr

inductive Overflow where
  | error | saturate
deriving DecidableEq, Repr

inductive VrtEncoding where
  | lowestExponent
deriving DecidableEq, Repr

structure ConversionPolicy where
  precision : Precision
  rounding : Rounding
  overflow : Overflow
  vrtEncoding : VrtEncoding := .lowestExponent
deriving DecidableEq, Repr

structure EncodedValue where
  bits : UInt64
  rounded : Bool
  saturated : Bool
deriving DecidableEq, Repr

def mask (n : ℕ) : UInt64 := if n = 64 then 0xffffffffffffffff else (1 <<< n.toUInt64) - 1

def signedKind (k : Kind) : Bool := k = .signedFixed ∨ k = .signedNonNormalized ∨ k = .signedVrt

def vrt (k : Kind) : Bool := k = .signedVrt ∨ k = .unsignedVrt

def nonNormalized (k : Kind) : Bool := k = .signedNonNormalized ∨ k = .unsignedNonNormalized

def validate (s : NumericSpec) : Result Unit := do
  rejectIf (s.bits < 1 ∨ s.bits > 64) { code := .invalidArgument }
  if vrt s.kind then
    rejectIf (s.exponentBits < 1 ∨ s.exponentBits > 6 ∨ s.exponentBits ≥ s.bits ∨ s.fractionalBits ≠ 0)
      { code := .invalidArgument }
  else
    rejectIf (s.exponentBits ≠ 0 ∨ if nonNormalized s.kind then
        s.fractionalBits ≥ s.bits ∨ s.fractionalBits > 15 else s.fractionalBits ≠ 0)
      { code := .invalidArgument }

def mantissaBits (s : NumericSpec) : ℕ := s.bits - (if vrt s.kind then s.exponentBits else 0)

def quantum (s : NumericSpec) (e : ℕ) : ℤ :=
  if nonNormalized s.kind then -s.fractionalBits
  else
    let width : ℤ := mantissaBits s - (if signedKind s.kind then 1 else 0)
    (if vrt s.kind then (e : ℤ) - (mask s.exponentBits).toNat else 0) - width

/-- `std::bit_width`. -/
def bitWidth (m : UInt64) : ℕ := if m = 0 then 0 else m.toNat.log2 + 1

/-- Positive magnitudes are compared without shifting out bits. -/
def compare (a b : BinaryValue) : Ordering :=
  if a.magnitude = 0 ∨ b.magnitude = 0 then
    if a.magnitude ≠ 0 then .gt else if b.magnitude ≠ 0 then .lt else .eq
  else
    let atop := a.exponent.toInt + bitWidth a.magnitude
    let btop := b.exponent.toInt + bitWidth b.magnitude
    if atop ≠ btop then if atop < btop then .lt else .gt
    else
      let am := a.magnitude <<< (64 - bitWidth a.magnitude).toUInt64
      let bm := b.magnitude <<< (64 - bitWidth b.magnitude).toUInt64
      if am < bm then .lt else if am > bm then .gt else .eq

structure Quantized where
  magnitude : UInt64
  residue : Bool
  overflow : Bool
deriving DecidableEq, Repr

/-- Whether a quotient with this remainder is rounded away from zero. -/
def increment (rounding : Rounding) (negative : Bool) (quotient remainder : UInt64) (right : ℕ) : Bool :=
  if remainder = 0 then false
  else match rounding with
    | .towardNegative => negative
    | .towardPositive => !negative
    | .nearestTiesEven =>
      if right ≤ 64 then
        let half : UInt64 := 1 <<< (right - 1).toUInt64
        remainder > half || (remainder = half && quotient &&& 1 ≠ 0)
      else false
    | .towardZero => false

def quantize (value : BinaryValue) (q : ℤ) (rounding : Rounding) : Quantized :=
  let shift := value.exponent.toInt - q
  if value.magnitude = 0 then { magnitude := 0, residue := false, overflow := false }
  else if shift ≥ 0 then
    if shift ≥ 64 ∨ bitWidth value.magnitude + shift > 64 then
      { magnitude := 0, residue := false, overflow := true }
    else
      { magnitude := value.magnitude <<< shift.toNat.toUInt64, residue := false, overflow := false }
  else
    let right := (-shift).toNat
    let quotient := if right ≥ 64 then 0 else value.magnitude >>> right.toUInt64
    let remainder := if right ≥ 64 then value.magnitude else value.magnitude &&& mask right
    let increment := increment rounding value.negative quotient remainder right
    if increment ∧ quotient = 0xffffffffffffffff then
      { magnitude := 0, residue := remainder ≠ 0, overflow := true }
    else
      { magnitude := quotient + increment.toUInt64, residue := remainder ≠ 0, overflow := false }

/-- `std::countr_zero` of a number below `2 ^ n`. -/
def countrZero : ℕ → ℕ → ℕ
  | 0, _ => 0
  | n + 1, m => if m % 2 = 1 then 0 else countrZero n (m / 2) + 1

def canonicalize (value : BinaryValue) : Result BinaryValue :=
  if value.magnitude = 0 then .ok { magnitude := 0, exponent := 0, negative := false }
  else do
    let trailing := countrZero 64 value.magnitude.toNat
    let exponent := value.exponent.toInt + trailing
    rejectIf (exponent > 32767) { code := .overflow }
    return { magnitude := value.magnitude >>> trailing.toUInt64, exponent := .ofInt exponent,
             negative := value.negative }

def decodeExact (spec : NumericSpec) (bits : UInt64) : Result BinaryValue := do
  validate spec
  rejectIf (bits &&& ~~~mask spec.bits ≠ 0) { code := .invalidArgument }
  let m := mantissaBits spec
  let e := if vrt spec.kind then (bits &&& mask spec.exponentBits).toNat else 0
  let mantissa := if vrt spec.kind then bits >>> spec.exponentBits.toUInt64 else bits
  let negative := signedKind spec.kind && mantissa &&& (1 <<< (m - 1).toUInt64) ≠ 0
  let magnitude := if negative then (~~~mantissa + 1) &&& mask m else mantissa
  canonicalize { magnitude, exponent := .ofInt (quantum spec e), negative }

/-- The largest exponent field. -/
def maxExponent (spec : NumericSpec) : ℕ := if vrt spec.kind then (mask spec.exponentBits).toNat else 0

/-- The largest magnitude of a sign. -/
def maxMagnitude (spec : NumericSpec) (negative : Bool) : UInt64 :=
  let m := mantissaBits spec
  if signedKind spec.kind then if negative then 1 <<< (m - 1).toUInt64 else mask (m - 1) else mask m

/-- Rounding at a coarser quantum can land back inside the finer domain: the final value moves to the
lowest exponent, without rounding a second time. -/
def renormalize (maxMag : UInt64) : ℕ → UInt64 → UInt64 × ℕ
  | 0, magnitude => (magnitude, 0)
  | e + 1, magnitude =>
    if magnitude ≠ 0 ∧ magnitude ≤ maxMag / 2 then renormalize maxMag e (magnitude * 2)
    else (magnitude, e + 1)

/-- The bit pattern of a magnitude with its sign and exponent field. -/
def pattern (spec : NumericSpec) (negative : Bool) (magnitude : UInt64) (e : ℕ) : UInt64 :=
  let mantissa := if negative then (~~~magnitude + 1) &&& mask (mantissaBits spec) else magnitude
  if vrt spec.kind then (mantissa <<< spec.exponentBits.toUInt64) ||| e.toUInt64 else mantissa

/-- The value at one exponent. -/
def attempt (spec : NumericSpec) (value : BinaryValue) (policy : ConversionPolicy) (maxMag : UInt64)
    (saturated : Bool) (e : ℕ) : Option EncodedValue :=
  let result := quantize value (quantum spec e) policy.rounding
  if result.overflow ∨ result.magnitude > maxMag then none
  else if result.residue ∧ policy.precision = .exactOnly then none
  else
    let (magnitude, encodedE) := renormalize maxMag e result.magnitude
    -- Zero always uses its canonical all-zero representation.
    let bits := if result.magnitude = 0 then 0 else pattern spec value.negative magnitude encodedE
    some { bits, rounded := result.residue, saturated }

/-- The exponents are tried in order. -/
def search (spec : NumericSpec) (value : BinaryValue) (policy : ConversionPolicy) (maxMag : UInt64)
    (saturated : Bool) : Result EncodedValue :=
  match (List.range (maxExponent spec + 1)).findSome? (attempt spec value policy maxMag saturated) with
  | some encoded => .ok encoded
  | none => .error { code := .invalidArgument }

/-- The largest value of a sign. -/
def bound (spec : NumericSpec) (negative : Bool) : BinaryValue where
  magnitude := maxMagnitude spec negative
  exponent := .ofInt (quantum spec (maxExponent spec))
  negative := negative

/-- Overflow of the domain is checked before quantization, even when rounding could bring the value back
into range. -/
def encodeNumeric (spec : NumericSpec) (value : BinaryValue) (policy : ConversionPolicy) :
    Result EncodedValue := do
  validate spec
  if value.magnitude = 0 then
    return { bits := 0, rounded := false, saturated := false }
  let signedFormat := signedKind spec.kind
  let maxMag := maxMagnitude spec value.negative
  let bound := bound spec value.negative
  if (!signedFormat && value.negative) ∨ compare value bound = .gt then
    rejectIf (policy.overflow = .error ∨ policy.precision = .exactOnly) { code := .overflow }
    if !signedFormat && value.negative then
      return { bits := 0, rounded := false, saturated := true }
    search spec bound policy maxMag true
  else
    search spec value policy maxMag false

end Vita.Codec.Numeric
