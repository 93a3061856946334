import Vita.Codec.NumericSamples
import Vita.Common.UnitRounding
import Vita.Common.Word64
import Mathlib.Data.Rat.Cast.Order
import Mathlib.Algebra.Order.Field.Power
import Mathlib.Tactic.FieldSimp

/-!
# What numeric samples mean

An exact binary value is a rational number. The values of a format are those that some bit pattern decodes
to; they are the multiples of its quanta, for each sign up to a largest magnitude.

Main results:
- `NumericSpec.Valid.representable_iff`: the values of a format, sign by sign;
- `quantize_spec`: quantization rounds the exact magnitude;
- `compare_eq_gt`: the comparison of magnitudes is exact.
-/

namespace Vita.Codec.Numeric

open Checked UnitRounding Word64

/-! ## Words -/

theorem toNat_mask {n : ℕ} (h : n ≤ 64) : (mask n).toNat = 2 ^ n - 1 := by
  unfold mask
  split
  next heq =>
    subst heq
    rfl
  next hne =>
    have hpow : 2 ^ n < 2 ^ 64 := Nat.pow_lt_pow_right (by decide) (by omega)
    have hpos := Nat.two_pow_pos n
    rw [UInt64.toNat_sub, toNat_one_shiftLeft (by omega), UInt64.toNat_one]
    omega

theorem bitWidth_spec {m : UInt64} (h : m ≠ 0) :
    2 ^ (bitWidth m - 1) ≤ m.toNat ∧ m.toNat < 2 ^ bitWidth m ∧ 1 ≤ bitWidth m ∧ bitWidth m ≤ 64 := by
  have h0 : m.toNat ≠ 0 := fun h0 => h (UInt64.toNat_inj.mp h0)
  rw [bitWidth, if_neg h, Nat.add_sub_cancel]
  refine ⟨Nat.log2_self_le h0, Nat.lt_log2_self, Nat.le_add_left .., ?_⟩
  have := (Nat.log2_lt h0).mpr m.toNat_lt
  omega

/-- The power of two that is counted divides the number. -/
theorem countrZero_dvd (n m : ℕ) : 2 ^ countrZero n m ∣ m := by
  induction n generalizing m with
  | zero => exact one_dvd _
  | succ n ih =>
    unfold countrZero
    split
    · exact one_dvd _
    next hodd =>
      have heven : m = 2 * (m / 2) := by omega
      rw [Nat.pow_succ']
      conv_rhs => rw [heven]
      exact Nat.mul_dvd_mul_left 2 (ih (m / 2))

/-- The count stays below the width. -/
theorem countrZero_lt {n m : ℕ} (h0 : m ≠ 0) (h : m < 2 ^ n) : countrZero n m < n := by
  induction n generalizing m with
  | zero =>
    rw [Nat.pow_zero] at h
    omega
  | succ n ih =>
    unfold countrZero
    split
    · exact Nat.succ_pos n
    · rw [Nat.pow_succ] at h
      exact Nat.succ_lt_succ (ih (by omega) (by omega))

/-- No higher power of two divides it. -/
theorem countrZero_odd {n m : ℕ} (h0 : m ≠ 0) (h : m < 2 ^ n) : m / 2 ^ countrZero n m % 2 = 1 := by
  induction n generalizing m with
  | zero =>
    rw [Nat.pow_zero] at h
    omega
  | succ n ih =>
    unfold countrZero
    split
    next hodd => rwa [Nat.pow_zero, Nat.div_one]
    · rw [Nat.pow_succ] at h
      rw [Nat.pow_succ', ← Nat.div_div_eq_div_mul]
      exact ih (by omega) (by omega)

/-! ## Values -/

/-- The absolute value. -/
def BinaryValue.size (v : BinaryValue) : ℚ := v.magnitude.toNat * 2 ^ v.exponent.toInt

/-- A number with a sign. -/
def signed (negative : Bool) (a : ℚ) : ℚ := if negative then -a else a

/-- The value. -/
def BinaryValue.toRat (v : BinaryValue) : ℚ := signed v.negative v.size

theorem two_zpow_pos (k : ℤ) : (0 : ℚ) < 2 ^ k := zpow_pos (by norm_num) k

theorem BinaryValue.size_nonneg (v : BinaryValue) : 0 ≤ v.size :=
  mul_nonneg (Nat.cast_nonneg _) (two_zpow_pos _).le

theorem BinaryValue.size_eq_zero {v : BinaryValue} : v.size = 0 ↔ v.magnitude = 0 := by
  rw [size, mul_eq_zero, or_iff_left (two_zpow_pos _).ne', Nat.cast_eq_zero, ← UInt64.toNat_inj]
  rfl

theorem Int16.toInt_ofInt_of_small {k : ℤ} (h : -32768 ≤ k) (h' : k ≤ 32767) : (Int16.ofInt k).toInt = k :=
  Int16.toInt_ofInt_of_le h (by omega)

theorem signed_zero (negative : Bool) : signed negative 0 = 0 := by
  cases negative <;> simp [signed]

/-- Canonical form keeps the value. Its magnitude is odd, unless it is zero. -/
theorem canonicalize_spec {v : BinaryValue} (h : v.exponent.toInt ≤ 32767 - 64) :
    ∃ w, canonicalize v = .ok w ∧ w.size = v.size ∧
      (v.magnitude = 0 → w = { magnitude := 0, exponent := 0, negative := false }) ∧
      (v.magnitude ≠ 0 → w.negative = v.negative ∧ w.magnitude.toNat % 2 = 1) := by
  by_cases hzero : v.magnitude = 0
  · refine ⟨{ magnitude := 0, exponent := 0, negative := false }, if_pos hzero, ?_, fun _ => rfl,
      fun hne => absurd hzero hne⟩
    rw [BinaryValue.size_eq_zero.mpr hzero]
    exact BinaryValue.size_eq_zero.mpr rfl
  · have h0 : v.magnitude.toNat ≠ 0 := fun h0 => hzero (UInt64.toNat_inj.mp h0)
    have hlt := countrZero_lt h0 v.magnitude.toNat_lt
    have hlow := v.exponent.le_toInt
    have hok : canonicalize v = .ok
        { magnitude := v.magnitude >>> (countrZero 64 v.magnitude.toNat).toUInt64,
          exponent := .ofInt (v.exponent.toInt + countrZero 64 v.magnitude.toNat),
          negative := v.negative } := by
      rw [canonicalize, if_neg hzero]
      dsimp only
      rw [rejectIf_of_not (by omega)]
      rfl
    refine ⟨_, hok, ?_, fun hzero' => absurd hzero' hzero, fun _ => ⟨rfl, ?_⟩⟩
    · have hsplit := Nat.div_mul_cancel (countrZero_dvd 64 v.magnitude.toNat)
      simp only [BinaryValue.size]
      rw [toNat_shiftRight hlt, Int16.toInt_ofInt_of_small (by omega) (by omega), zpow_add₀ (by norm_num),
        zpow_natCast, mul_left_comm, mul_comm]
      conv_rhs => rw [← hsplit]
      push_cast
      ring
    · rw [toNat_shiftRight hlt]
      exact countrZero_odd h0 v.magnitude.toNat_lt

theorem canonicalize_toRat {v : BinaryValue} (h : v.exponent.toInt ≤ 32767 - 64) :
    ∃ w, canonicalize v = .ok w ∧ w.toRat = v.toRat := by
  obtain ⟨w, hw, hsize, -, hne⟩ := canonicalize_spec h
  refine ⟨w, hw, ?_⟩
  unfold BinaryValue.toRat
  rw [hsize]
  by_cases hzero : v.magnitude = 0
  · rw [BinaryValue.size_eq_zero.mpr hzero, signed_zero, signed_zero]
  · rw [(hne hzero).1]

/-! ## Formats -/

/-- A specification that `validate` accepts. -/
structure NumericSpec.Valid (s : NumericSpec) : Prop where
  bits_pos : 1 ≤ s.bits
  bits_le : s.bits ≤ 64
  exponentBits_le : vrt s.kind = true → 1 ≤ s.exponentBits ∧ s.exponentBits ≤ 6 ∧ s.exponentBits < s.bits
  fractionalBits_le : s.fractionalBits ≤ 15

variable {spec : NumericSpec} {negative : Bool} {e : ℕ}

/-- What the check of a format accepts is a valid format. -/
theorem NumericSpec.Valid.of_validate (h : validate spec = .ok ()) : spec.Valid := by
  simp only [validate, bind_eq_ok, rejectIf_eq_ok, not_or] at h
  obtain ⟨_, ⟨hlow, hhigh⟩, h⟩ := h
  split at h
  next hvrt =>
    simp only [rejectIf_eq_ok, not_or, not_not] at h
    exact ⟨by omega, by omega, fun _ => by omega, by omega⟩
  next hvrt =>
    simp only [rejectIf_eq_ok, not_or, not_not] at h
    refine ⟨by omega, by omega, fun h => absurd h hvrt, ?_⟩
    have hfraction := h.2
    split at hfraction <;> omega

/-- The width of the mantissa. -/
theorem NumericSpec.Valid.mantissaBits_spec (h : spec.Valid) : 1 ≤ mantissaBits spec ∧
    mantissaBits spec + (if vrt spec.kind then spec.exponentBits else 0) = spec.bits := by
  have := h.bits_pos
  have := h.exponentBits_le
  unfold mantissaBits
  split
  next hvrt =>
    have := h.exponentBits_le hvrt
    omega
  · omega

theorem NumericSpec.Valid.mantissaBits_le (h : spec.Valid) : mantissaBits spec ≤ 64 := by
  have := h.bits_le
  have := h.mantissaBits_spec.2
  omega

/-- The quantum, as a number. -/
def NumericSpec.unit (spec : NumericSpec) (e : ℕ) : ℚ := 2 ^ quantum spec e

theorem NumericSpec.unit_pos (spec : NumericSpec) (e : ℕ) : 0 < spec.unit e := two_zpow_pos _

theorem NumericSpec.Valid.maxExponent_eq (h : spec.Valid) (hvrt : vrt spec.kind = true) :
    maxExponent spec = 2 ^ spec.exponentBits - 1 := by
  have := h.exponentBits_le hvrt
  rw [maxExponent, if_pos hvrt, toNat_mask (by omega)]

theorem vrt_of_lt (h : 0 < maxExponent spec) : vrt spec.kind = true := by
  by_contra hvrt
  rw [maxExponent, if_neg hvrt] at h
  exact Nat.lt_irrefl 0 h

theorem nonNormalized_of_vrt {k : Kind} (h : vrt k = true) : nonNormalized k = false := by
  cases k <;> simp [vrt, nonNormalized] at h ⊢

/-- The next exponent has twice the quantum. -/
theorem unit_succ (hvrt : vrt spec.kind = true) (e : ℕ) : spec.unit (e + 1) = 2 * spec.unit e := by
  have hnn := nonNormalized_of_vrt hvrt
  have hq : quantum spec (e + 1) = quantum spec e + 1 := by
    unfold quantum
    rw [hnn, hvrt]
    simp only [Bool.false_eq_true, if_false, if_true]
    push_cast
    ring
  rw [NumericSpec.unit, NumericSpec.unit, hq, zpow_add₀ (by norm_num), zpow_one, mul_comm]

theorem unit_add (hvrt : vrt spec.kind = true) (e k : ℕ) : spec.unit (e + k) = 2 ^ k * spec.unit e := by
  induction k with
  | zero => simp
  | succ k ih =>
    rw [← Nat.add_assoc, unit_succ hvrt, ih, pow_succ]
    ring

/-- The weight of the last bit stays in the range of the exponents. -/
theorem NumericSpec.Valid.quantum_le (h : spec.Valid) (he : e ≤ maxExponent spec) :
    -128 ≤ quantum spec e ∧ quantum spec e ≤ 1 := by
  have hm := h.mantissaBits_spec
  have hm64 := h.mantissaBits_le
  have hf := h.fractionalBits_le
  have hscale : ∀ x : ℤ, x = (if vrt spec.kind then (e : ℤ) - (mask spec.exponentBits).toNat else 0) →
      -63 ≤ x ∧ x ≤ 0 := by
    rintro x rfl
    split
    next hvrt =>
      have he' : e ≤ (mask spec.exponentBits).toNat := by
        rwa [maxExponent, if_pos hvrt] at he
      have hmask : (mask spec.exponentBits).toNat ≤ 63 := by
        have hb := h.exponentBits_le hvrt
        have : 2 ^ spec.exponentBits ≤ 2 ^ 6 := Nat.pow_le_pow_right (by decide) hb.2.1
        rw [toNat_mask (by omega)]
        omega
      omega
    · omega
  have hbounds := hscale _ rfl
  unfold quantum
  dsimp only
  generalize (if vrt spec.kind then (e : ℤ) - (mask spec.exponentBits).toNat else 0) = x at hbounds
  split
  · omega
  · split <;> omega

theorem NumericSpec.Valid.toInt_quantum (h : spec.Valid) (he : e ≤ maxExponent spec) :
    (Int16.ofInt (quantum spec e)).toInt = quantum spec e := by
  have := h.quantum_le he
  exact Int16.toInt_ofInt_of_small (by omega) (by omega)

/-- The largest magnitude of a sign, as a number. -/
theorem NumericSpec.Valid.toNat_maxMagnitude (h : spec.Valid) : (maxMagnitude spec negative).toNat =
    if signedKind spec.kind then
      if negative then 2 ^ (mantissaBits spec - 1) else 2 ^ (mantissaBits spec - 1) - 1
    else 2 ^ mantissaBits spec - 1 := by
  have hm := h.mantissaBits_spec.1
  have hm64 := h.mantissaBits_le
  unfold maxMagnitude
  split
  · split
    · exact toNat_one_shiftLeft (by omega)
    · exact toNat_mask (by omega)
  · exact toNat_mask hm64

/-! ## Decoding -/

/-- The multiples of the quanta, up to the largest magnitude of a sign. -/
def Magnitudes (spec : NumericSpec) (negative : Bool) : Set ℚ :=
  {x | ∃ n e : ℕ, n ≤ (maxMagnitude spec negative).toNat ∧ e ≤ maxExponent spec ∧ x = n * spec.unit e}

/-- The values of a format: those that some bit pattern decodes to. -/
def Representable (spec : NumericSpec) : Set ℚ :=
  {x | ∃ bits v, decodeExact spec bits = .ok v ∧ v.toRat = x}

/-- The exponent field of a bit pattern. -/
def exponentField (spec : NumericSpec) (bits : UInt64) : ℕ :=
  if vrt spec.kind then bits.toNat % 2 ^ spec.exponentBits else 0

/-- The mantissa field of a bit pattern. -/
def mantissaField (spec : NumericSpec) (bits : UInt64) : ℕ :=
  if vrt spec.kind then bits.toNat / 2 ^ spec.exponentBits else bits.toNat

theorem NumericSpec.Valid.exponentField_le (h : spec.Valid) (bits : UInt64) :
    exponentField spec bits ≤ maxExponent spec := by
  unfold exponentField
  split
  next hvrt =>
    rw [h.maxExponent_eq hvrt]
    have := Nat.mod_lt bits.toNat (Nat.two_pow_pos spec.exponentBits)
    omega
  · exact Nat.zero_le _

/-- The mantissa fits its field. -/
theorem NumericSpec.Valid.mantissaField_lt (h : spec.Valid) {bits : UInt64}
    (hbits : bits.toNat < 2 ^ spec.bits) : mantissaField spec bits < 2 ^ mantissaBits spec := by
  have hm := h.mantissaBits_spec.2
  unfold mantissaField
  split
  next hvrt =>
    rw [if_pos hvrt] at hm
    exact Nat.div_lt_of_lt_mul (by rwa [← Nat.pow_add, Nat.add_comm, hm])
  next hvrt =>
    rw [if_neg hvrt, Nat.add_zero] at hm
    rwa [hm]

/-- What a bit pattern means: a signed mantissa is in two's complement. -/
theorem NumericSpec.Valid.decodeExact_spec (h : spec.Valid) (hok : validate spec = .ok ()) {bits : UInt64}
    (hbits : bits.toNat < 2 ^ spec.bits) : ∃ v, decodeExact spec bits = .ok v ∧
      v.toRat = if signedKind spec.kind = true ∧ 2 ^ (mantissaBits spec - 1) ≤ mantissaField spec bits then
        -((2 ^ mantissaBits spec - mantissaField spec bits : ℕ) * spec.unit (exponentField spec bits))
      else mantissaField spec bits * spec.unit (exponentField spec bits) := by
  have hm := h.mantissaBits_spec.1
  have hm64 := h.mantissaBits_le
  have hlt := h.mantissaField_lt hbits
  have he := h.exponentField_le bits
  -- The two fields, as the code takes them.
  have hexponent : (if vrt spec.kind then (bits &&& mask spec.exponentBits).toNat else 0) =
      exponentField spec bits := by
    unfold exponentField
    split
    next hvrt =>
      have hb := h.exponentBits_le hvrt
      exact toNat_and_mask (toNat_mask (by omega))
    · rfl
  obtain ⟨mantissa, hmantissa, hfield⟩ : ∃ mantissa : UInt64,
      (if vrt spec.kind then bits >>> spec.exponentBits.toUInt64 else bits) = mantissa ∧
        mantissa.toNat = mantissaField spec bits := by
    refine ⟨_, rfl, ?_⟩
    unfold mantissaField
    split
    next hvrt =>
      have hb := h.exponentBits_le hvrt
      exact toNat_shiftRight (by omega)
    · rfl
  have hsign : (signedKind spec.kind && decide (mantissa &&& (1 <<< (mantissaBits spec - 1).toUInt64) ≠ 0)) =
      decide (signedKind spec.kind = true ∧ 2 ^ (mantissaBits spec - 1) ≤ mantissaField spec bits) := by
    rw [Bool.decide_and, Bool.decide_eq_true]
    congr 1
    rw [decide_eq_decide, and_bit_ne_zero (by omega) (by rwa [Nat.sub_add_cancel hm, hfield]), hfield]
  unfold decodeExact
  rw [hok, ok_bind, rejectIf_of_not (not_not.mpr ((and_not_mask_eq_zero h.bits_le
    (toNat_mask h.bits_le)).mpr hbits)), ok_bind]
  dsimp only
  rw [hexponent, hmantissa, hsign]
  have hsmall : (Int16.ofInt (quantum spec (exponentField spec bits))).toInt ≤ 32767 - 64 := by
    rw [h.toInt_quantum he]
    have := h.quantum_le he
    omega
  obtain ⟨v, hv, hvalue⟩ := canonicalize_toRat (v :=
    { magnitude := if decide (signedKind spec.kind = true ∧
          2 ^ (mantissaBits spec - 1) ≤ mantissaField spec bits) = true
        then (~~~mantissa + 1) &&& mask (mantissaBits spec) else mantissa,
      exponent := .ofInt (quantum spec (exponentField spec bits)),
      negative := decide (signedKind spec.kind = true ∧
        2 ^ (mantissaBits spec - 1) ≤ mantissaField spec bits) }) hsmall
  refine ⟨v, hv, ?_⟩
  rw [hvalue]
  simp only [BinaryValue.toRat, BinaryValue.size, signed, decide_eq_true_eq, h.toInt_quantum he]
  split
  next hneg =>
    have hpos : 0 < 2 ^ (mantissaBits spec - 1) := Nat.two_pow_pos _
    rw [toNat_complement hm64 (toNat_mask hm64) (by omega) (by omega), hfield]
    rfl
  next => rw [hfield]; rfl

theorem decodeExact_bits_lt {bits : UInt64} {v : BinaryValue} (h : spec.Valid)
    (hv : decodeExact spec bits = .ok v) : bits.toNat < 2 ^ spec.bits := by
  simp only [decodeExact, bind_eq_ok, rejectIf_eq_ok, ne_eq, not_not] at hv
  obtain ⟨_, -, _, hbits, -⟩ := hv
  exact (and_not_mask_eq_zero h.bits_le (toNat_mask h.bits_le)).mp hbits

/-- The fields of a pattern. A negative magnitude is not zero. -/
theorem NumericSpec.Valid.pattern_spec (h : spec.Valid) {magnitude : UInt64}
    (hmag : magnitude.toNat ≤ (maxMagnitude spec negative).toNat) (he : e ≤ maxExponent spec)
    (hneg : negative = true → signedKind spec.kind = true ∧ magnitude ≠ 0) :
    (pattern spec negative magnitude e).toNat < 2 ^ spec.bits ∧
      exponentField spec (pattern spec negative magnitude e) = e ∧
      mantissaField spec (pattern spec negative magnitude e) =
        if negative then 2 ^ mantissaBits spec - magnitude.toNat else magnitude.toNat := by
  have hm := h.mantissaBits_spec
  have hm64 := h.mantissaBits_le
  have hb64 := h.bits_le
  have hhalf : 2 ^ (mantissaBits spec - 1) * 2 = 2 ^ mantissaBits spec := by
    rw [← Nat.pow_succ, Nat.succ_eq_add_one, Nat.sub_add_cancel hm.1]
  have hpos : 0 < 2 ^ (mantissaBits spec - 1) := Nat.two_pow_pos _
  rw [h.toNat_maxMagnitude] at hmag
  obtain ⟨mantissa, hmantissa, hfield⟩ : ∃ mantissa : UInt64,
      (if negative then (~~~magnitude + 1) &&& mask (mantissaBits spec) else magnitude) = mantissa ∧
        mantissa.toNat = if negative then 2 ^ mantissaBits spec - magnitude.toNat else magnitude.toNat := by
    refine ⟨_, rfl, ?_⟩
    split
    next hn =>
      obtain ⟨hs, hne⟩ := hneg hn
      have h0 : magnitude.toNat ≠ 0 := fun h0 => hne (UInt64.toNat_inj.mp h0)
      rw [if_pos hs, if_pos hn] at hmag
      exact toNat_complement hm64 (toNat_mask hm64) (by omega) (by omega)
    · rfl
  have hlt : mantissa.toNat < 2 ^ mantissaBits spec := by
    rw [hfield]
    split
    next hn =>
      obtain ⟨-, hne⟩ := hneg hn
      have h0 : magnitude.toNat ≠ 0 := fun h0 => hne (UInt64.toNat_inj.mp h0)
      omega
    next hn =>
      rw [if_neg hn] at hmag
      split at hmag <;> omega
  unfold exponentField mantissaField pattern
  dsimp only
  rw [hmantissa, ← hfield]
  split
  next hvrt =>
    have hb := h.exponentBits_le hvrt
    rw [if_pos hvrt] at hm
    rw [h.maxExponent_eq hvrt] at he
    have hexp : 0 < 2 ^ spec.exponentBits := Nat.two_pow_pos _
    have hexp64 : 2 ^ spec.exponentBits ≤ 2 ^ 6 := Nat.pow_le_pow_right (by decide) hb.2.1
    have hele : e.toUInt64.toNat = e := toNat_toUInt64 (by omega)
    have hbits : mantissa.toNat * 2 ^ spec.exponentBits + e < 2 ^ spec.bits := by
      have : (mantissa.toNat + 1) * 2 ^ spec.exponentBits ≤ 2 ^ mantissaBits spec * 2 ^ spec.exponentBits :=
        Nat.mul_le_mul_right _ hlt
      rw [← Nat.pow_add, hm.2, Nat.add_mul, Nat.one_mul] at this
      omega
    have hword : 2 ^ spec.bits ≤ 2 ^ 64 := Nat.pow_le_pow_right (by decide) hb64
    have hvalue : ((mantissa <<< spec.exponentBits.toUInt64) ||| e.toUInt64).toNat =
        mantissa.toNat * 2 ^ spec.exponentBits + e := by
      rw [toNat_shiftLeft_or (by omega) (by omega) (by rw [hele]; omega), hele]
    rw [hvalue]
    refine ⟨hbits, ?_, ?_⟩
    · rw [Nat.mul_comm, Nat.mul_add_mod, Nat.mod_eq_of_lt (by omega)]
    · rw [Nat.mul_comm, Nat.mul_add_div hexp, Nat.div_eq_of_lt (show e < 2 ^ spec.exponentBits by omega),
        Nat.add_zero]
  next hvrt =>
    rw [if_neg hvrt, Nat.add_zero] at hm
    rw [maxExponent, if_neg hvrt] at he
    refine ⟨?_, (Nat.le_zero.mp he).symm, rfl⟩
    rw [← hm.2]
    exact hlt

/-- A pattern decodes to its magnitude with its sign. -/
theorem NumericSpec.Valid.decode_pattern (h : spec.Valid) (hok : validate spec = .ok ()) {magnitude : UInt64}
    (hmag : magnitude.toNat ≤ (maxMagnitude spec negative).toNat) (he : e ≤ maxExponent spec)
    (hneg : negative = true → signedKind spec.kind = true ∧ magnitude ≠ 0) :
    ∃ v, decodeExact spec (pattern spec negative magnitude e) = .ok v ∧
      v.toRat = signed negative (magnitude.toNat * spec.unit e) := by
  obtain ⟨hbits, hexponent, hmantissa⟩ := h.pattern_spec hmag he hneg
  obtain ⟨v, hv, hvalue⟩ := h.decodeExact_spec hok hbits
  refine ⟨v, hv, ?_⟩
  rw [hvalue, hexponent, hmantissa]
  have hm := h.mantissaBits_spec.1
  have hhalf : 2 ^ (mantissaBits spec - 1) * 2 = 2 ^ mantissaBits spec := by
    rw [← Nat.pow_succ, Nat.succ_eq_add_one, Nat.sub_add_cancel hm]
  have hpos : 0 < 2 ^ (mantissaBits spec - 1) := Nat.two_pow_pos _
  rw [h.toNat_maxMagnitude] at hmag
  cases negative with
  | false =>
    rw [if_neg, signed]
    · rfl
    · rintro ⟨hs, hle⟩
      rw [if_pos hs] at hmag
      simp only [Bool.false_eq_true, if_false] at hmag hle
      omega
  | true =>
    obtain ⟨hs, -⟩ := hneg rfl
    rw [if_pos hs] at hmag
    simp only [if_true] at hmag ⊢
    rw [if_pos ⟨hs, by omega⟩, signed, if_pos rfl, Nat.sub_sub_self (by omega)]

/-- The pattern of zeros stands for zero in every format. -/
theorem NumericSpec.Valid.decode_zero (h : spec.Valid) (hok : validate spec = .ok ()) :
    ∃ v, decodeExact spec 0 = .ok v ∧ v.toRat = 0 := by
  have hbits : (0 : UInt64).toNat < 2 ^ spec.bits := by simp
  obtain ⟨v, hv, hvalue⟩ := h.decodeExact_spec hok hbits
  refine ⟨v, hv, ?_⟩
  have hfield : mantissaField spec 0 = 0 := by
    unfold mantissaField
    split <;> simp
  rw [hvalue, hfield, if_neg, Nat.cast_zero, zero_mul]
  rintro ⟨-, hle⟩
  have : 0 < 2 ^ (mantissaBits spec - 1) := Nat.two_pow_pos _
  omega

/-- The values of a format, sign by sign. -/
theorem NumericSpec.Valid.representable_iff (h : spec.Valid) (hok : validate spec = .ok ()) {x : ℚ} :
    x ∈ Representable spec ↔
      ∃ negative, (negative = true → signedKind spec.kind = true) ∧
        ∃ a ∈ Magnitudes spec negative, x = signed negative a := by
  constructor
  · rintro ⟨bits, v, hv, rfl⟩
    have hbits := decodeExact_bits_lt h hv
    have hlt := h.mantissaField_lt hbits
    have he := h.exponentField_le bits
    have hm := h.mantissaBits_spec.1
    have hhalf : 2 ^ (mantissaBits spec - 1) * 2 = 2 ^ mantissaBits spec := by
      rw [← Nat.pow_succ, Nat.succ_eq_add_one, Nat.sub_add_cancel hm]
    obtain ⟨v', hv', hvalue⟩ := h.decodeExact_spec hok hbits
    obtain rfl : v = v' := Except.ok.inj (hv.symm.trans hv')
    rw [hvalue]
    split
    next hneg =>
      refine ⟨true, fun _ => hneg.1, _, ⟨_, _, ?_, he, rfl⟩, rfl⟩
      rw [h.toNat_maxMagnitude, if_pos hneg.1, if_pos rfl]
      omega
    next hneg =>
      refine ⟨false, nofun, _, ⟨_, _, ?_, he, rfl⟩, rfl⟩
      rw [h.toNat_maxMagnitude]
      split
      next hs =>
        simp only [hs, true_and, Nat.not_le] at hneg
        simp only [Bool.false_eq_true, if_false]
        omega
      next hs => omega
  · rintro ⟨negative, hsigned, a, ⟨n, e, hn, he, rfl⟩, rfl⟩
    have hn64 := (maxMagnitude spec negative).toNat_lt
    have hword : n.toUInt64.toNat = n := toNat_toUInt64 (by omega)
    by_cases h0 : n = 0
    · obtain ⟨v, hv, hzero⟩ := h.decode_zero hok
      refine ⟨0, v, hv, ?_⟩
      rw [hzero, h0, Nat.cast_zero, zero_mul, signed_zero]
    · have hmag : n.toUInt64.toNat ≤ (maxMagnitude spec negative).toNat := by rwa [hword]
      obtain ⟨v, hv, hvalue⟩ := h.decode_pattern hok hmag he
        (fun hneg => ⟨hsigned hneg, fun hzero => h0 (by rw [← hword, hzero]; rfl)⟩)
      refine ⟨_, v, hv, ?_⟩
      rw [hvalue, hword]

/-! ## Quantization -/

/-- The rounding of a magnitude. -/
def Rounding.direction : Rounding → Bool → Direction
  | .nearestTiesEven, _ => .nearest
  | .towardZero, _ => .down
  | .towardNegative, negative => if negative then .up else .down
  | .towardPositive, negative => if negative then .down else .up

/-- The increment of the quotient is the one that the rounding direction asks for. -/
theorem increment_eq (rounding : Rounding) (negative : Bool) {quotient remainder : UInt64} {m right : ℕ}
    (hm : m < 2 ^ 64) (hright : 1 ≤ right) (hq : quotient.toNat = m / 2 ^ right) (hr : remainder.toNat = m % 2 ^ right) :
    increment rounding negative quotient remainder right =
      increments (rounding.direction negative) m (2 ^ right) := by
  have hpos := Nat.two_pow_pos right
  have hzero : remainder = 0 ↔ m % 2 ^ right = 0 := by
    rw [← hr, ← UInt64.toNat_inj]
    rfl
  unfold increment
  by_cases h0 : remainder = 0
  · rw [if_pos h0]
    have hr0 := hzero.mp h0
    cases rounding with
    | towardZero => rfl
    | towardNegative => cases negative <;> simp [Rounding.direction, increments, hr0]
    | towardPositive => cases negative <;> simp [Rounding.direction, increments, hr0]
    | nearestTiesEven =>
      symm
      simp only [Rounding.direction, increments, hr0, Bool.or_eq_false_iff, Bool.and_eq_false_iff,
        decide_eq_false_iff_not]
      exact ⟨by omega, .inl (by omega)⟩
  · rw [if_neg h0]
    have hr0 : m % 2 ^ right ≠ 0 := fun h => h0 (hzero.mpr h)
    cases rounding with
    | towardZero => rfl
    | towardNegative => cases negative <;> simp [Rounding.direction, increments, hr0]
    | towardPositive => cases negative <;> simp [Rounding.direction, increments, hr0]
    | nearestTiesEven =>
      simp only [Rounding.direction, increments]
      have hdouble : 2 ^ (right - 1) * 2 = 2 ^ right := by
        rw [← Nat.pow_succ, Nat.succ_eq_add_one, Nat.sub_add_cancel hright]
      split
      next hle =>
        have hhalf := toNat_one_shiftLeft (show right - 1 < 64 by omega)
        have hgt : remainder > 1 <<< (right - 1).toUInt64 ↔ 2 ^ right < 2 * (m % 2 ^ right) := by
          rw [gt_iff_lt, UInt64.lt_iff_toNat_lt, hhalf, hr]
          omega
        have heq : remainder = 1 <<< (right - 1).toUInt64 ↔ 2 * (m % 2 ^ right) = 2 ^ right := by
          rw [← UInt64.toNat_inj, hhalf, hr]
          omega
        have hodd : quotient &&& 1 ≠ 0 ↔ m / 2 ^ right % 2 = 1 := by
          rw [Ne, ← UInt64.toNat_inj, UInt64.toNat_and, UInt64.toNat_one, Nat.and_one_is_mod, hq,
            UInt64.toNat_zero]
          omega
        simp only [hgt, heq, hodd]
      next hle =>
        -- Half a unit is more than any magnitude.
        have hlarge : 2 ^ 65 ≤ 2 ^ right := Nat.pow_le_pow_right (by decide) (by omega)
        have hmod : m % 2 ^ right = m := Nat.mod_eq_of_lt (by omega)
        symm
        simp only [hmod, Bool.or_eq_false_iff, Bool.and_eq_false_iff, decide_eq_false_iff_not]
        exact ⟨by omega, .inl (by omega)⟩

/-- A quantized magnitude is the rounded one, unless that needs more than 64 bits. -/
structure Quantizes (value : BinaryValue) (q : ℤ) (rounding : Rounding) (n : ℕ) : Prop where
  rounds : RoundsTo (rounding.direction value.negative) value.size (2 ^ q) n
  overflow : 2 ^ 64 ≤ n → (quantize value q rounding).overflow = true
  fits : n < 2 ^ 64 → quantize value q rounding =
    { magnitude := n.toUInt64, residue := decide (value.size ≠ n * 2 ^ q), overflow := false }

section Quantize

variable {value : BinaryValue} {q : ℤ} {rounding : Rounding}

theorem quantize_zero (h0 : value.magnitude = 0) : Quantizes value q rounding 0 := by
  have hsize : value.size = (0 : ℕ) * 2 ^ q := by
    rw [BinaryValue.size_eq_zero.mpr h0, Nat.cast_zero, zero_mul]
  refine ⟨?_, by simp, fun _ => ?_⟩
  · rw [hsize]
    exact roundsTo_exact (two_zpow_pos q) 0
  · rw [quantize]
    dsimp only
    rw [if_pos h0, hsize]
    simp

/-- To the left nothing is lost. -/
theorem quantize_left (h0 : value.magnitude ≠ 0) (hshift : value.exponent.toInt - q ≥ 0) :
    ∃ n, Quantizes value q rounding n := by
  have hwidth := bitWidth_spec h0
  obtain ⟨k, hk⟩ := Int.eq_ofNat_of_zero_le hshift
  have hsize : value.size = (value.magnitude.toNat * 2 ^ k : ℕ) * 2 ^ q := by
    rw [BinaryValue.size, show value.exponent.toInt = k + q by omega, zpow_add₀ (by norm_num), zpow_natCast]
    push_cast
    ring
  refine ⟨value.magnitude.toNat * 2 ^ k, ?_, ?_, ?_⟩
  · rw [hsize]
    exact roundsTo_exact (two_zpow_pos q) _
  · intro hbig
    rw [quantize]
    dsimp only
    rw [if_neg h0, if_pos hshift, if_pos]
    by_contra hnot
    rw [hk] at hnot
    have hpow : 2 ^ (bitWidth value.magnitude + k) ≤ 2 ^ 64 := Nat.pow_le_pow_right (by decide) (by omega)
    rw [Nat.pow_add] at hpow
    have := Nat.mul_lt_mul_of_pos_right hwidth.2.1 (Nat.two_pow_pos k)
    omega
  · intro hsmall
    have hfit : bitWidth value.magnitude + k ≤ 64 := by
      by_contra hnot
      have hpow : 2 ^ 64 ≤ 2 ^ (bitWidth value.magnitude - 1 + k) :=
        Nat.pow_le_pow_right (by decide) (by omega)
      rw [Nat.pow_add] at hpow
      have := Nat.mul_le_mul_right (2 ^ k) hwidth.1
      omega
    rw [quantize]
    dsimp only
    rw [if_neg h0, if_pos hshift, if_neg (by omega), hk, Int.toNat_natCast, decide_eq_false]
    · congr 1
      rw [← UInt64.toNat_inj, toNat_shiftLeft (by omega) hsmall, toNat_toUInt64 hsmall]
    · rw [not_not]
      exact hsize

/-- Quotient and remainder of a shift to the right. -/
theorem shift_right_spec (m : UInt64) (right : ℕ) : ∃ quotient remainder : UInt64,
    (if right ≥ 64 then 0 else m >>> right.toUInt64) = quotient ∧ quotient.toNat = m.toNat / 2 ^ right ∧
    (if right ≥ 64 then m else m &&& mask right) = remainder ∧ remainder.toNat = m.toNat % 2 ^ right := by
  have hlt := m.toNat_lt
  by_cases hle : right ≥ 64
  · have : 2 ^ 64 ≤ 2 ^ right := Nat.pow_le_pow_right (by decide) hle
    refine ⟨0, m, if_pos hle, ?_, if_pos hle, ?_⟩
    · rw [Nat.div_eq_of_lt (by omega), UInt64.toNat_zero]
    · rw [Nat.mod_eq_of_lt (by omega)]
  · exact ⟨_, _, if_neg hle, toNat_shiftRight (by omega), if_neg hle, toNat_and_mask (toNat_mask (by omega))⟩

/-- To the right is a division with remainder. -/
theorem quantize_right (h0 : value.magnitude ≠ 0) (hshift : ¬value.exponent.toInt - q ≥ 0) :
    ∃ n, Quantizes value q rounding n := by
  obtain ⟨right, hright, hpos⟩ : ∃ right : ℕ, q - value.exponent.toInt = right ∧ 1 ≤ right :=
    ⟨(q - value.exponent.toInt).toNat, by omega, by omega⟩
  have hq : (2 : ℚ) ^ q = (2 ^ right : ℕ) * 2 ^ value.exponent.toInt := by
    rw [show q = right + value.exponent.toInt by omega, zpow_add₀ (by norm_num), zpow_natCast]
    push_cast
    rfl
  have hD : 0 < 2 ^ right := Nat.two_pow_pos right
  have hlt := value.magnitude.toNat_lt
  obtain ⟨quotient, remainder, hquotient, hqnat, hremainder, hrnat⟩ := shift_right_spec value.magnitude right
  have hinc := increment_eq rounding value.negative hlt hpos hqnat hrnat
  have hform : quantize value q rounding =
      if increments (rounding.direction value.negative) value.magnitude.toNat (2 ^ right) = true ∧
        quotient = 0xffffffffffffffff then
        { magnitude := 0, residue := remainder ≠ 0, overflow := true }
      else
        { magnitude := quotient + (increments (rounding.direction value.negative)
            value.magnitude.toNat (2 ^ right)).toUInt64,
          residue := remainder ≠ 0, overflow := false } := by
    rw [quantize]
    dsimp only
    rw [if_neg h0, if_neg hshift, show (-(value.exponent.toInt - q)).toNat = right by omega, hquotient,
      hremainder, hinc]
  have hn : roundDiv (rounding.direction value.negative) value.magnitude.toNat (2 ^ right) = quotient.toNat +
      (increments (rounding.direction value.negative) value.magnitude.toNat (2 ^ right)).toNat := by
    rw [roundDiv, hqnat]
  have hresidue : remainder ≠ 0 ↔ value.size ≠
      roundDiv (rounding.direction value.negative) value.magnitude.toNat (2 ^ right) * 2 ^ q := by
    have hzero : remainder = 0 ↔ value.magnitude.toNat % 2 ^ right = 0 := by
      rw [← hrnat, ← UInt64.toNat_inj]
      rfl
    rw [Ne, Ne, hzero, ← roundDiv_mul_eq (rounding.direction value.negative) _ hD, hq, BinaryValue.size,
      ← mul_assoc, mul_left_inj' (two_zpow_pos _).ne', ← Nat.cast_mul, Nat.cast_inj, eq_comm]
  refine ⟨roundDiv (rounding.direction value.negative) value.magnitude.toNat (2 ^ right), ?_, ?_, ?_⟩
  · rw [hq, BinaryValue.size]
    exact roundsTo_roundDiv _ _ hD (two_zpow_pos _)
  · intro hbig
    rw [hn] at hbig
    have hquot := quotient.toNat_lt
    rw [hform, if_pos]
    cases hup : increments (rounding.direction value.negative) value.magnitude.toNat (2 ^ right) with
    | false =>
      rw [hup, Bool.toNat_false] at hbig
      omega
    | true =>
      rw [hup, Bool.toNat_true] at hbig
      refine ⟨rfl, UInt64.toNat_inj.mp ?_⟩
      rw [show (0xffffffffffffffff : UInt64).toNat = 2 ^ 64 - 1 from rfl]
      omega
  · intro hsmall
    rw [hform, if_neg]
    · congr 1
      · rw [← UInt64.toNat_inj, toNat_toUInt64 hsmall, hn, UInt64.toNat_add]
        rw [hn] at hsmall
        cases hup : increments (rounding.direction value.negative) value.magnitude.toNat (2 ^ right) with
        | false => exact Nat.mod_eq_of_lt quotient.toNat_lt
        | true =>
          rw [hup] at hsmall
          exact Nat.mod_eq_of_lt hsmall
      · rw [decide_eq_decide]
        exact hresidue
    · rintro ⟨hup, hmax⟩
      rw [hn, hup, hmax] at hsmall
      exact absurd hsmall (by decide)

theorem quantize_spec (value : BinaryValue) (q : ℤ) (rounding : Rounding) :
    ∃ n, Quantizes value q rounding n := by
  by_cases h0 : value.magnitude = 0
  · exact ⟨0, quantize_zero h0⟩
  · by_cases hshift : value.exponent.toInt - q ≥ 0
    · exact quantize_left h0 hshift
    · exact quantize_right h0 hshift

end Quantize

/-! ## Comparison -/

/-- The size of a value between powers of two. -/
theorem BinaryValue.size_bounds {v : BinaryValue} (h : v.magnitude ≠ 0) :
    (2 : ℚ) ^ (v.exponent.toInt + bitWidth v.magnitude - 1) ≤ v.size ∧
      v.size < 2 ^ (v.exponent.toInt + bitWidth v.magnitude) := by
  obtain ⟨hlow, hhigh, hpos, -⟩ := bitWidth_spec h
  have hu := two_zpow_pos v.exponent.toInt
  unfold BinaryValue.size
  constructor
  · rw [show v.exponent.toInt + bitWidth v.magnitude - 1 =
      ((bitWidth v.magnitude - 1 : ℕ) : ℤ) + v.exponent.toInt by omega, zpow_add₀ (by norm_num), zpow_natCast]
    exact mul_le_mul_of_nonneg_right (by exact_mod_cast hlow) hu.le
  · rw [add_comm, zpow_add₀ (by norm_num), zpow_natCast]
    exact mul_lt_mul_of_pos_right (by exact_mod_cast hhigh) hu

/-- The magnitude with its highest bit at the top. -/
theorem BinaryValue.size_aligned {v : BinaryValue} (h : v.magnitude ≠ 0) :
    v.size = (v.magnitude <<< (64 - bitWidth v.magnitude).toUInt64).toNat *
      2 ^ (v.exponent.toInt + bitWidth v.magnitude - 64) := by
  obtain ⟨-, hhigh, hpos, hle⟩ := bitWidth_spec h
  have hfit : v.magnitude.toNat * 2 ^ (64 - bitWidth v.magnitude) < 2 ^ 64 := by
    calc v.magnitude.toNat * 2 ^ (64 - bitWidth v.magnitude)
        < 2 ^ bitWidth v.magnitude * 2 ^ (64 - bitWidth v.magnitude) :=
          Nat.mul_lt_mul_of_pos_right hhigh (Nat.two_pow_pos _)
      _ = 2 ^ 64 := by rw [← Nat.pow_add, Nat.add_sub_cancel' hle]
  rw [toNat_shiftLeft (by omega) hfit, BinaryValue.size, show v.exponent.toInt =
    ((64 - bitWidth v.magnitude : ℕ) : ℤ) + (v.exponent.toInt + bitWidth v.magnitude - 64) by omega,
    zpow_add₀ (by norm_num), zpow_natCast]
  push_cast
  rw [← mul_assoc]
  congr 2
  omega

/-- The comparison is exact. -/
theorem compare_eq_gt {a b : BinaryValue} : compare a b = .gt ↔ b.size < a.size := by
  unfold compare
  by_cases ha : a.magnitude = 0
  · have hsize := BinaryValue.size_eq_zero.mpr ha
    have := b.size_nonneg
    simp only [ha, true_or, if_true, ne_eq, not_true_eq_false, if_false]
    constructor
    · split <;> exact fun h => by cases h
    · intro h
      linarith
  · by_cases hb : b.magnitude = 0
    · have hsize := BinaryValue.size_eq_zero.mpr hb
      have hpos : a.size ≠ 0 := fun h => ha (BinaryValue.size_eq_zero.mp h)
      simp only [ha, hb, or_true, if_true, ne_eq, not_false_eq_true, true_iff]
      rw [hsize]
      exact lt_of_le_of_ne a.size_nonneg hpos.symm
    · have hab := BinaryValue.size_bounds ha
      have hbb := BinaryValue.size_bounds hb
      rw [if_neg (by simp [ha, hb])]
      dsimp only
      split
      next hne =>
        split
        next hlt =>
          have : (2 : ℚ) ^ (a.exponent.toInt + bitWidth a.magnitude) ≤
              2 ^ (b.exponent.toInt + bitWidth b.magnitude - 1) :=
            zpow_le_zpow_right₀ (by norm_num) (by omega)
          simp only [reduceCtorEq, false_iff, not_lt]
          linarith [hab.2, hbb.1]
        next hlt =>
          have : (2 : ℚ) ^ (b.exponent.toInt + bitWidth b.magnitude) ≤
              2 ^ (a.exponent.toInt + bitWidth a.magnitude - 1) :=
            zpow_le_zpow_right₀ (by norm_num) (by omega)
          simp only [true_iff]
          linarith [hab.1, hbb.2]
      next heq =>
        -- Equal tops: the aligned magnitudes have one unit.
        rw [not_not] at heq
        rw [BinaryValue.size_aligned ha, BinaryValue.size_aligned hb, heq,
          mul_lt_mul_iff_left₀ (two_zpow_pos _), Nat.cast_lt]
        split
        next hlt =>
          rw [UInt64.lt_iff_toNat_lt] at hlt
          simp only [reduceCtorEq, false_iff]
          omega
        next hlt =>
          split
          next hgt =>
            rw [gt_iff_lt, UInt64.lt_iff_toNat_lt] at hgt
            simp only [hgt]
          next hgt =>
            rw [gt_iff_lt, UInt64.lt_iff_toNat_lt] at hgt
            simp only [reduceCtorEq, hgt]

end Vita.Codec.Numeric
