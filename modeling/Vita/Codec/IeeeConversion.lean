import Vita.Codec.IeeeTheorems

/-!
# IEEE samples are correctly rounded

Main results:
- `encodes`: what `encodeFinite` returns for every value and policy;
- `overflow_spec`: what it returns where the rounded value is too large;
- `convert_same`, `convert_widen_narrow`: conversions that keep the bit pattern.
-/

namespace Vita.Codec.Ieee

open Checked Numeric UnitRounding Word64

variable {p : ℕ} {least : Option ℤ} {d : Direction} {a z : ℚ} {n : ℕ} {q : ℤ} {negative : Bool}
  {s : Shape} {bits : UInt64} {E F : ℕ} {value : BinaryValue} {mode : Rounding} {format : Format}
  {policy : Policy}

/-- A pattern that decodes to a finite number. -/
def DecodesTo (format : Format) (bits : UInt64) (negative : Bool) (y : ℚ) : Prop :=
  ∃ decoded, decodeExact format bits = .ok decoded ∧ (decoded.category = .zero ∨ decoded.category = .finite) ∧
    decoded.negative = negative ∧ decoded.finite.toRat = y

theorem Fields.decodesTo (h : Fields (shape format) bits negative E F)
    (hfinite : E ≠ 2 ^ (shape format).exponent - 1) :
    DecodesTo format bits negative (signed negative (magnitudeOf (shape format) E F)) := by
  obtain ⟨v, hv, hvalue, -⟩ := decode_finite h hfinite
  refine ⟨_, hv, ?_, rfl, hvalue⟩
  dsimp only
  split
  · exact .inr rfl
  · exact .inl rfl

theorem abs_signed (ha : 0 ≤ a) : |signed negative a| = a := by
  cases negative with
  | false => exact abs_of_nonneg ha
  | true =>
    show |-a| = a
    rw [abs_neg, abs_of_nonneg ha]

theorem signed_inj {b : ℚ} : signed negative a = signed negative b ↔ a = b := by
  constructor
  · intro h
    rw [← signed_signed negative a, h, signed_signed]
  · rintro rfl
    rfl

/-! ## Values that are too large -/

/-- The policy asks for infinity. -/
def ToInfinity (policy : Policy) (negative : Bool) : Prop :=
  policy.overflow = .ieeeResult ∧ (policy.rounding = .nearestTiesEven ∨
    (policy.rounding = .towardNegative ∧ negative = true) ∨
    (policy.rounding = .towardPositive ∧ negative = false))

theorem toNat_infinityBits (hs : s.Ok) : (infinityBits s).toNat = (2 ^ s.exponent - 1) * 2 ^ s.fraction := by
  have hf52 := hs.fraction_le
  have he11 := hs.exponent_le
  have hmask := toNat_mask (show s.exponent ≤ 64 by omega)
  have hword : 2 ^ s.exponent * 2 ^ s.fraction ≤ 2 ^ 63 := by
    rw [← Nat.pow_add]
    exact Nat.pow_le_pow_right (by decide) (by omega)
  have hle := Nat.mul_le_mul_right (2 ^ s.fraction) (Nat.sub_le (2 ^ s.exponent) 1)
  rw [infinityBits, toNat_shiftLeft (by omega) (by rw [hmask]; omega), hmask]

theorem fields_infinity (hs : s.Ok) (negative : Bool) :
    Fields s (signBit s negative ||| infinityBits s) negative (2 ^ s.exponent - 1) 0 := by
  have hpos := Nat.two_pow_pos s.exponent
  have hfpos := Nat.two_pow_pos s.fraction
  have hinf := toNat_infinityBits hs
  have hlt : (2 ^ s.exponent - 1) * 2 ^ s.fraction < 2 ^ (s.exponent + s.fraction) := by
    rw [Nat.pow_add]
    exact Nat.mul_lt_mul_of_pos_right (by omega) hfpos
  refine ⟨by omega, hfpos, ?_⟩
  rw [toNat_signBit_or hs negative (by rwa [hinf]), hinf, Nat.add_zero]

/-- The pattern below infinity has the largest exponent and a full fraction. -/
theorem fields_maxFinite (hs : s.Ok) (negative : Bool) :
    Fields s (signBit s negative ||| (infinityBits s - 1)) negative (2 ^ s.exponent - 2) (2 ^ s.fraction - 1) := by
  have hexp : 2 ^ 2 ≤ 2 ^ s.exponent := Nat.pow_le_pow_right (by decide) hs.exponent_ge
  have hfpos := Nat.two_pow_pos s.fraction
  have hinf := toNat_infinityBits hs
  have hlast : (infinityBits s - 1).toNat = (2 ^ s.exponent - 2) * 2 ^ s.fraction + (2 ^ s.fraction - 1) := by
    have hlt := (infinityBits s).toNat_lt
    have hsplit : (2 ^ s.exponent - 1) * 2 ^ s.fraction =
        (2 ^ s.exponent - 2) * 2 ^ s.fraction + 2 ^ s.fraction := by
      rw [← Nat.succ_mul]
      congr 1
      omega
    rw [UInt64.toNat_sub, UInt64.toNat_one, hinf, hsplit]
    rw [hinf, hsplit] at hlt
    omega
  have hbound : (2 ^ s.exponent - 2) * 2 ^ s.fraction + (2 ^ s.fraction - 1) < 2 ^ (s.exponent + s.fraction) := by
    have : (2 ^ s.exponent - 2 + 1) * 2 ^ s.fraction ≤ 2 ^ s.exponent * 2 ^ s.fraction :=
      Nat.mul_le_mul_right _ (by omega)
    rw [← Nat.pow_add, Nat.add_mul, Nat.one_mul] at this
    omega
  refine ⟨by omega, by omega, ?_⟩
  rw [toNat_signBit_or hs negative (by rwa [hlast]), hlast]

/-- This pattern is the largest finite number. -/
theorem magnitudeOf_maxFinite (hs : s.Ok) :
    magnitudeOf s (2 ^ s.exponent - 2) (2 ^ s.fraction - 1) = s.maxFinite := by
  have hexp : 2 ^ 2 ≤ 2 ^ s.exponent := Nat.pow_le_pow_right (by decide) hs.exponent_ge
  have hfpos := Nat.two_pow_pos s.fraction
  have hbias := hs.bias_eq
  have hdouble : 2 ^ s.exponent = 2 * 2 ^ (s.exponent - 1) := by
    rw [← Nat.pow_succ', Nat.succ_eq_add_one, Nat.sub_add_cancel (by have := hs.exponent_ge; omega)]
  have hlast : lastBit s (2 ^ s.exponent - 2) = s.bias - s.fraction := by
    have hcast : ((2 ^ s.exponent - 2 : ℕ) : ℤ) = 2 * s.bias := by
      have hnat : ((2 ^ (s.exponent - 1) : ℕ) : ℤ) = s.bias + 1 := by
        rw [hbias]
        push_cast
        rfl
      omega
    rw [lastBit, if_neg (by omega), hcast]
    ring
  have hsig : significand s (2 ^ s.exponent - 2) (2 ^ s.fraction - 1) = 2 ^ (s.fraction + 1) - 1 := by
    rw [significand, if_neg (by omega), Nat.pow_succ]
    omega
  rw [magnitudeOf, hsig, hlast, Shape.maxFinite, Nat.cast_sub Nat.one_le_two_pow]
  push_cast
  rfl

/-- The result for a value that is too large: the policy decides between an error, infinity and the largest
finite number. -/
structure OverflowResult (format : Format) (negative : Bool) (policy : Policy) (result : Result Converted) :
    Prop where
  rejected : policy.precision = .exactOnly ∨ policy.overflow = .error → result = .error { code := .overflow }
  accepted : ¬(policy.precision = .exactOnly ∨ policy.overflow = .error) →
    ∃ bits, result = .ok { bits, flags := { inexact := true, overflow := true } } ∧
      (ToInfinity policy negative → ∃ decoded, decodeExact format bits = .ok decoded ∧
        decoded.category = .infinity ∧ decoded.negative = negative) ∧
      (¬ToInfinity policy negative → DecodesTo format bits negative (signed negative (shape format).maxFinite))

/-- The overflow result is infinity, the largest finite number or an error, as the policy says. -/
theorem overflow_spec (format : Format) (negative : Bool) (policy : Policy) :
    OverflowResult format negative policy (overflow (shape format) negative policy) := by
  have hs := shape_ok format
  constructor
  · intro hreject
    rw [overflow, rejectIf_of hreject]
    rfl
  · intro hreject
    rw [overflow, rejectIf_of_not hreject, ok_bind]
    dsimp only
    refine ⟨_, rfl, fun hinf => ?_, fun hinf => ?_⟩
    · rw [if_pos (by simpa [ToInfinity] using hinf), decodeExact_fields (fields_infinity hs negative), if_pos rfl,
        if_pos rfl]
      exact ⟨_, rfl, rfl, rfl⟩
    · rw [if_neg (by simpa [ToInfinity] using hinf)]
      have hexp : 2 ^ 2 ≤ 2 ^ (shape format).exponent := Nat.pow_le_pow_right (by decide) hs.exponent_ge
      have hdecode := (fields_maxFinite hs negative).decodesTo (by omega)
      rwa [magnitudeOf_maxFinite hs] at hdecode

/-! ## Encoding -/

/-- What `encodeFinite` returns for a value that rounds to `y`; `y'` is the value rounded with an exponent
that has no least value. -/
structure Encodes (format : Format) (value : BinaryValue) (policy : Policy) (y y' : ℚ) : Prop where
  rounded : IeeeRounded ((shape format).fraction + 1) (some (shape format).leastQuantum) policy.rounding
    value.toRat y
  unbounded : IeeeRounded ((shape format).fraction + 1) none policy.rounding value.toRat y'
  large : (shape format).maxFinite < |y| →
    OverflowResult format value.negative policy (encodeFinite format value policy)
  inexact : |y| ≤ (shape format).maxFinite → y ≠ value.toRat → policy.precision = .exactOnly →
    encodeFinite format value policy = .error { code := .invalidArgument }
  fits : |y| ≤ (shape format).maxFinite → y = value.toRat ∨ policy.precision = .allowRounding →
    ∃ bits, DecodesTo format bits value.negative y ∧ encodeFinite format value policy = .ok
      { bits, flags := { inexact := decide (y ≠ value.toRat),
                         underflow := decide (y ≠ value.toRat ∧ |y'| < (shape format).minNormal) } }

/-- A number of the set stays as it is. -/
theorem ieeeRounded_self {x : ℚ} (h : x ∈ Floats p least) : IeeeRounded p least mode x x := by
  refine ⟨correctlyRounded_self h, ?_⟩
  rintro - ⟨z, -, hne, htie⟩
  rw [sub_self, abs_zero, abs_eq_zero, sub_eq_zero] at htie
  exact absurd htie.symm hne

theorem zero_mem_floats : (0 : ℚ) ∈ Floats p least := ⟨false, zero_mem_floatMagnitudes⟩

theorem maxFinite_nonneg (s : Shape) : 0 ≤ s.maxFinite := by
  refine mul_nonneg ?_ (two_zpow_pos _).le
  have : (1 : ℚ) ≤ 2 ^ (s.fraction + 1) := one_le_pow₀ (by norm_num)
  linarith

theorem fields_signBit (hs : s.Ok) (negative : Bool) : Fields s (signBit s negative) negative 0 0 := by
  have h := toNat_signBit_or (x := 0) hs negative (Nat.two_pow_pos _)
  rw [UInt64.or_zero, UInt64.toNat_zero, Nat.add_zero] at h
  refine ⟨Nat.two_pow_pos _, Nat.two_pow_pos _, ?_⟩
  rw [h, Nat.zero_mul, Nat.add_zero]

theorem zero_ne_max (hs : s.Ok) : 0 ≠ 2 ^ s.exponent - 1 := by
  have : 2 ^ 1 < 2 ^ s.exponent := Nat.pow_lt_pow_right (by decide) (by have := hs.exponent_ge; omega)
  omega

theorem magnitudeOf_zero (s : Shape) : magnitudeOf s 0 0 = 0 := by
  rw [magnitudeOf, significand, if_pos rfl, Nat.cast_zero, zero_mul]

/-- Zero keeps its sign. -/
theorem encodes_zero (h0 : value.magnitude = 0) : Encodes format value policy 0 0 := by
  have hs := shape_ok format
  have hx : value.toRat = 0 := by
    rw [BinaryValue.toRat, BinaryValue.size_eq_zero.mpr h0, signed_zero]
  have hmax : |(0 : ℚ)| ≤ (shape format).maxFinite := by
    rw [abs_zero]
    exact maxFinite_nonneg _
  refine ⟨?_, ?_, fun hlarge => absurd hmax (not_le.mpr hlarge), fun _ hne => absurd hx.symm hne, fun _ _ => ?_⟩
  · rw [hx]
    exact ieeeRounded_self zero_mem_floats
  · rw [hx]
    exact ieeeRounded_self zero_mem_floats
  · have hdecode := (fields_signBit hs value.negative).decodesTo (zero_ne_max hs)
    rw [magnitudeOf_zero, signed_zero] at hdecode
    refine ⟨signBit (shape format) value.negative, hdecode, ?_⟩
    rw [encodeFinite]
    dsimp only
    rw [if_pos h0, hx]
    simp

/-- A value that is not zero is rounded at the quantum of its highest bit, or at the least quantum. -/
theorem encodes_nonzero (h0 : value.magnitude ≠ 0) : ∃ y y', Encodes format value policy y y' := by
  have hs := shape_ok format
  have hf2 := hs.fraction_ge
  have hpos := size_pos h0
  have hbinade := highest_le_binade (shape format) value
  have hlow : highest value ≤ encodeQuantum (shape format) value + (shape format).fraction := by
    unfold encodeQuantum
    omega
  obtain ⟨n, hrounds, hn, hinexact⟩ := round_spec policy.rounding h0 (round_fits hs hlow)
  obtain ⟨n', hrounds', hn', -⟩ := round_spec policy.rounding h0
    (round_fits (q := highest value - (shape format).fraction) hs (by omega))
  have hle := rounded_le h0 hlow hrounds
  have hsize : ∀ (m : ℕ) (k : ℤ), 0 ≤ (m : ℚ) * 2 ^ k := fun m k =>
    mul_nonneg (Nat.cast_nonneg m) (two_zpow_pos k).le
  have hlarge := overflow_iff_large hs h0 hrounds
  have hresidue : (round value (encodeQuantum (shape format) value) policy.rounding).inexact =
      decide (signed value.negative (n * 2 ^ encodeQuantum (shape format) value) ≠ value.toRat) := by
    rw [hinexact, decide_eq_decide, BinaryValue.toRat, Ne, Ne, signed_inj, eq_comm]
  refine ⟨signed value.negative (n * 2 ^ encodeQuantum (shape format) value),
    signed value.negative (n' * 2 ^ (highest value - (shape format).fraction)), ?_, ?_, ?_, ?_, ?_⟩
  · refine ieeeRounded_of_roundsTo (by omega) hpos hrounds ?_ hle ?_
    · intro q' hq'
      obtain rfl := Option.some.inj hq'
      unfold encodeQuantum binade Shape.leastQuantum
      split <;> omega
    · by_cases hsub : highest value < 1 - (shape format).bias
      · left
        rw [encodeQuantum, binade, if_pos hsub]
        rfl
      · right
        refine full_le h0 ?_
        rw [encodeQuantum, binade, if_neg hsub]
        omega
  · refine ieeeRounded_of_roundsTo (by omega) hpos hrounds' (fun q' hq' => by cases hq')
      (rounded_le h0 (by omega) hrounds') (.inr (full_le h0 (by omega)))
  · rw [abs_signed (hsize _ _)]
    intro hbig
    have hoverflow : encodeFinite format value policy = overflow (shape format) value.negative policy := by
      rcases hlarge.mp hbig with htop | ⟨hc, htop⟩
      · exact encodeFinite_of_high h0 htop
      · by_cases htop' : highest value ≤ (shape format).bias
        · rw [encodeFinite_eq h0 htop', encodeRounded_of_carry hs hn hc htop]
        · exact encodeFinite_of_high h0 (not_le.mp htop')
    rw [hoverflow]
    exact overflow_spec format value.negative policy
  all_goals
    rw [abs_signed (hsize _ _)]
    intro hsmall
    have hnot := mt hlarge.mpr (not_lt.mpr hsmall)
    rw [not_or, not_lt, not_and, not_lt] at hnot
    obtain ⟨htop, hcarry⟩ := hnot
    rw [encodeFinite_eq h0 htop]
  · intro hne hprecision
    exact encodeRounded_of_inexact hs hn htop hcarry (hresidue.trans (decide_eq_true hne)) hprecision
  · intro hfits
    obtain ⟨hE, hvalue⟩ := exists_fields_of_rounded hs h0 hrounds htop hcarry
    have hprecision : (round value (encodeQuantum (shape format) value) policy.rounding).inexact = true →
        policy.precision = .allowRounding := by
      intro hres
      rw [hresidue, decide_eq_true_iff] at hres
      exact hfits.resolve_left hres
    obtain ⟨bits, hfields, hok⟩ :=
      encodeRounded_of_fits hs hn value htop hcarry hprecision rfl rfl rfl hE
    refine ⟨bits, ?_, ?_⟩
    · have hdecode := hfields.decodesTo hE.ne
      rwa [hvalue] at hdecode
    · rw [hok, tinyAfterRounding_eq hs h0 hrounds' hn', hresidue, abs_signed (hsize _ _), Bool.decide_and]

/-- Encoding follows IEEE 754. -/
theorem encodes (format : Format) (value : BinaryValue) (policy : Policy) :
    ∃ y y', Encodes format value policy y y' := by
  by_cases h0 : value.magnitude = 0
  · exact ⟨0, 0, encodes_zero h0⟩
  · exact encodes_nonzero h0

/-! ## Exact values -/

/-- A value that is in the set is its own rounding. -/
theorem correctlyRounded_eq {S : Set ℚ} {x y : ℚ} (h : CorrectlyRounded S mode x y) (hx : x ∈ S) : y = x := by
  cases mode with
  | nearestTiesEven =>
    have := h.2 x hx
    rw [sub_self, abs_zero, abs_nonpos_iff, sub_eq_zero] at this
    exact this.symm
  | towardZero =>
    simp only [CorrectlyRounded] at h
    split at h
    · exact le_antisymm h.1.2 (h.2 ⟨hx, le_refl _⟩)
    · exact le_antisymm (h.2 ⟨hx, le_refl _⟩) h.1.2
  | towardNegative => exact le_antisymm h.1.2 (h.2 ⟨hx, le_refl _⟩)
  | towardPositive => exact le_antisymm (h.2 ⟨hx, le_refl _⟩) h.1.2

/-- The numbers of a format. -/
def FormatFloats (s : Shape) : Set ℚ := {x | x ∈ Floats (s.fraction + 1) (some s.leastQuantum) ∧ |x| ≤ s.maxFinite}

/-- A number of the format is encoded as it is. -/
theorem encodeFinite_exact (hx : value.toRat ∈ FormatFloats (shape format)) :
    ∃ bits, encodeFinite format value policy = .ok { bits, flags := {} } ∧
      DecodesTo format bits value.negative value.toRat := by
  obtain ⟨y, y', h⟩ := encodes format value policy
  obtain rfl := correctlyRounded_eq h.rounded.1 hx.1
  obtain ⟨bits, hdecode, hok⟩ := h.fits hx.2 (.inl rfl)
  refine ⟨bits, ?_, hdecode⟩
  rw [hok]
  simp

theorem decodeExact_fields_exist {decoded : Decoded} (h : decodeExact format bits = .ok decoded) :
    ∃ negative E F, Fields (shape format) bits negative E F := by
  have hs := shape_ok format
  have hf52 := hs.fraction_le
  have he11 := hs.exponent_le
  simp only [decodeExact, bind_eq_ok, rejectIf_eq_ok, ne_eq, not_not] at h
  obtain ⟨-, hbits, -⟩ := h
  exact exists_fields hs ((and_not_mask_eq_zero (by rw [hs.width_eq]; omega)
    (toNat_mask (by rw [hs.width_eq]; omega))).mp hbits)

/-- The fields of a finite pattern. -/
theorem DecodesTo.fields {y : ℚ} (h : DecodesTo format bits negative y) :
    ∃ E F, Fields (shape format) bits negative E F ∧ E ≠ 2 ^ (shape format).exponent - 1 ∧
      y = signed negative (magnitudeOf (shape format) E F) := by
  obtain ⟨decoded, hdecoded, hcategory, hnegative, rfl⟩ := h
  obtain ⟨negative', E, F, hfields⟩ := decodeExact_fields_exist hdecoded
  have hfinite : E ≠ 2 ^ (shape format).exponent - 1 := by
    intro hmax
    rw [decodeExact_fields hfields, if_pos hmax] at hdecoded
    split at hdecoded
    · obtain rfl := Except.ok.inj hdecoded
      rcases hcategory with hcategory | hcategory <;> cases hcategory
    · obtain rfl := Except.ok.inj hdecoded
      dsimp only at hcategory
      split at hcategory <;> rcases hcategory with hcategory | hcategory <;> cases hcategory
  obtain ⟨v, hv, hvalue, -⟩ := decode_finite hfields hfinite
  obtain rfl := Except.ok.inj (hdecoded.symm.trans hv)
  obtain rfl : negative' = negative := hnegative
  exact ⟨E, F, hfields, hfinite, hvalue⟩

/-- A finite pattern is determined by its sign and its value. -/
theorem DecodesTo.unique {bits' : UInt64} {y : ℚ} (h : DecodesTo format bits negative y)
    (h' : DecodesTo format bits' negative y) : bits = bits' := by
  obtain ⟨E, F, hfields, -, rfl⟩ := h.fields
  obtain ⟨E', F', hfields', -, hvalue⟩ := h'.fields
  obtain ⟨rfl, rfl⟩ := magnitudeOf_inj hfields.fraction_lt hfields'.fraction_lt (signed_inj.mp hvalue)
  exact hfields.unique hfields'

/-- The value of a finite pattern is a number of the format. -/
theorem DecodesTo.mem {y : ℚ} (h : DecodesTo format bits negative y) : y ∈ FormatFloats (shape format) := by
  have hs := shape_ok format
  obtain ⟨E, F, hfields, hfinite, rfl⟩ := h.fields
  have hnonneg : 0 ≤ magnitudeOf (shape format) E F := mul_nonneg (Nat.cast_nonneg _) (two_zpow_pos _).le
  refine ⟨signed_mem_floats.mpr ⟨false, significand (shape format) E F, lastBit (shape format) E,
    significand_lt hfields.fraction_lt, ?_, rfl⟩, ?_⟩
  · intro q hq
    obtain rfl := Option.some.inj hq
    unfold lastBit Shape.leastQuantum
    split <;> omega
  · rw [abs_signed hnonneg, ← magnitudeOf_maxFinite hs]
    have hlt := hfields.exponent_lt
    have hexp : 2 ^ 2 ≤ 2 ^ (shape format).exponent := Nat.pow_le_pow_right (by decide) hs.exponent_ge
    rcases Nat.lt_or_eq_of_le (show E ≤ 2 ^ (shape format).exponent - 2 by omega) with hE | rfl
    · exact (magnitudeOf_lt hfields.fraction_lt hE).le
    · have hF := hfields.fraction_lt
      refine mul_le_mul_of_nonneg_right ?_ (two_zpow_pos _).le
      rw [significand, significand, if_neg (by omega), if_neg (by omega)]
      exact_mod_cast (by omega : F + 2 ^ (shape format).fraction ≤
        2 ^ (shape format).fraction - 1 + 2 ^ (shape format).fraction)

/-! ## Conversion -/

variable {source destination : Format}

/-- A finite pattern is converted through its value. -/
theorem convert_finite (destination : Format) (policy : Policy) {y : ℚ} (h : DecodesTo source bits negative y) : ∃ v : BinaryValue, v.toRat = y ∧
    v.negative = negative ∧ convert source bits destination policy = encodeFinite destination v policy := by
  obtain ⟨E, F, hfields, hfinite, rfl⟩ := h.fields
  obtain ⟨v, hv, hvalue, hsign⟩ := decode_finite hfields hfinite
  unfold convert
  rw [hv, ok_bind]
  dsimp only
  by_cases hnonzero : E ≠ 0 ∨ F ≠ 0
  · rw [if_pos hnonzero]
    exact ⟨v, hvalue, hsign hnonzero, rfl⟩
  · rw [if_neg hnonzero]
    rw [not_or, not_not, not_not] at hnonzero
    refine ⟨{ magnitude := 0, exponent := 0, negative }, ?_, rfl, rfl⟩
    obtain ⟨rfl, rfl⟩ := hnonzero
    rw [magnitudeOf_zero, signed_zero, BinaryValue.toRat, BinaryValue.size_eq_zero.mpr rfl, signed_zero]

/-- A number of both formats keeps its value. -/
theorem convert_exact (policy : Policy) {y : ℚ} (h : DecodesTo source bits negative y)
    (hy : y ∈ FormatFloats (shape destination)) :
    ∃ bits', convert source bits destination policy = .ok { bits := bits', flags := {} } ∧
      DecodesTo destination bits' negative y := by
  obtain ⟨v, rfl, rfl, hconvert⟩ := convert_finite destination policy h
  rw [hconvert]
  exact encodeFinite_exact hy

theorem convert_infinity (h : Fields (shape source) bits negative (2 ^ (shape source).exponent - 1) 0)
    (hpolicy : policy.nonfinite = .propagate) : convert source bits destination policy = .ok
      { bits := signBit (shape destination) negative ||| infinityBits (shape destination), flags := {} } := by
  unfold convert
  rw [decodeExact_fields h, if_pos rfl, if_pos rfl, ok_bind]
  dsimp only
  rw [rejectIf_of_not (by rw [hpolicy]; decide)]
  rfl

/-- The highest bit of a field, set. -/
theorem or_two_pow_eq {k : ℕ} (hF : F < 2 ^ (k + 1)) : F ||| 2 ^ k = 2 ^ k ||| F % 2 ^ k := by
  apply Nat.eq_of_testBit_eq
  intro i
  rw [Nat.testBit_or, Nat.testBit_or, Nat.testBit_two_pow, Nat.testBit_mod_two_pow]
  rcases Nat.lt_trichotomy i k with hlt | rfl | hgt
  · simp [hlt, Nat.ne_of_gt hlt]
  · simp
  · have hhigh : F.testBit i = false :=
      Nat.testBit_lt_two_pow (hF.trans_le (Nat.pow_le_pow_right (by decide) (by omega)))
    simp [hhigh, Nat.not_lt.mpr hgt.le]

/-- A pattern with the exponent of infinity, put together again. -/
theorem Fields.bits_infinity (h : Fields (shape format) bits negative (2 ^ (shape format).exponent - 1) F) :
    bits = signBit (shape format) negative ||| infinityBits (shape format) ||| F.toUInt64 := by
  have hs := shape_ok format
  have hword : 2 ^ (shape format).fraction ≤ 2 ^ 52 := Nat.pow_le_pow_right (by decide) hs.fraction_le
  have hF := h.fraction_lt
  have he11 := hs.exponent_le
  exact h.unique (fields_assemble hs negative (toNat_mask (by omega)) (toNat_toUInt64 (by omega)) h.exponent_lt hF)

/-- The payload of a NaN under the bit that makes it quiet. -/
theorem or_quiet (hs : s.Ok) (hF : F < 2 ^ s.fraction) :
    (F.toUInt64 ||| (1 <<< (s.fraction - 1).toUInt64) : UInt64) =
      (1 <<< (s.fraction - 1).toUInt64) ||| (F % 2 ^ (s.fraction - 1)).toUInt64 := by
  have hf2 := hs.fraction_ge
  have hf52 := hs.fraction_le
  have hword : 2 ^ s.fraction ≤ 2 ^ 52 := Nat.pow_le_pow_right (by decide) hf52
  have hmod := Nat.mod_le F (2 ^ (s.fraction - 1))
  rw [← UInt64.toNat_inj, UInt64.toNat_or, UInt64.toNat_or, toNat_toUInt64 (by omega),
    toNat_toUInt64 (by omega), toNat_one_shiftLeft (by omega)]
  exact or_two_pow_eq (by rwa [Nat.sub_add_cancel (by omega)])

/-- A quiet NaN has that bit already. -/
theorem or_quiet_of_le (hs : s.Ok) (hF : F < 2 ^ s.fraction) (hle : 2 ^ (s.fraction - 1) ≤ F) :
    (F.toUInt64 ||| (1 <<< (s.fraction - 1).toUInt64) : UInt64) = F.toUInt64 := by
  have hf2 := hs.fraction_ge
  have hf52 := hs.fraction_le
  have hword : 2 ^ s.fraction ≤ 2 ^ 52 := Nat.pow_le_pow_right (by decide) hf52
  have hdouble : 2 ^ s.fraction = 2 ^ (s.fraction - 1) * 2 := by
    rw [← Nat.pow_succ, Nat.succ_eq_add_one, Nat.sub_add_cancel (by omega)]
  have hmod : F % 2 ^ (s.fraction - 1) = F - 2 ^ (s.fraction - 1) := by
    rw [Nat.mod_eq_sub_mod hle, Nat.mod_eq_of_lt (by omega)]
  have hor := Nat.two_pow_add_eq_or_of_lt (Nat.mod_lt F (Nat.two_pow_pos (s.fraction - 1))) 1
  rw [Nat.mul_one, hmod] at hor
  rw [or_quiet hs hF, hmod, ← UInt64.toNat_inj, UInt64.toNat_or, toNat_toUInt64 (by omega),
    toNat_toUInt64 (by omega), toNat_one_shiftLeft (by omega), ← hor]
  omega

/-- A NaN of the same format becomes quiet, and keeps its payload. -/
theorem convert_nan (h : Fields (shape format) bits negative (2 ^ (shape format).exponent - 1) F) (hF : F ≠ 0)
    (hpolicy : policy.nonfinite = .propagate) (hpayload : policy.payload = .exact) :
    ∃ flags, convert format bits format policy = .ok
      { bits := bits ||| (1 <<< ((shape format).fraction - 1).toUInt64), flags } := by
  have hnan : ∀ category, ∃ flags, convertNan
      { category, negative, finite := noValue,
        payload := (F % 2 ^ ((shape format).fraction - 1)).toUInt64,
        payloadBits := (shape format).fraction - 1 } (shape format) policy = .ok
      { bits := bits ||| (1 <<< ((shape format).fraction - 1).toUInt64), flags } := by
    intro category
    unfold convertNan
    dsimp only
    rw [if_neg (by rw [hpayload]; decide), if_neg (by simp), if_neg (Nat.lt_irrefl _), Nat.sub_self,
      h.bits_infinity, UInt64.or_assoc _ F.toUInt64, or_quiet (shape_ok format) h.fraction_lt, ← UInt64.or_assoc,
      show ∀ x : UInt64, x <<< (0 : ℕ).toUInt64 = x from fun x => UInt64.shiftLeft_zero]
    exact ⟨_, rfl⟩
  unfold convert
  rw [decodeExact_fields h, if_pos rfl, if_neg hF, ok_bind]
  dsimp only
  by_cases hq : 2 ^ ((shape format).fraction - 1) ≤ F
  · rw [if_pos hq]
    dsimp only
    rw [rejectIf_of_not (by rw [hpolicy]; decide), ok_bind]
    exact hnan _
  · rw [if_neg hq]
    dsimp only
    rw [rejectIf_of_not (by rw [hpolicy]; decide), ok_bind]
    exact hnan _

/-- A conversion to the same format keeps the pattern; a signaling NaN becomes quiet. -/
theorem convert_same (hbits : bits.toNat < 2 ^ (shape format).width) (hpolicy : policy.nonfinite = .propagate)
    (hpayload : policy.payload = .exact) :
    ∃ decoded converted, decodeExact format bits = .ok decoded ∧
      convert format bits format policy = .ok converted ∧
      converted.bits = if decoded.category = .signalingNan then
        bits ||| (1 <<< ((shape format).fraction - 1).toUInt64) else bits := by
  have hs := shape_ok format
  obtain ⟨negative, E, F, hfields⟩ := exists_fields hs hbits
  by_cases hmax : E = 2 ^ (shape format).exponent - 1
  · subst hmax
    by_cases hF : F = 0
    · subst hF
      refine ⟨_, _, (decodeExact_fields hfields).trans ((if_pos rfl).trans (if_pos rfl)),
        convert_infinity hfields hpolicy, ?_⟩
      rw [if_neg (fun hsignaling => by cases hsignaling)]
      exact (fields_infinity hs negative).unique hfields
    · obtain ⟨flags, hconvert⟩ := convert_nan hfields hF hpolicy hpayload
      refine ⟨_, _, (decodeExact_fields hfields).trans ((if_pos rfl).trans (if_neg hF)), hconvert, ?_⟩
      dsimp only
      by_cases hq : 2 ^ ((shape format).fraction - 1) ≤ F
      · -- The bit is set already.
        rw [if_pos hq, if_neg (by decide), hfields.bits_infinity, UInt64.or_assoc,
          or_quiet_of_le hs hfields.fraction_lt hq]
      · rw [if_neg hq, if_pos rfl]
  · have hdecode := hfields.decodesTo hmax
    obtain ⟨v, hv, -, -⟩ := decode_finite hfields hmax
    obtain ⟨bits', hconvert, hdecode'⟩ := convert_exact policy hdecode hdecode.mem
    refine ⟨_, _, hv, hconvert, ?_⟩
    dsimp only
    rw [if_neg]
    · exact hdecode'.unique hdecode
    · split <;> decide

/-- The destination holds every number of the source. -/
theorem formatFloats_subset (hwide : (shape source).width ≤ (shape destination).width) :
    FormatFloats (shape source) ⊆ FormatFloats (shape destination) := by
  rintro x ⟨⟨negative, n, k, hn, hk, hx⟩, hmax⟩
  have hfacts : (shape source).fraction ≤ (shape destination).fraction ∧
      (shape destination).leastQuantum ≤ (shape source).leastQuantum ∧
      (source = destination ∨ (shape source).bias + 1 ≤ (shape destination).bias) := by
    revert hwide
    cases source <;> cases destination <;> decide
  obtain ⟨hfraction, hleast, hbias⟩ := hfacts
  refine ⟨⟨negative, n, k, hn.trans_le (Nat.pow_le_pow_right (by decide) (by omega)), ?_, hx⟩, ?_⟩
  · intro q hq
    obtain rfl := Option.some.inj hq
    exact hleast.trans (hk _ rfl)
  · rcases hbias with rfl | hbias
    · exact hmax
    · calc |x| ≤ (shape source).maxFinite := hmax
        _ ≤ 2 ^ ((shape source).bias + 1) := (maxFinite_lt _).le
        _ ≤ 2 ^ (shape destination).bias := zpow_le_zpow_right₀ (by norm_num) hbias
        _ ≤ (shape destination).maxFinite := two_pow_bias_le_maxFinite _

/-- Widening then narrowing gives the pattern back, unless it is a NaN. -/
theorem convert_widen_narrow {policy' : Policy} {decoded : Decoded}
    (hwide : (shape source).width ≤ (shape destination).width) (hdecoded : decodeExact source bits = .ok decoded)
    (hnan : decoded.category ≠ .quietNan ∧ decoded.category ≠ .signalingNan)
    (hpolicy : decoded.category = .infinity → policy.nonfinite = .propagate ∧ policy'.nonfinite = .propagate) :
    ∃ converted converted', convert source bits destination policy = .ok converted ∧
      convert destination converted.bits source policy' = .ok converted' ∧ converted'.bits = bits := by
  obtain ⟨negative, E, F, hfields⟩ := decodeExact_fields_exist hdecoded
  by_cases hmax : E = 2 ^ (shape source).exponent - 1
  · subst hmax
    rw [decodeExact_fields hfields, if_pos rfl] at hdecoded
    by_cases hF : F = 0
    · subst hF
      rw [if_pos rfl] at hdecoded
      obtain rfl := Except.ok.inj hdecoded
      obtain ⟨hpropagate, hpropagate'⟩ := hpolicy rfl
      refine ⟨_, _, convert_infinity hfields hpropagate,
        convert_infinity (fields_infinity (shape_ok destination) negative) hpropagate', ?_⟩
      exact (fields_infinity (shape_ok source) negative).unique hfields
    · rw [if_neg hF] at hdecoded
      obtain rfl := Except.ok.inj hdecoded
      dsimp only at hnan
      split at hnan
      · exact absurd rfl hnan.1
      · exact absurd rfl hnan.2
  · have hdecode := hfields.decodesTo hmax
    obtain ⟨wide, hconvert, hdecode'⟩ :=
      convert_exact policy hdecode (formatFloats_subset hwide hdecode.mem)
    obtain ⟨narrow, hconvert', hdecode''⟩ := convert_exact policy' hdecode' hdecode.mem
    exact ⟨_, _, hconvert, hconvert', hdecode''.unique hdecode⟩

/-- Encoding is correctly rounded, and a policy without rounding refuses a value that it would change;
conversion to the same format, or to a wider one and back, keeps the pattern. -/
theorem ieee_correct :
    (∀ format value policy, ∃ y y', Encodes format value policy y y') ∧
    (∀ format bits policy, bits.toNat < 2 ^ (shape format).width → policy.nonfinite = .propagate →
      policy.payload = .exact →
      ∃ decoded converted, decodeExact format bits = .ok decoded ∧
        convert format bits format policy = .ok converted ∧
        converted.bits = if decoded.category = .signalingNan then
          bits ||| (1 <<< ((shape format).fraction - 1).toUInt64) else bits) ∧
    (∀ source destination bits decoded policy policy', (shape source).width ≤ (shape destination).width →
      decodeExact source bits = .ok decoded →
      (decoded.category ≠ .quietNan ∧ decoded.category ≠ .signalingNan) →
      (decoded.category = .infinity → policy.nonfinite = .propagate ∧ policy'.nonfinite = .propagate) →
      ∃ converted converted', convert source bits destination policy = .ok converted ∧
        convert destination converted.bits source policy' = .ok converted' ∧ converted'.bits = bits) :=
  ⟨encodes, fun _ _ _ => convert_same, fun _ _ _ _ _ _ => convert_widen_narrow⟩

/-- A signaling NaN of 16 bits becomes quiet. -/
theorem ieee_correct_signaling : ∃ decoded converted, decodeExact .binary16 0x7d01 = .ok decoded ∧
    convert .binary16 0x7d01 .binary16
      { precision := .exactOnly, rounding := .towardZero, overflow := .error, nonfinite := .propagate,
        payload := .exact } = .ok converted ∧
    converted.bits = if decoded.category = .signalingNan then 0x7f01 else 0x7d01 :=
  ieee_correct.2.1 .binary16 0x7d01
    { precision := .exactOnly, rounding := .towardZero, overflow := .error, nonfinite := .propagate,
      payload := .exact } (by decide) rfl rfl

/-- Without rounding, a value that needs one bit too many is refused, within the finite range too. -/
theorem ieee_correct_refused : ¬∀ format value policy, |value.toRat| ≤ (shape format).maxFinite →
    ∃ converted, encodeFinite format value policy = .ok converted := by
  intro h
  have hsize : (⟨0x20000000000001, 0, false⟩ : BinaryValue).toRat = 9007199254740993 := by
    have hmagnitude : (0x20000000000001 : UInt64).toNat = 0x20000000000001 := rfl
    have hexponent : (0 : Int16).toInt = 0 := rfl
    rw [BinaryValue.toRat, BinaryValue.size, hmagnitude, hexponent]
    norm_num [signed]
  have hmax : (shape .binary64).maxFinite = 9007199254740991 * 2 ^ 971 := by
    norm_num [Shape.maxFinite, shape]
  have hfinite : |(⟨0x20000000000001, 0, false⟩ : BinaryValue).toRat| ≤ (shape .binary64).maxFinite := by
    have hpow : (2 : ℚ) ≤ 2 ^ 971 := le_self_pow₀ (by norm_num) (by norm_num)
    rw [hsize, hmax, abs_of_nonneg (by norm_num)]
    calc (9007199254740993 : ℚ) ≤ 9007199254740991 * 2 := by norm_num
      _ ≤ 9007199254740991 * 2 ^ 971 := mul_le_mul_of_nonneg_left hpow (by norm_num)
  obtain ⟨converted, hok⟩ := h .binary64 { magnitude := 0x20000000000001, exponent := 0, negative := false }
    { precision := .exactOnly, rounding := .nearestTiesEven, overflow := .ieeeResult, nonfinite := .propagate,
      payload := .exact } hfinite
  have herror : encodeFinite .binary64 { magnitude := 0x20000000000001, exponent := 0, negative := false }
      { precision := .exactOnly, rounding := .nearestTiesEven, overflow := .ieeeResult, nonfinite := .propagate,
        payload := .exact } = .error { code := .invalidArgument } := by decide
  rw [herror] at hok
  cases hok

end Vita.Codec.Ieee
