import Vita.Codec.IeeeSamples
import Vita.Codec.NumericRounding

/-!
# What IEEE samples mean

The rounding rules of IEEE 754 are stated for sets of numbers. A set holds the numbers with a given count
of significant bits, either from some least quantum on or for every quantum; the largest exponent of a
format does not enter before the result is known. Among two nearest numbers the one with the even
significand is taken.

Main results:
- `ieeeRounded_of_roundsTo`: rounding at the quantum of the highest bit, or at the least quantum;
- `decodeExact_fields`, `decode_finite`: what the fields of a bit pattern mean;
- `encodeRounded_of_fits`, `overflow_iff_large`: the result of an encoding, and when it overflows.
-/

namespace Vita.Codec.Ieee

open Checked Numeric UnitRounding Word64

/-! ## Numbers with a given precision -/

/-- The magnitudes with `p` significant bits, from the quantum `2 ^ q` on when `least` is `q`. -/
def FloatMagnitudes (p : ℕ) (least : Option ℤ) : Set ℚ :=
  {x | ∃ (n : ℕ) (k : ℤ), n < 2 ^ p ∧ (∀ q ∈ least, q ≤ k) ∧ x = n * 2 ^ k}

/-- The numbers with `p` significant bits. -/
def Floats (p : ℕ) (least : Option ℤ) : Set ℚ := {x | ∃ negative, signed negative x ∈ FloatMagnitudes p least}

/-- The significand of a number, with all its bits or at the least quantum, is even. -/
def EvenFloat (p : ℕ) (least : Option ℤ) (x : ℚ) : Prop :=
  ∃ (negative : Bool) (n : ℕ) (k : ℤ), n < 2 ^ p ∧ (2 ^ (p - 1) ≤ n ∨ least = some k) ∧
    (∀ q ∈ least, q ≤ k) ∧ x = signed negative (n * 2 ^ k) ∧ Even n

/-- The number that `x` is rounded to, ties to even. -/
def IeeeRounded (p : ℕ) (least : Option ℤ) (mode : Rounding) (x y : ℚ) : Prop :=
  CorrectlyRounded (Floats p least) mode x y ∧
    (mode = .nearestTiesEven → (∃ z ∈ Floats p least, z ≠ y ∧ |x - z| = |x - y|) → EvenFloat p least y)

variable {p : ℕ} {least : Option ℤ} {d : Direction} {a z : ℚ} {n : ℕ} {q : ℤ} {negative : Bool}

theorem zero_mem_floatMagnitudes : (0 : ℚ) ∈ FloatMagnitudes p least := by
  refine ⟨0, least.getD 0, Nat.two_pow_pos p, ?_, by simp⟩
  intro q hq
  rw [Option.mem_def.mp hq, Option.getD_some]

theorem floatMagnitudes_nonneg (h : a ∈ FloatMagnitudes p least) : 0 ≤ a := by
  obtain ⟨n, k, -, -, rfl⟩ := h
  exact mul_nonneg (Nat.cast_nonneg n) (two_zpow_pos k).le

/-- A magnitude is a multiple of a larger quantum, or below its full significands. -/
theorem floatMagnitudes_cases (hp : 1 ≤ p) (hfull : least = some q ∨ 2 ^ (p - 1) * 2 ^ q ≤ a)
    (hz : z ∈ FloatMagnitudes p least) :
    (∃ m : ℕ, z = m * 2 ^ q) ∨ (z < (2 ^ (p - 1) : ℕ) * 2 ^ q ∧ (2 ^ (p - 1) : ℕ) * 2 ^ q ≤ a) := by
  obtain ⟨m, k, hm, hk, rfl⟩ := hz
  by_cases hle : q ≤ k
  · obtain ⟨j, hj⟩ := Int.eq_ofNat_of_zero_le (sub_nonneg.mpr hle)
    left
    refine ⟨m * 2 ^ j, ?_⟩
    rw [show k = j + q by omega, zpow_add₀ (by norm_num), zpow_natCast]
    push_cast
    ring
  · right
    rcases hfull with rfl | hfull
    · exact absurd (hk q rfl) hle
    · refine ⟨?_, by push_cast; exact hfull⟩
      have hpow : (2 : ℚ) ^ k * 2 ≤ 2 ^ q := by
        rw [← zpow_add_one₀ (by norm_num)]
        exact zpow_le_zpow_right₀ (by norm_num) (by omega)
      have hm' : (m : ℚ) < 2 ^ (p - 1) * 2 := by
        rw [← pow_succ, Nat.sub_add_cancel hp]
        exact_mod_cast hm
      push_cast
      calc (m : ℚ) * 2 ^ k < 2 ^ (p - 1) * 2 * 2 ^ k := mul_lt_mul_of_pos_right hm' (two_zpow_pos k)
        _ = 2 ^ (p - 1) * (2 ^ k * 2) := by ring
        _ ≤ 2 ^ (p - 1) * 2 ^ q := mul_le_mul_of_nonneg_left hpow (by positivity)

/-- A significand that is one too large is half of it at the next quantum. -/
theorem rounded_mem (hp : 1 ≤ p) (hleast : ∀ q' ∈ least, q' ≤ q) (hn : n ≤ 2 ^ p) :
    (n : ℚ) * 2 ^ q ∈ FloatMagnitudes p least := by
  rcases Nat.lt_or_eq_of_le hn with hlt | rfl
  · exact ⟨n, q, hlt, hleast, rfl⟩
  · refine ⟨2 ^ (p - 1), q + 1, Nat.pow_lt_pow_right (by decide) (by omega), ?_, ?_⟩
    · intro q' hq'
      have := hleast q' hq'
      omega
    · rw [zpow_add_one₀ (by norm_num)]
      push_cast
      rw [show (2 : ℚ) ^ p = 2 ^ (p - 1) * 2 by rw [← pow_succ, Nat.sub_add_cancel hp]]
      ring

theorem best_floatMagnitudes (hp : 1 ≤ p) (hrounds : RoundsTo d a (2 ^ q) n)
    (hleast : ∀ q' ∈ least, q' ≤ q) (hn : n ≤ 2 ^ p) (hfull : least = some q ∨ 2 ^ (p - 1) * 2 ^ q ≤ a) :
    Best d (FloatMagnitudes p least) a (n * 2 ^ q) := by
  refine ⟨rounded_mem hp hleast hn, hrounds.side, fun z hz => ?_⟩
  rcases floatMagnitudes_cases hp hfull hz with ⟨m, rfl⟩ | ⟨hlt, hle⟩
  · exact hrounds.closer_multiple (two_zpow_pos q) m
  · exact hrounds.closer_below (two_zpow_pos q) hlt.le hle

/-- The sign does not decide whether a magnitude is a float. -/
theorem signed_mem_floats : signed negative a ∈ Floats p least ↔ a ∈ Floats p least := by
  constructor
  · rintro ⟨other, h⟩
    cases negative <;> cases other
    · exact ⟨false, h⟩
    · exact ⟨true, h⟩
    · exact ⟨true, h⟩
    · exact ⟨false, by simpa [signed] using h⟩
  · rintro ⟨other, h⟩
    cases negative <;> cases other
    · exact ⟨false, h⟩
    · exact ⟨true, h⟩
    · exact ⟨true, by simpa [signed] using h⟩
    · exact ⟨false, h⟩

theorem floats_cases (h : z ∈ Floats p least) : z ∈ FloatMagnitudes p least ∨ z ≤ 0 := by
  obtain ⟨negative, hz⟩ := h
  cases negative with
  | false => exact .inl hz
  | true =>
    have : 0 ≤ -z := floatMagnitudes_nonneg hz
    exact .inr (by linarith)

/-- A tie leaves half a unit. -/
theorem even_of_tie (hp : 1 ≤ p) (ha : 0 ≤ a) (hrounds : RoundsTo .nearest a (2 ^ q) n)
    (hfull : least = some q ∨ 2 ^ (p - 1) * 2 ^ q ≤ a) (hz : z ∈ Floats p least) (hne : z ≠ n * 2 ^ q)
    (htie : |a - z| = |a - n * 2 ^ q|) : Even n := by
  have hu := two_zpow_pos q
  have hclosest := hrounds.closer_multiple hu
  rcases hrounds with hstrict | ⟨-, heven⟩
  · exfalso
    have hmultiple : ∀ m : ℕ, (m : ℚ) * 2 ^ q ≠ n * 2 ^ q → |a - n * 2 ^ q| < |a - m * 2 ^ q| := by
      intro m hm
      have hmn : m ≠ n := fun h => hm (by rw [h])
      have h1 := neg_abs_le (a - n * 2 ^ q)
      have h2 := le_abs_self (a - n * 2 ^ q)
      rcases Nat.lt_or_gt_of_ne hmn with hlt | hgt
      · have hstep : ((m + 1 : ℕ) : ℚ) * 2 ^ q ≤ n * 2 ^ q :=
          mul_le_mul_of_nonneg_right (by exact_mod_cast hlt) hu.le
        push_cast at hstep
        have := le_abs_self (a - m * 2 ^ q)
        linarith
      · have hstep : ((n + 1 : ℕ) : ℚ) * 2 ^ q ≤ m * 2 ^ q :=
          mul_le_mul_of_nonneg_right (by exact_mod_cast hgt) hu.le
        push_cast at hstep
        have := neg_abs_le (a - m * 2 ^ q)
        linarith
    rcases floats_cases hz with hmag | hneg
    · rcases floatMagnitudes_cases hp hfull hmag with ⟨m, rfl⟩ | ⟨hlt, hle⟩
      · exact (hmultiple m hne).ne htie.symm
      · -- A number below the full significands is further away than the least of them.
        have hclose : |a - n * 2 ^ q| ≤ |a - (2 ^ (p - 1) : ℕ) * 2 ^ q| := hclosest (2 ^ (p - 1))
        rw [abs_of_nonneg (sub_nonneg.mpr hle)] at hclose
        have := le_abs_self (a - z)
        linarith
    · have hzero : |a - n * 2 ^ q| ≤ |a - (0 : ℕ) * 2 ^ q| := hclosest 0
      rw [Nat.cast_zero, zero_mul, sub_zero, abs_of_nonneg ha] at hzero
      rw [abs_of_nonneg (by linarith)] at htie
      have hz0 : z = 0 := by linarith
      refine (hmultiple 0 ?_).ne ?_
      · rw [Nat.cast_zero, zero_mul, ← hz0]
        exact hne
      · rw [Nat.cast_zero, zero_mul, ← hz0, htie.symm, abs_of_nonneg (by linarith)]
  · exact heven

/-- A magnitude that is rounded at the quantum of its highest bit, or at the least quantum, is rounded as
IEEE 754 asks. -/
theorem ieeeRounded_of_roundsTo {mode : Rounding} (hp : 2 ≤ p) (ha : 0 < a)
    (hrounds : RoundsTo (mode.direction negative) a (2 ^ q) n) (hleast : ∀ q' ∈ least, q' ≤ q)
    (hn : n ≤ 2 ^ p) (hfull : least = some q ∨ 2 ^ (p - 1) * 2 ^ q ≤ a) :
    IeeeRounded p least mode (signed negative a) (signed negative (n * 2 ^ q)) := by
  have hp1 : 1 ≤ p := by omega
  have hmem : (n : ℚ) * 2 ^ q ∈ FloatMagnitudes p least := rounded_mem hp1 hleast hn
  refine ⟨?_, ?_⟩
  · refine correctlyRounded_of_best ha.le (fun _ => ha.ne') ?_
    refine (best_floatMagnitudes hp1 hrounds hleast hn hfull).extend zero_mem_floatMagnitudes ha.le
      (floatMagnitudes_nonneg hmem) ?_ ?_
    · exact signed_mem_floats.mpr ⟨false, hmem⟩
    · intro z hz
      exact floats_cases (signed_mem_floats.mp hz)
  · rintro rfl ⟨z, hz, hne, htie⟩
    have heven : Even n := by
      refine even_of_tie hp1 ha.le hrounds hfull (signed_mem_floats.mpr hz : signed negative z ∈ _) ?_ ?_
      · intro heq
        exact hne (by rw [← heq, signed_signed])
      · cases negative with
        | false => exact htie
        | true =>
          simp only [signed, if_true] at htie ⊢
          rw [show a - -z = -(-a - z) by ring, abs_neg, htie, show -a - -(n * 2 ^ q) = -(a - n * 2 ^ q) by ring,
            abs_neg]
    rcases Nat.lt_or_eq_of_le hn with hlt | rfl
    · refine ⟨negative, n, q, hlt, ?_, hleast, rfl, heven⟩
      rcases hfull with hfull | hfull
      · exact .inr hfull
      · left
        refine hrounds.ge_of_ge (two_zpow_pos q) ?_
        push_cast
        exact hfull
    · refine ⟨negative, 2 ^ (p - 1), q + 1, Nat.pow_lt_pow_right (by decide) (by omega),
        .inl (Nat.le_refl _), ?_, ?_, ?_⟩
      · intro q' hq'
        have := hleast q' hq'
        omega
      · congr 1
        rw [zpow_add_one₀ (by norm_num)]
        push_cast
        rw [show (2 : ℚ) ^ p = 2 ^ (p - 1) * 2 by rw [← pow_succ, Nat.sub_add_cancel hp1]]
        ring
      · rw [show p - 1 = p - 2 + 1 by omega, Nat.pow_succ]
        exact even_two.mul_left _

/-! ## Bit patterns -/

/-- What the three formats share. -/
structure Shape.Ok (s : Shape) : Prop where
  width_eq : s.width = s.exponent + s.fraction + 1
  fraction_ge : 2 ≤ s.fraction
  fraction_le : s.fraction ≤ 52
  exponent_ge : 2 ≤ s.exponent
  exponent_le : s.exponent ≤ 11
  bias_eq : s.bias + 1 = 2 ^ (s.exponent - 1)

theorem shape_ok (format : Format) : (shape format).Ok := by
  cases format <;> exact ⟨by decide, by decide, by decide, by decide, by decide, by decide⟩

/-- The fields of a bit pattern. -/
structure Fields (s : Shape) (bits : UInt64) (negative : Bool) (E F : ℕ) : Prop where
  exponent_lt : E < 2 ^ s.exponent
  fraction_lt : F < 2 ^ s.fraction
  bits_eq : bits.toNat = negative.toNat * 2 ^ (s.exponent + s.fraction) + (E * 2 ^ s.fraction + F)

variable {s : Shape} {bits : UInt64} {E F : ℕ}

theorem Fields.low_lt (h : Fields s bits negative E F) :
    E * 2 ^ s.fraction + F < 2 ^ (s.exponent + s.fraction) := by
  have := Nat.mul_le_mul_right (2 ^ s.fraction) (Nat.succ_le_of_lt h.exponent_lt)
  rw [← Nat.pow_add, Nat.succ_mul] at this
  have := h.fraction_lt
  omega

/-- Every pattern has a sign, an exponent and a fraction. -/
theorem exists_fields (hs : s.Ok) (hbits : bits.toNat < 2 ^ s.width) : ∃ negative E F, Fields s bits negative E F := by
  have hlow := Nat.two_pow_pos (s.exponent + s.fraction)
  have hf := Nat.two_pow_pos s.fraction
  have hrem := Nat.mod_lt bits.toNat hlow
  rw [hs.width_eq, Nat.pow_succ] at hbits
  have hsign : bits.toNat / 2 ^ (s.exponent + s.fraction) < 2 := Nat.div_lt_of_lt_mul hbits
  refine ⟨decide (bits.toNat / 2 ^ (s.exponent + s.fraction) = 1),
    bits.toNat % 2 ^ (s.exponent + s.fraction) / 2 ^ s.fraction,
    bits.toNat % 2 ^ (s.exponent + s.fraction) % 2 ^ s.fraction, ?_, Nat.mod_lt _ hf, ?_⟩
  · exact Nat.div_lt_of_lt_mul (by rwa [← Nat.pow_add, Nat.add_comm s.fraction])
  · rw [Nat.div_add_mod']
    have hbit : (decide (bits.toNat / 2 ^ (s.exponent + s.fraction) = 1)).toNat =
        bits.toNat / 2 ^ (s.exponent + s.fraction) := by
      rcases Nat.lt_or_ge (bits.toNat / 2 ^ (s.exponent + s.fraction)) 1 with h0 | h1
      · rw [Nat.lt_one_iff.mp h0]
        rfl
      · rw [show bits.toNat / 2 ^ (s.exponent + s.fraction) = 1 by omega]
        rfl
    rw [hbit, Nat.div_add_mod']

/-- The fields are what the code takes from the pattern. -/
theorem Fields.read (hs : s.Ok) (h : Fields s bits negative E F) :
    bits.toNat < 2 ^ s.width ∧ (bits >>> (s.width - 1).toUInt64).toNat = negative.toNat ∧
      (bits &&& mask s.fraction).toNat = F ∧
      ((bits >>> s.fraction.toUInt64) &&& mask s.exponent).toNat = E := by
  have hf52 := hs.fraction_le
  have he11 := hs.exponent_le
  have hlow := h.low_lt
  have hneg : negative.toNat ≤ 1 := Bool.toNat_le negative
  have hfpos := Nat.two_pow_pos s.fraction
  have hsplit : 2 ^ (s.exponent + s.fraction) = 2 ^ s.fraction * 2 ^ s.exponent := by
    rw [← Nat.pow_add, Nat.add_comm]
  refine ⟨?_, ?_, ?_, ?_⟩
  · rw [hs.width_eq, Nat.pow_succ, h.bits_eq]
    have := Nat.mul_le_mul_right (2 ^ (s.exponent + s.fraction)) hneg
    omega
  · rw [hs.width_eq, Nat.add_sub_cancel, toNat_shiftRight (by omega), h.bits_eq, Nat.mul_comm,
      Nat.mul_add_div (Nat.two_pow_pos _), Nat.div_eq_of_lt hlow, Nat.add_zero]
  · rw [toNat_and_mask (toNat_mask (by omega)), h.bits_eq, hsplit,
      show negative.toNat * (2 ^ s.fraction * 2 ^ s.exponent) + (E * 2 ^ s.fraction + F) =
        2 ^ s.fraction * (negative.toNat * 2 ^ s.exponent + E) + F by ring,
      Nat.mul_add_mod, Nat.mod_eq_of_lt h.fraction_lt]
  · rw [toNat_and_mask (toNat_mask (by omega)), toNat_shiftRight (by omega), h.bits_eq, hsplit,
      show negative.toNat * (2 ^ s.fraction * 2 ^ s.exponent) + (E * 2 ^ s.fraction + F) =
        2 ^ s.fraction * (2 ^ s.exponent * negative.toNat + E) + F by ring,
      Nat.mul_add_div hfpos, Nat.div_eq_of_lt h.fraction_lt, Nat.add_zero, Nat.mul_add_mod,
      Nat.mod_eq_of_lt h.exponent_lt]

/-- A sign over a magnitude. -/
theorem toNat_signBit_or (hs : s.Ok) (negative : Bool) {x : UInt64}
    (hx : x.toNat < 2 ^ (s.exponent + s.fraction)) :
    (signBit s negative ||| x).toNat = negative.toNat * 2 ^ (s.exponent + s.fraction) + x.toNat := by
  have hf52 := hs.fraction_le
  have he11 := hs.exponent_le
  have hone : negative.toUInt64.toNat = negative.toNat := by cases negative <;> rfl
  have hword : 2 ^ (s.exponent + s.fraction) ≤ 2 ^ 63 := Nat.pow_le_pow_right (by decide) (by omega)
  have hneg : negative.toNat ≤ 1 := Bool.toNat_le negative
  rw [signBit, hs.width_eq, Nat.add_sub_cancel, toNat_shiftLeft_or (by omega) ?_ hx, hone]
  rw [hone]
  have := Nat.mul_le_mul_right (2 ^ (s.exponent + s.fraction)) hneg
  omega

/-- A pattern put together from its fields. -/
theorem fields_assemble (hs : s.Ok) (negative : Bool) {exponent fraction : UInt64} (hE : exponent.toNat = E)
    (hF : fraction.toNat = F) (hE' : E < 2 ^ s.exponent) (hF' : F < 2 ^ s.fraction) :
    Fields s (signBit s negative ||| (exponent <<< s.fraction.toUInt64) ||| fraction) negative E F := by
  have hf52 := hs.fraction_le
  have he11 := hs.exponent_le
  have hlow : E * 2 ^ s.fraction + F < 2 ^ (s.exponent + s.fraction) := by
    have := Nat.mul_le_mul_right (2 ^ s.fraction) (Nat.succ_le_of_lt hE')
    rw [← Nat.pow_add, Nat.succ_mul] at this
    omega
  have hword : 2 ^ (s.exponent + s.fraction) ≤ 2 ^ 63 := Nat.pow_le_pow_right (by decide) (by omega)
  have hparts : ((exponent <<< s.fraction.toUInt64) ||| fraction).toNat = E * 2 ^ s.fraction + F := by
    rw [toNat_shiftLeft_or (by omega) (by rw [hE]; omega) (by rwa [hF]), hE, hF]
  refine ⟨hE', hF', ?_⟩
  rw [UInt64.or_assoc, toNat_signBit_or hs negative (by rwa [hparts]), hparts]

/-- The fields determine the pattern. -/
theorem Fields.unique {bits' : UInt64} (h : Fields s bits negative E F) (h' : Fields s bits' negative E F) :
    bits = bits' := UInt64.toNat_inj.mp (h.bits_eq.trans h'.bits_eq.symm)

/-! ## Decoding -/

/-- The significand, with its hidden bit. -/
def significand (s : Shape) (E F : ℕ) : ℕ := if E = 0 then F else F + 2 ^ s.fraction

/-- The exponent of the last bit. -/
def lastBit (s : Shape) (E : ℕ) : ℤ := (if E = 0 then 1 else (E : ℤ)) - s.bias - s.fraction

/-- The magnitude of a finite pattern. -/
def magnitudeOf (s : Shape) (E F : ℕ) : ℚ := significand s E F * 2 ^ lastBit s E

/-- The value that is not used when a pattern is not finite. -/
def noValue : BinaryValue := { magnitude := 0, exponent := 0, negative := false }

theorem lastBit_bounds (hs : s.Ok) (hE : E < 2 ^ s.exponent) :
    -2100 ≤ lastBit s E ∧ lastBit s E ≤ 2100 := by
  have hf52 := hs.fraction_le
  have hbias := hs.bias_eq
  have hpow : (2 : ℤ) ^ (s.exponent - 1) ≤ 2 ^ 10 :=
    pow_le_pow_right₀ (by norm_num) (by have := hs.exponent_le; omega)
  have hpos : (0 : ℤ) < 2 ^ (s.exponent - 1) := by positivity
  have hE11 : (2 : ℕ) ^ s.exponent ≤ 2 ^ 11 := Nat.pow_le_pow_right (by decide) hs.exponent_le
  unfold lastBit
  split <;> omega

theorem significand_lt (hF : F < 2 ^ s.fraction) : significand s E F < 2 ^ (s.fraction + 1) := by
  unfold significand
  rw [Nat.pow_succ]
  split <;> omega

/-- Decoding, by the fields. -/
theorem decodeExact_fields {format : Format} (h : Fields (shape format) bits negative E F) :
    decodeExact format bits =
      if E = 2 ^ (shape format).exponent - 1 then
        if F = 0 then
          .ok { category := .infinity, negative, finite := noValue, payload := 0, payloadBits := 0 }
        else
          .ok { category := if 2 ^ ((shape format).fraction - 1) ≤ F then .quietNan else .signalingNan,
                negative, finite := noValue, payload := (F % 2 ^ ((shape format).fraction - 1)).toUInt64,
                payloadBits := (shape format).fraction - 1 }
      else if E ≠ 0 ∨ F ≠ 0 then
        .ok { category := .finite, negative, finite := canonical
                { magnitude := (significand (shape format) E F).toUInt64,
                  exponent := .ofInt (lastBit (shape format) E), negative },
              payload := 0, payloadBits := 0 }
      else .ok { category := .zero, negative, finite := noValue, payload := 0, payloadBits := 0 } := by
  have hs := shape_ok format
  have hf2 := hs.fraction_ge
  have hf52 := hs.fraction_le
  have he11 := hs.exponent_le
  obtain ⟨hwidth, hsign, hfraction, hexponent⟩ := h.read hs
  have hF := h.fraction_lt
  unfold decodeExact
  dsimp only
  rw [rejectIf_of_not (not_not.mpr ((and_not_mask_eq_zero (by rw [hs.width_eq]; omega)
    (toNat_mask (by rw [hs.width_eq]; omega))).mpr hwidth)), ok_bind]
  have hnegative : decide (bits >>> ((shape format).width - 1).toUInt64 ≠ 0) = negative := by
    rw [Bool.eq_iff_iff, decide_eq_true_iff, Ne, ← UInt64.toNat_inj, hsign]
    cases negative <;> simp
  rw [hnegative]
  generalize hfrac : bits &&& mask (shape format).fraction = fraction at hfraction
  generalize hexp : (bits >>> (shape format).fraction.toUInt64) &&& mask (shape format).exponent = exponent
    at hexponent
  generalize hshape : shape format = s at *
  have hmax : exponent = mask s.exponent ↔ E = 2 ^ s.exponent - 1 := by
    rw [← UInt64.toNat_inj, hexponent, toNat_mask (by omega)]
  have hF0 : fraction = 0 ↔ F = 0 := by
    rw [← UInt64.toNat_inj, hfraction]
    rfl
  have hE0 : exponent = 0 ↔ E = 0 := by
    rw [← UInt64.toNat_inj, hexponent]
    rfl
  by_cases hinf : E = 2 ^ s.exponent - 1
  · rw [if_pos (hmax.mpr hinf), if_pos hinf]
    by_cases hzero : F = 0
    · rw [if_pos (hF0.mpr hzero), if_pos hzero]
      rfl
    · rw [if_neg (fun h => hzero (hF0.mp h)), if_neg hzero]
      have hquiet : fraction &&& (1 <<< (s.fraction - 1).toUInt64) ≠ 0 ↔ 2 ^ (s.fraction - 1) ≤ F := by
        rw [and_bit_ne_zero (by omega) (by rwa [hfraction, Nat.sub_add_cancel (by omega)]), hfraction]
      have hpayload : fraction &&& mask (s.fraction - 1) = (F % 2 ^ (s.fraction - 1)).toUInt64 := by
        have hword : 2 ^ s.fraction ≤ 2 ^ 52 := Nat.pow_le_pow_right (by decide) hf52
        have := Nat.mod_le F (2 ^ (s.fraction - 1))
        rw [← UInt64.toNat_inj, toNat_and_mask (toNat_mask (by omega)), hfraction, toNat_toUInt64 (by omega)]
      rw [hpayload]
      by_cases hq : 2 ^ (s.fraction - 1) ≤ F
      · rw [if_pos (hquiet.mpr hq), if_pos hq]
        rfl
      · rw [if_neg (fun h => hq (hquiet.mp h)), if_neg hq]
        rfl
  · rw [if_neg (fun h => hinf (hmax.mp h)), if_neg hinf]
    by_cases hnonzero : E ≠ 0 ∨ F ≠ 0
    · rw [if_pos (by rwa [Ne, Ne, hE0, hF0]), if_pos hnonzero]
      have hmagnitude : (fraction ||| if exponent ≠ 0 then 1 <<< s.fraction.toUInt64 else 0) =
          (significand s E F).toUInt64 := by
        have hword : 2 ^ (s.fraction + 1) ≤ 2 ^ 53 := Nat.pow_le_pow_right (by decide) (by omega)
        have hlt : significand s E F < 2 ^ (s.fraction + 1) := significand_lt hF
        rw [← UInt64.toNat_inj, toNat_toUInt64 (by omega)]
        unfold significand
        by_cases hsub : E = 0
        · rw [if_neg (not_not.mpr (hE0.mpr hsub)), if_pos hsub, UInt64.or_zero, hfraction]
        · rw [if_pos (fun h => hsub (hE0.mp h)), if_neg hsub, UInt64.toNat_or, toNat_one_shiftLeft (by omega),
            hfraction, Nat.or_comm]
          have := Nat.two_pow_add_eq_or_of_lt hF 1
          rw [Nat.mul_one] at this
          omega
      have hlast : (if exponent ≠ 0 then (exponent.toNat : ℤ) else 1) - s.bias - s.fraction = lastBit s E := by
        unfold lastBit
        by_cases hsub : E = 0
        · rw [if_neg (not_not.mpr (hE0.mpr hsub)), if_pos hsub]
        · rw [if_pos (fun h => hsub (hE0.mp h)), if_neg hsub, hexponent]
      rw [hmagnitude, hlast]
      rfl
    · rw [if_neg (by rwa [Ne, Ne, hE0, hF0]), if_neg hnonzero]
      rfl

/-- The value of a finite pattern. -/
theorem decode_finite {format : Format} (h : Fields (shape format) bits negative E F)
    (hfinite : E ≠ 2 ^ (shape format).exponent - 1) :
    ∃ v, decodeExact format bits = .ok
        { category := if E ≠ 0 ∨ F ≠ 0 then .finite else .zero, negative, finite := v, payload := 0,
          payloadBits := 0 } ∧
      v.toRat = signed negative (magnitudeOf (shape format) E F) ∧
      ((E ≠ 0 ∨ F ≠ 0) → v.negative = negative) := by
  have hs := shape_ok format
  rw [decodeExact_fields h, if_neg hfinite]
  split
  next hnonzero =>
    have hlt : significand (shape format) E F < 2 ^ ((shape format).fraction + 1) := significand_lt h.fraction_lt
    have hword : 2 ^ ((shape format).fraction + 1) ≤ 2 ^ 53 :=
      Nat.pow_le_pow_right (by decide) (by have := hs.fraction_le; omega)
    have hbounds := lastBit_bounds hs h.exponent_lt
    have hlast : (Int16.ofInt (lastBit (shape format) E)).toInt = lastBit (shape format) E :=
      Int16.toInt_ofInt_of_small (by omega) (by omega)
    have hsmall : (Int16.ofInt (lastBit (shape format) E)).toInt ≤ 32767 - 64 := by
      rw [hlast]
      omega
    have hpos : (significand (shape format) E F).toUInt64 ≠ 0 := by
      intro hzero
      have hnat := congrArg UInt64.toNat hzero
      rw [toNat_toUInt64 (by omega), UInt64.toNat_zero] at hnat
      have := Nat.two_pow_pos (shape format).fraction
      unfold significand at hnat
      split at hnat <;> omega
    obtain ⟨w, hw, hsize, -, hsign⟩ := canonicalize_spec (v :=
      { magnitude := (significand (shape format) E F).toUInt64,
        exponent := .ofInt (lastBit (shape format) E), negative }) hsmall
    have hnegative := (hsign hpos).1
    refine ⟨w, ?_, ?_, fun _ => hnegative⟩
    · rw [canonical, hw]
    · rw [BinaryValue.toRat, hnegative, hsize, BinaryValue.size, toNat_toUInt64 (by omega), hlast]
      rfl
  next hzero =>
    refine ⟨noValue, rfl, ?_, fun hnonzero => absurd hnonzero hzero⟩
    rw [not_or, not_not, not_not] at hzero
    rw [magnitudeOf, significand, if_pos hzero.1, hzero.2, Nat.cast_zero, zero_mul, signed_zero]
    simp [BinaryValue.toRat, BinaryValue.size, noValue, signed]

/-- Finite patterns of one sign are ordered as their fields. -/
theorem magnitudeOf_lt {E' F' : ℕ} (hF : F < 2 ^ s.fraction) (hE : E < E') :
    magnitudeOf s E F < magnitudeOf s E' F' := by
  have hlast : lastBit s E ≤ lastBit s E' := by
    unfold lastBit
    split <;> split <;> omega
  have hpow := zpow_le_zpow_right₀ (show (1 : ℚ) ≤ 2 by norm_num) hlast
  have hsig' : 2 ^ s.fraction ≤ significand s E' F' := by
    rw [significand, if_neg (by omega)]
    omega
  unfold magnitudeOf
  by_cases hsub : E = 0
  · have hsig : significand s E F < 2 ^ s.fraction := by
      rw [significand, if_pos hsub]
      exact hF
    have hlt : (significand s E F : ℚ) < significand s E' F' := by exact_mod_cast hsig.trans_le hsig'
    calc (significand s E F : ℚ) * 2 ^ lastBit s E < significand s E' F' * 2 ^ lastBit s E :=
          mul_lt_mul_of_pos_right hlt (two_zpow_pos _)
      _ ≤ significand s E' F' * 2 ^ lastBit s E' := mul_le_mul_of_nonneg_left hpow (Nat.cast_nonneg _)
  · -- One binade higher the last bit counts at least twice.
    have hdouble : (2 : ℚ) * 2 ^ lastBit s E ≤ 2 ^ lastBit s E' := by
      rw [mul_comm, ← zpow_add_one₀ (by norm_num)]
      refine zpow_le_zpow_right₀ (by norm_num) ?_
      unfold lastBit
      rw [if_neg hsub, if_neg (by omega)]
      omega
    have hsig : (significand s E F : ℚ) < 2 * 2 ^ s.fraction := by
      have := significand_lt (E := E) hF
      rw [Nat.pow_succ] at this
      rw [mul_comm]
      exact_mod_cast this
    calc (significand s E F : ℚ) * 2 ^ lastBit s E < 2 * 2 ^ s.fraction * 2 ^ lastBit s E :=
          mul_lt_mul_of_pos_right hsig (two_zpow_pos _)
      _ = 2 ^ s.fraction * (2 * 2 ^ lastBit s E) := by ring
      _ ≤ 2 ^ s.fraction * 2 ^ lastBit s E' := mul_le_mul_of_nonneg_left hdouble (by positivity)
      _ ≤ significand s E' F' * 2 ^ lastBit s E' :=
          mul_le_mul_of_nonneg_right (by exact_mod_cast hsig') (two_zpow_pos _).le

/-- The magnitude determines the fields. -/
theorem magnitudeOf_inj {E' F' : ℕ} (hF : F < 2 ^ s.fraction) (hF' : F' < 2 ^ s.fraction)
    (h : magnitudeOf s E F = magnitudeOf s E' F') : E = E' ∧ F = F' := by
  rcases Nat.lt_trichotomy E E' with hlt | rfl | hgt
  · exact absurd h (magnitudeOf_lt hF hlt).ne
  · refine ⟨rfl, ?_⟩
    have hsig : significand s E F = significand s E F' := by
      exact_mod_cast mul_right_cancel₀ (two_zpow_pos _).ne' h
    unfold significand at hsig
    split at hsig <;> omega
  · exact absurd h (magnitudeOf_lt hF' hgt).ne'

/-! ## Encoding -/

/-- The exponent of the least quantum. -/
def Shape.leastQuantum (s : Shape) : ℤ := 1 - s.bias - s.fraction

/-- The largest finite magnitude. -/
def Shape.maxFinite (s : Shape) : ℚ := (2 ^ (s.fraction + 1) - 1) * 2 ^ (s.bias - s.fraction)

/-- The least magnitude with a full significand. -/
def Shape.minNormal (s : Shape) : ℚ := 2 ^ (1 - s.bias)

variable {value : BinaryValue} {mode : Rounding}

/-- Rounding, where the result fits. -/
theorem round_spec (mode : Rounding) (h0 : value.magnitude ≠ 0)
    (hfit : 0 ≤ value.exponent.toInt - q → bitWidth value.magnitude + (value.exponent.toInt - q) ≤ 64) :
    ∃ n, RoundsTo (mode.direction value.negative) value.size (2 ^ q) n ∧
      (round value q mode).integer.toNat = n ∧ (round value q mode).inexact = decide (value.size ≠ n * 2 ^ q) := by
  obtain ⟨n, hn⟩ := quantize_spec value q mode
  have hwidth := bitWidth_spec h0
  -- Where the result fits, this is quantization.
  have hquantize : quantize value q mode =
      { magnitude := (round value q mode).integer, residue := (round value q mode).inexact, overflow := false } := by
    unfold quantize round
    dsimp only
    rw [if_neg h0]
    by_cases hshift : value.exponent.toInt - q ≥ 0
    · have := hfit hshift
      rw [if_pos hshift, if_neg (by omega), if_pos hshift]
    · rw [if_neg hshift, if_neg hshift, if_neg]
      rintro ⟨-, hmax⟩
      split at hmax
      · exact absurd hmax (by decide)
      next hlt =>
        have hnat := congrArg UInt64.toNat hmax
        rw [toNat_shiftRight (by omega), show (0xffffffffffffffff : UInt64).toNat = 2 ^ 64 - 1 from rfl] at hnat
        have hhalf : value.magnitude.toNat / 2 ^ (-(value.exponent.toInt - q)).toNat ≤
            value.magnitude.toNat / 2 ^ 1 :=
          Nat.div_le_div_left (Nat.pow_le_pow_right (by decide) (by omega)) (by decide)
        have := value.magnitude.toNat_lt
        omega
  have hlt : n < 2 ^ 64 := by
    by_contra hbig
    have := hn.overflow (by omega)
    rw [hquantize] at this
    cases this
  have heq := hn.fits hlt
  rw [hquantize, Quantized.mk.injEq] at heq
  refine ⟨n, hn.rounds, ?_, heq.2.1⟩
  rw [heq.1, toNat_toUInt64 hlt]

/-- The position of the highest bit. -/
def highest (value : BinaryValue) : ℤ := value.exponent.toInt + bitWidth value.magnitude - 1

theorem size_highest (h0 : value.magnitude ≠ 0) :
    (2 : ℚ) ^ highest value ≤ value.size ∧ value.size < 2 ^ (highest value + 1) := by
  have h := BinaryValue.size_bounds h0
  rw [highest, sub_add_cancel]
  exact h

/-- A magnitude rounded at some quantum below its highest bit. -/
theorem rounded_le (h0 : value.magnitude ≠ 0) (hq : highest value ≤ q + s.fraction)
    (hrounds : RoundsTo d value.size (2 ^ q) n) : n ≤ 2 ^ (s.fraction + 1) := by
  refine hrounds.le_of_le (two_zpow_pos q) ?_
  refine (size_highest h0).2.le.trans ?_
  push_cast
  rw [← zpow_natCast, ← zpow_add₀ (by norm_num)]
  exact zpow_le_zpow_right₀ (by norm_num) (by push_cast; omega)

theorem full_le (h0 : value.magnitude ≠ 0) (hq : q + s.fraction ≤ highest value) :
    (2 : ℚ) ^ (s.fraction + 1 - 1) * 2 ^ q ≤ value.size := by
  refine le_trans ?_ (size_highest h0).1
  rw [Nat.add_sub_cancel, ← zpow_natCast, ← zpow_add₀ (by norm_num)]
  exact zpow_le_zpow_right₀ (by norm_num) (by omega)

/-- The exponent that a value is encoded with, before rounding. -/
def binade (s : Shape) (value : BinaryValue) : ℤ :=
  if highest value < 1 - s.bias then 1 - s.bias else highest value

/-- The quantum that a value is rounded at. -/
def encodeQuantum (s : Shape) (value : BinaryValue) : ℤ := binade s value - s.fraction

theorem highest_le_binade (s : Shape) (value : BinaryValue) : highest value ≤ binade s value := by
  unfold binade
  split <;> omega

/-- Below the least exponent there is at most one full significand. -/
theorem rounded_le_of_low (h0 : value.magnitude ≠ 0) (hlow : highest value < 1 - s.bias)
    (hrounds : RoundsTo d value.size (2 ^ encodeQuantum s value) n) : n ≤ 2 ^ s.fraction := by
  refine hrounds.le_of_le (two_zpow_pos _) ((size_highest h0).2.le.trans ?_)
  push_cast
  rw [← zpow_natCast, ← zpow_add₀ (by norm_num), encodeQuantum, binade, if_pos hlow]
  exact zpow_le_zpow_right₀ (by norm_num) (by omega)

/-- From the least exponent on all significands are full. -/
theorem full_le_rounded (h0 : value.magnitude ≠ 0) (hhigh : ¬highest value < 1 - s.bias)
    (hrounds : RoundsTo d value.size (2 ^ encodeQuantum s value) n) : 2 ^ s.fraction ≤ n := by
  refine hrounds.ge_of_ge (two_zpow_pos _) (le_trans ?_ (size_highest h0).1)
  push_cast
  rw [← zpow_natCast, ← zpow_add₀ (by norm_num), encodeQuantum, binade, if_neg hhigh]
  exact zpow_le_zpow_right₀ (by norm_num) (by omega)

theorem round_fits (hs : s.Ok) (hq : highest value ≤ q + s.fraction) :
    0 ≤ value.exponent.toInt - q → bitWidth value.magnitude + (value.exponent.toInt - q) ≤ 64 := by
  have := hs.fraction_le
  unfold highest at hq
  omega

/-- A rounded significand with its exponent, as fields. -/
theorem exists_fields_of_rounded (hs : s.Ok) (h0 : value.magnitude ≠ 0)
    (hrounds : RoundsTo d value.size (2 ^ encodeQuantum s value) n) (htop : highest value ≤ s.bias)
    (hcarry : n = 2 ^ (s.fraction + 1) → highest value + 1 ≤ s.bias) :
    let significand' := if n = 2 ^ (s.fraction + 1) then 2 ^ s.fraction else n
    let top := if n = 2 ^ (s.fraction + 1) then highest value + 1 else highest value
    let E := if 2 ^ s.fraction ≤ significand' then
      ((if top < 1 - s.bias then 1 - s.bias else top) + s.bias).toNat else 0
    E < 2 ^ s.exponent - 1 ∧ magnitudeOf s E (significand' % 2 ^ s.fraction) = n * 2 ^ encodeQuantum s value := by
  intro significand' top E
  have hle : n ≤ 2 ^ (s.fraction + 1) := rounded_le h0 (by
    unfold encodeQuantum
    have := highest_le_binade s value
    omega) hrounds
  have hhalf : 2 ^ s.exponent = 2 * 2 ^ (s.exponent - 1) := by
    rw [← Nat.pow_succ', Nat.succ_eq_add_one, Nat.sub_add_cancel (by have := hs.exponent_ge; omega)]
  have hbias : s.bias + 1 = ((2 ^ (s.exponent - 1) : ℕ) : ℤ) := by
    rw [hs.bias_eq]
    push_cast
    rfl
  have hbias2 : 2 ≤ 2 ^ (s.exponent - 1) := by
    calc 2 = 2 ^ 1 := rfl
      _ ≤ 2 ^ (s.exponent - 1) := Nat.pow_le_pow_right (by decide) (by have := hs.exponent_ge; omega)
  have hfpos := Nat.two_pow_pos s.fraction
  have hsucc : 2 ^ (s.fraction + 1) = 2 * 2 ^ s.fraction := Nat.pow_succ'
  by_cases hc : n = 2 ^ (s.fraction + 1)
  · -- A carry into the next binade.
    have hhigh : ¬highest value < 1 - s.bias := by
      intro hlow
      have := rounded_le_of_low h0 hlow hrounds
      omega
    have hsig : significand' = 2 ^ s.fraction := if_pos hc
    have htop' : top = highest value + 1 := if_pos hc
    have hE : E = (highest value + 1 + s.bias).toNat := by
      simp only [E, hsig, htop', Nat.le_refl, if_true]
      rw [if_neg (by omega)]
    have hcarry' := hcarry hc
    refine ⟨by omega, ?_⟩
    rw [hsig, Nat.mod_self, magnitudeOf, significand, if_neg (by omega), Nat.zero_add, lastBit,
      if_neg (by omega), hc, hE, Int.toNat_of_nonneg (by omega), encodeQuantum, binade, if_neg hhigh,
      show highest value + 1 + s.bias - s.bias - (s.fraction : ℤ) = (highest value - s.fraction) + 1 by ring,
      zpow_add_one₀ (by norm_num)]
    push_cast
    ring
  · have hsig : significand' = n := if_neg hc
    have htop' : top = highest value := if_neg hc
    have hlt : n < 2 ^ (s.fraction + 1) := by omega
    by_cases hnormal : 2 ^ s.fraction ≤ n
    · have hE : E = (binade s value + s.bias).toNat := by
        simp only [E, hsig, htop', hnormal, if_true]
        rfl
      have hbinade : 1 - s.bias ≤ binade s value ∧ binade s value ≤ s.bias := by
        unfold binade
        split <;> omega
      have hmod : n % 2 ^ s.fraction = n - 2 ^ s.fraction := by
        rw [Nat.mod_eq_sub_mod hnormal, Nat.mod_eq_of_lt (by omega)]
      refine ⟨by omega, ?_⟩
      rw [hsig, hmod, magnitudeOf, significand, if_neg (by omega), Nat.sub_add_cancel hnormal, lastBit,
        if_neg (by omega), hE, Int.toNat_of_nonneg (by omega), encodeQuantum, add_sub_cancel_right]
    · have hlow : highest value < 1 - s.bias := by
        by_contra hhigh
        exact hnormal (full_le_rounded h0 hhigh hrounds)
      have hE : E = 0 := by
        simp only [E, hsig, hnormal, if_false]
      refine ⟨by omega, ?_⟩
      rw [hsig, Nat.mod_eq_of_lt (by omega), hE, magnitudeOf, significand, if_pos rfl, lastBit, if_pos rfl,
        encodeQuantum, binade, if_pos hlow]

variable {format : Format} {policy : Policy}

theorem carry_iff (hs : s.Ok) {integer : UInt64} (hn : integer.toNat = n) :
    integer = 1 <<< (s.fraction + 1).toUInt64 ↔ n = 2 ^ (s.fraction + 1) := by
  have := hs.fraction_le
  rw [← UInt64.toNat_inj, toNat_one_shiftLeft (by omega), hn]

theorem encodeFinite_of_high (h0 : value.magnitude ≠ 0) (htop : (shape format).bias < highest value) :
    encodeFinite format value policy = overflow (shape format) value.negative policy := by
  unfold encodeFinite
  dsimp only
  rw [if_neg h0]
  exact if_pos htop

theorem encodeFinite_eq (h0 : value.magnitude ≠ 0) (htop : highest value ≤ (shape format).bias) :
    encodeFinite format value policy = encodeRounded (shape format) value policy (highest value)
      (round value (encodeQuantum (shape format) value) policy.rounding) := by
  unfold encodeFinite
  dsimp only
  rw [if_neg h0]
  exact if_neg (not_lt.mpr htop)

section Rounded

variable {rounded : Rounded} {top : ℤ} (hs : s.Ok) (hn : rounded.integer.toNat = n)

include hs hn

theorem encodeRounded_of_carry (hc : n = 2 ^ (s.fraction + 1)) (hhigh : s.bias < top + 1) :
    encodeRounded s value policy top rounded = overflow s value.negative policy := by
  unfold encodeRounded
  dsimp only
  rw [if_pos ((carry_iff hs hn).mpr hc), if_pos hhigh]

theorem encodeRounded_of_inexact (htop : top ≤ s.bias)
    (hcarry : n = 2 ^ (s.fraction + 1) → top + 1 ≤ s.bias) (hinexact : rounded.inexact = true)
    (hprecision : policy.precision = .exactOnly) :
    encodeRounded s value policy top rounded = .error { code := .invalidArgument } := by
  unfold encodeRounded
  dsimp only
  rw [if_neg, if_pos ⟨hinexact, hprecision⟩]
  split
  next h => exact not_lt.mpr (hcarry ((carry_iff hs hn).mp h))
  next => exact not_lt.mpr htop

/-- The fields of a result. -/
theorem encodeRounded_of_fits (value : BinaryValue) (htop : top ≤ s.bias) (hcarry : n = 2 ^ (s.fraction + 1) → top + 1 ≤ s.bias)
    (hprecision : rounded.inexact = true → policy.precision = .allowRounding) {significand' : ℕ} {top' : ℤ}
    (hsig : significand' = if n = 2 ^ (s.fraction + 1) then 2 ^ s.fraction else n)
    (htop' : top' = if n = 2 ^ (s.fraction + 1) then top + 1 else top)
    (hE : E = if 2 ^ s.fraction ≤ significand' then
      ((if top' < 1 - s.bias then 1 - s.bias else top') + s.bias).toNat else 0)
    (hE' : E < 2 ^ s.exponent - 1) :
    ∃ bits, Fields s bits value.negative E (significand' % 2 ^ s.fraction) ∧
      encodeRounded s value policy top rounded = .ok
        { bits, flags := { inexact := rounded.inexact,
                           underflow := rounded.inexact && tinyAfterRounding s value policy.rounding top } } := by
  have hf52 := hs.fraction_le
  have hc := carry_iff hs hn
  have hexponent64 : 2 ^ s.exponent ≤ 2 ^ 11 := Nat.pow_le_pow_right (by decide) hs.exponent_le
  obtain ⟨word, hword, hwordNat⟩ : ∃ word : UInt64,
      (if rounded.integer = 1 <<< (s.fraction + 1).toUInt64 then rounded.integer >>> 1 else rounded.integer) = word ∧
        word.toNat = significand' := by
    refine ⟨_, rfl, ?_⟩
    by_cases h : n = 2 ^ (s.fraction + 1)
    · rw [if_pos (hc.mpr h), hsig, if_pos h]
      have hshift : (rounded.integer >>> (1 : ℕ).toUInt64).toNat = rounded.integer.toNat / 2 ^ 1 :=
        toNat_shiftRight (by decide)
      rw [hn, h, Nat.pow_succ, pow_one, Nat.mul_div_cancel _ (by decide)] at hshift
      exact hshift
    · rw [if_neg (fun h' => h (hc.mp h')), hsig, if_neg h, hn]
  have htopEq : (if rounded.integer = 1 <<< (s.fraction + 1).toUInt64 then top + 1 else top) = top' := by
    by_cases h : n = 2 ^ (s.fraction + 1)
    · rw [if_pos (hc.mpr h), htop', if_pos h]
    · rw [if_neg (fun h' => h (hc.mp h')), htop', if_neg h]
  have hle : ¬top' > s.bias := by
    rw [htop']
    split
    next h => exact not_lt.mpr (hcarry h)
    next => exact not_lt.mpr htop
  have hnormal : word ≥ 1 <<< s.fraction.toUInt64 ↔ 2 ^ s.fraction ≤ significand' := by
    rw [ge_iff_le, UInt64.le_iff_toNat_le, toNat_one_shiftLeft (by omega), hwordNat]
  obtain ⟨exponent, hexponent, hexponentNat⟩ : ∃ exponent : UInt64,
      (if word ≥ 1 <<< s.fraction.toUInt64 then
        ((if top' < 1 - s.bias then 1 - s.bias else top') + s.bias).toNat.toUInt64 else 0) = exponent ∧
        exponent.toNat = E := by
    refine ⟨_, rfl, ?_⟩
    by_cases h : 2 ^ s.fraction ≤ significand'
    · rw [if_pos h] at hE
      rw [if_pos (hnormal.mpr h), toNat_toUInt64 (by omega), hE]
    · rw [if_neg (fun h' => h (hnormal.mp h')), hE, if_neg h]
      rfl
  have hfraction : (word &&& mask s.fraction).toNat = significand' % 2 ^ s.fraction := by
    rw [toNat_and_mask (toNat_mask (by omega)), hwordNat]
  refine ⟨_, fields_assemble hs value.negative hexponentNat hfraction (by omega)
    (Nat.mod_lt _ (Nat.two_pow_pos _)), ?_⟩
  unfold encodeRounded
  dsimp only
  rw [hword, htopEq, if_neg hle, if_neg, hexponent]
  rintro ⟨hinexact, hexact⟩
  rw [hprecision hinexact] at hexact
  cases hexact

end Rounded

theorem two_zpow_succ_fraction (k : ℤ) : ((2 ^ (s.fraction + 1) : ℕ) : ℚ) * 2 ^ (k - s.fraction) = 2 ^ (k + 1) := by
  push_cast
  rw [← zpow_natCast, ← zpow_add₀ (by norm_num)]
  congr 1
  push_cast
  ring

/-- Tininess is that of the value rounded with an unbounded exponent. -/
theorem tinyAfterRounding_eq (hs : s.Ok) (h0 : value.magnitude ≠ 0)
    (hrounds : RoundsTo d value.size (2 ^ (highest value - s.fraction)) n)
    (hn : (round value (highest value - s.fraction) mode).integer.toNat = n) :
    tinyAfterRounding s value mode (highest value) = decide (n * 2 ^ (highest value - s.fraction) < s.minNormal) := by
  have hc := carry_iff hs hn
  have hle : n ≤ 2 ^ (s.fraction + 1) := rounded_le h0 (by omega) hrounds
  have hge : 2 ^ s.fraction ≤ n := by
    refine hrounds.ge_of_ge (two_zpow_pos _) ?_
    have := full_le (s := s) (q := highest value - s.fraction) h0 (by omega)
    rw [Nat.add_sub_cancel] at this
    push_cast
    exact this
  unfold tinyAfterRounding Shape.minNormal
  dsimp only
  by_cases hlow : highest value < 1 - s.bias
  · rw [if_pos hlow]
    by_cases h : n = 2 ^ (s.fraction + 1)
    · rw [if_pos (hc.mpr h), decide_eq_decide, h, two_zpow_succ_fraction, zpow_lt_zpow_iff_right₀ (by norm_num)]
    · rw [if_neg (fun h' => h (hc.mp h')), add_zero, decide_eq_decide]
      refine ⟨fun _ => ?_, fun _ => hlow⟩
      have hlt : (n : ℚ) < (2 ^ (s.fraction + 1) : ℕ) := by exact_mod_cast Nat.lt_of_le_of_ne hle h
      calc (n : ℚ) * 2 ^ (highest value - s.fraction)
          < (2 ^ (s.fraction + 1) : ℕ) * 2 ^ (highest value - s.fraction) :=
            mul_lt_mul_of_pos_right hlt (two_zpow_pos _)
        _ = 2 ^ (highest value + 1) := two_zpow_succ_fraction _
        _ ≤ 2 ^ (1 - s.bias) := zpow_le_zpow_right₀ (by norm_num) (by omega)
  · rw [if_neg hlow]
    symm
    rw [decide_eq_false_iff_not, not_lt]
    calc (2 : ℚ) ^ (1 - s.bias) ≤ 2 ^ highest value := zpow_le_zpow_right₀ (by norm_num) (by omega)
      _ = (2 ^ s.fraction : ℕ) * 2 ^ (highest value - s.fraction) := by
        push_cast
        rw [← zpow_natCast, ← zpow_add₀ (by norm_num)]
        congr 1
        ring
      _ ≤ n * 2 ^ (highest value - s.fraction) :=
        mul_le_mul_of_nonneg_right (by exact_mod_cast hge) (two_zpow_pos _).le

/-- The largest finite number ends the binade of the largest exponent. -/
theorem maxFinite_lt (s : Shape) : s.maxFinite < 2 ^ (s.bias + 1) := by
  rw [← two_zpow_succ_fraction (s := s), Shape.maxFinite]
  push_cast
  exact mul_lt_mul_of_pos_right (by linarith) (two_zpow_pos _)

theorem two_pow_bias_le_maxFinite (s : Shape) : 2 ^ s.bias ≤ s.maxFinite := by
  have hone : (1 : ℚ) ≤ 2 ^ s.fraction := one_le_pow₀ (by norm_num)
  calc (2 : ℚ) ^ s.bias = 2 ^ s.fraction * 2 ^ (s.bias - s.fraction) := by
        rw [← zpow_natCast, ← zpow_add₀ (by norm_num)]
        congr 1
        ring
    _ ≤ (2 ^ (s.fraction + 1) - 1) * 2 ^ (s.bias - s.fraction) := by
        refine mul_le_mul_of_nonneg_right ?_ (two_zpow_pos _).le
        rw [pow_succ]
        linarith

/-- Overflow is decided on the rounded value. -/
theorem overflow_iff_large (hs : s.Ok) (h0 : value.magnitude ≠ 0)
    (hrounds : RoundsTo d value.size (2 ^ encodeQuantum s value) n) :
    s.maxFinite < n * 2 ^ encodeQuantum s value ↔
      s.bias < highest value ∨ (n = 2 ^ (s.fraction + 1) ∧ s.bias < highest value + 1) := by
  have hbinade := highest_le_binade s value
  have hle : n ≤ 2 ^ (s.fraction + 1) := rounded_le h0 (by unfold encodeQuantum; omega) hrounds
  have hbias : 1 - s.bias ≤ s.bias := by
    have hb := hs.bias_eq
    have : (2 : ℤ) ^ 1 ≤ 2 ^ (s.exponent - 1) :=
      pow_le_pow_right₀ (by norm_num) (by have := hs.exponent_ge; omega)
    omega
  constructor
  · intro hlarge
    by_contra hnot
    rw [not_or, not_lt, not_and, not_lt] at hnot
    obtain ⟨htop, hcarry⟩ := hnot
    refine absurd hlarge (not_lt.mpr ?_)
    have hq : encodeQuantum s value ≤ s.bias - s.fraction := by
      unfold encodeQuantum binade
      split <;> omega
    have hunit := zpow_le_zpow_right₀ (show (1 : ℚ) ≤ 2 by norm_num) hq
    by_cases hc : n = 2 ^ (s.fraction + 1)
    · have hcarry' := hcarry hc
      have hhigh : ¬highest value < 1 - s.bias := by
        intro hlow
        have hsub := rounded_le_of_low h0 hlow hrounds
        rw [hc, Nat.pow_succ] at hsub
        have := Nat.two_pow_pos s.fraction
        omega
      rw [hc, encodeQuantum, binade, if_neg hhigh, two_zpow_succ_fraction]
      exact (zpow_le_zpow_right₀ (by norm_num) hcarry').trans (two_pow_bias_le_maxFinite s)
    · have hlt : n + 1 ≤ 2 ^ (s.fraction + 1) := Nat.lt_of_le_of_ne hle hc
      have hlt' : (n : ℚ) ≤ 2 ^ (s.fraction + 1) - 1 := by
        have : ((n + 1 : ℕ) : ℚ) ≤ (2 ^ (s.fraction + 1) : ℕ) := by exact_mod_cast hlt
        push_cast at this
        linarith
      exact mul_le_mul hlt' hunit (two_zpow_pos _).le (by linarith [Nat.cast_nonneg (α := ℚ) n])
  · intro hbig
    refine (maxFinite_lt s).trans_le ?_
    rcases hbig with htop | ⟨hc, htop⟩
    · have hhigh : ¬highest value < 1 - s.bias := by omega
      have hge := full_le_rounded h0 hhigh hrounds
      calc (2 : ℚ) ^ (s.bias + 1) ≤ 2 ^ highest value := zpow_le_zpow_right₀ (by norm_num) (by omega)
        _ = (2 ^ s.fraction : ℕ) * 2 ^ encodeQuantum s value := by
          push_cast
          rw [← zpow_natCast, ← zpow_add₀ (by norm_num), encodeQuantum, binade, if_neg hhigh]
          congr 1
          ring
        _ ≤ n * 2 ^ encodeQuantum s value :=
          mul_le_mul_of_nonneg_right (by exact_mod_cast hge) (two_zpow_pos _).le
    · rw [hc, encodeQuantum, two_zpow_succ_fraction]
      exact zpow_le_zpow_right₀ (by norm_num) (by omega)

end Vita.Codec.Ieee
