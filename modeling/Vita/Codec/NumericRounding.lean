import Vita.Codec.NumericTheorems

/-!
# Numeric samples are correctly rounded

The exponents of a VRT format overlap, and `encodeNumeric` tries them from the finest quantum on. The first
at which the rounded magnitude fits gives the best value of the whole format: the values on coarser grids
are multiples of its quantum, and those on finer grids end too far below.

Main results:
- `encodeNumeric_correct`: the result of `encodeNumeric` for every format, value and policy.
-/

namespace Vita.Codec.Numeric

open Checked UnitRounding Word64

variable {spec : NumericSpec} {negative : Bool} {e : ℕ}

/-! ## The search for an exponent -/

/-- Moving to the lowest exponent keeps the value. -/
theorem renormalize_spec (hvrt : e ≠ 0 → vrt spec.kind = true) {maxMag magnitude : UInt64}
    (hle : magnitude.toNat ≤ maxMag.toNat) :
    (renormalize maxMag e magnitude).1.toNat ≤ maxMag.toNat ∧ (renormalize maxMag e magnitude).2 ≤ e ∧
      ((renormalize maxMag e magnitude).1 = 0 ↔ magnitude = 0) ∧
      ((renormalize maxMag e magnitude).1.toNat : ℚ) * spec.unit (renormalize maxMag e magnitude).2 =
        magnitude.toNat * spec.unit e := by
  induction e generalizing magnitude with
  | zero => exact ⟨hle, Nat.le_refl 0, Iff.rfl, rfl⟩
  | succ e ih =>
    have hvrt' : vrt spec.kind = true := hvrt (Nat.succ_ne_zero e)
    unfold renormalize
    split
    next h =>
      have hhalf : magnitude.toNat ≤ maxMag.toNat / 2 := by
        have := UInt64.le_iff_toNat_le.mp h.2
        rwa [UInt64.toNat_div] at this
      have hlt := maxMag.toNat_lt
      have hdouble : (magnitude * 2).toNat = magnitude.toNat * 2 := by
        rw [UInt64.toNat_mul]
        exact Nat.mod_eq_of_lt (by simp; omega)
      have hnext : (magnitude * 2).toNat ≤ maxMag.toNat := by omega
      obtain ⟨h1, h2, h3, h4⟩ := ih (fun _ => hvrt') hnext
      refine ⟨h1, by omega, ?_, ?_⟩
      · rw [h3, ← UInt64.toNat_inj, ← UInt64.toNat_inj, hdouble, UInt64.toNat_zero]
        omega
      · rw [h4, hdouble, unit_succ hvrt']
        push_cast
        ring
    next h => exact ⟨hle, Nat.le_refl _, Iff.rfl, rfl⟩

section Search

variable {value : BinaryValue} {policy : ConversionPolicy} {saturated : Bool} {n : ℕ}

/-- A magnitude above the greatest one does not fit. -/
theorem attempt_of_large (hq : Quantizes value (quantum spec e) policy.rounding n)
    (h : (maxMagnitude spec value.negative).toNat < n) :
    attempt spec value policy (maxMagnitude spec value.negative) saturated e = none := by
  unfold attempt
  dsimp only
  apply if_pos
  by_cases hbig : 2 ^ 64 ≤ n
  · exact .inl (hq.overflow hbig)
  · right
    rw [hq.fits (by omega), gt_iff_lt, UInt64.lt_iff_toNat_lt, toNat_toUInt64 (by omega)]
    exact h

/-- An inexact value is refused where only exact ones are wanted. -/
theorem attempt_of_inexact (hq : Quantizes value (quantum spec e) policy.rounding n)
    (hexact : policy.precision = .exactOnly) (h : value.size ≠ n * spec.unit e) :
    attempt spec value policy (maxMagnitude spec value.negative) saturated e = none := by
  by_cases hlarge : (maxMagnitude spec value.negative).toNat < n
  · exact attempt_of_large hq hlarge
  · have := (maxMagnitude spec value.negative).toNat_lt
    unfold attempt
    rw [hq.fits (by omega)]
    dsimp only
    split
    · rfl
    · exact if_pos ⟨decide_eq_true h, hexact⟩

/-- An attempt that succeeds gives the quantized value. -/
theorem NumericSpec.Valid.attempt_of_fits (h : spec.Valid) (hok : validate spec = .ok ())
    (hq : Quantizes value (quantum spec e) policy.rounding n) (he : e ≤ maxExponent spec)
    (hsigned : value.negative = true → signedKind spec.kind = true)
    (hn : n ≤ (maxMagnitude spec value.negative).toNat)
    (hexact : policy.precision = .exactOnly → value.size = n * spec.unit e) :
    ∃ encoded v, attempt spec value policy (maxMagnitude spec value.negative) saturated e = some encoded ∧
      encoded.rounded = decide (value.size ≠ n * spec.unit e) ∧ encoded.saturated = saturated ∧
      decodeExact spec encoded.bits = .ok v ∧ v.toRat = signed value.negative (n * spec.unit e) := by
  have hlt := (maxMagnitude spec value.negative).toNat_lt
  have hword : n.toUInt64.toNat = n := toNat_toUInt64 (by omega)
  have hform : attempt spec value policy (maxMagnitude spec value.negative) saturated e = some
      { bits := if n.toUInt64 = 0 then 0 else pattern spec value.negative
          (renormalize (maxMagnitude spec value.negative) e n.toUInt64).1
          (renormalize (maxMagnitude spec value.negative) e n.toUInt64).2,
        rounded := decide (value.size ≠ n * spec.unit e), saturated } := by
    unfold attempt
    rw [hq.fits (by omega)]
    dsimp only
    rw [if_neg, if_neg]
    · rfl
    · rintro ⟨hres, hprecision⟩
      exact of_decide_eq_true hres (hexact hprecision)
    · rw [gt_iff_lt, UInt64.lt_iff_toNat_lt, hword]
      rintro (hover | hbig)
      · cases hover
      · omega
  by_cases h0 : n.toUInt64 = 0
  · obtain ⟨v, hv, hzero⟩ := h.decode_zero hok
    refine ⟨_, v, hform, rfl, rfl, ?_, ?_⟩
    · rwa [if_pos h0]
    · rw [hzero, ← hword, h0, UInt64.toNat_zero, Nat.cast_zero, zero_mul, signed_zero]
  · obtain ⟨h1, h2, h3, h4⟩ := renormalize_spec (e := e)
      (fun hne => vrt_of_lt (lt_of_lt_of_le (Nat.pos_of_ne_zero hne) he)) (hword.symm ▸ hn)
    obtain ⟨v, hv, hvalue⟩ := h.decode_pattern hok h1 (h2.trans he)
      (fun hneg => ⟨hsigned hneg, fun hzero => h0 (h3.mp hzero)⟩)
    refine ⟨_, v, hform, rfl, rfl, ?_, ?_⟩
    · rwa [if_neg h0]
    · rw [hvalue, h4, hword]

/-- The first number that succeeds. -/
theorem findSome?_range {β : Type} {f : ℕ → Option β} {b : β} {count : ℕ} (he : e < count) (hsome : f e = some b)
    (hnone : ∀ e' < e, f e' = none) : (List.range count).findSome? f = some b := by
  induction count with
  | zero => omega
  | succ count ih =>
    rw [List.range_succ, List.findSome?_append]
    by_cases hlast : e = count
    · subst hlast
      rw [List.findSome?_eq_none_iff.mpr fun e' he' => hnone e' (List.mem_range.mp he'), Option.none_or,
        List.findSome?_singleton, hsome]
    · rw [ih (by omega), Option.some_or]

/-- The first exponent that succeeds. -/
theorem search_eq_ok {maxMag : UInt64} {encoded : EncodedValue} (he : e ≤ maxExponent spec)
    (hsome : attempt spec value policy maxMag saturated e = some encoded)
    (hnone : ∀ e' < e, attempt spec value policy maxMag saturated e' = none) :
    search spec value policy maxMag saturated = .ok encoded := by
  rw [search, findSome?_range (Nat.lt_succ_of_le he) hsome hnone]

theorem attempt_of_search {maxMag : UInt64} {encoded : EncodedValue}
    (h : search spec value policy maxMag saturated = .ok encoded) :
    ∃ e ≤ maxExponent spec, attempt spec value policy maxMag saturated e = some encoded := by
  unfold search at h
  split at h
  next found hfound =>
    obtain ⟨e, he, hsome⟩ := List.exists_of_findSome?_eq_some hfound
    refine ⟨e, Nat.le_of_lt_succ (List.mem_range.mp he), ?_⟩
    rw [hsome, Except.ok.inj h]
  next => cases h

/-- Values on a grid of a larger exponent are multiples of the smaller quantum. -/
theorem closer_of_magnitudes (hv : vrt spec.kind = true ∨ maxExponent spec = 0) {d : Direction} {a z : ℚ}
    (hn : RoundsTo d a (spec.unit e) n) (hz : z ∈ Magnitudes spec negative) (he : e ≤ maxExponent spec)
    (hleast : ∀ e' < e, ∃ n', RoundsTo d a (spec.unit e') n' ∧ (maxMagnitude spec negative).toNat < n') :
    Closer d a (n * spec.unit e) z := by
  obtain ⟨k, e', hk, he', rfl⟩ := hz
  by_cases hcoarse : e ≤ e'
  · obtain ⟨j, rfl⟩ := Nat.exists_eq_add_of_le hcoarse
    rcases hv with hvrt | hzero
    · have hmultiple : (k : ℚ) * spec.unit (e + j) = (k * 2 ^ j : ℕ) * spec.unit e := by
        rw [unit_add hvrt]
        push_cast
        ring
      rw [hmultiple]
      exact hn.closer_multiple (spec.unit_pos e) _
    · obtain rfl : j = 0 := by omega
      exact hn.closer_multiple (spec.unit_pos e) _
  · -- A finer grid ends below the value.
    obtain ⟨f, rfl⟩ : ∃ f, e = f + 1 := ⟨e - 1, by omega⟩
    have hvrt : vrt spec.kind = true := vrt_of_lt (by omega)
    obtain ⟨n', hn', hlarge⟩ := hleast f (Nat.lt_succ_self f)
    obtain ⟨j, rfl⟩ := Nat.exists_eq_add_of_le (show e' ≤ f by omega)
    rw [unit_succ hvrt] at hn ⊢
    refine hn.closer_finer (spec.unit_pos _) hn' hlarge ?_
    have hunit : spec.unit e' ≤ spec.unit (e' + j) := by
      rw [unit_add hvrt]
      exact le_mul_of_one_le_left (spec.unit_pos e').le (one_le_pow₀ (by norm_num))
    have hkN : (k : ℚ) ≤ (maxMagnitude spec negative).toNat := by exact_mod_cast hk
    exact mul_le_mul hkN hunit (spec.unit_pos e').le (Nat.cast_nonneg _)

theorem vrt_or_zero (spec : NumericSpec) : vrt spec.kind = true ∨ maxExponent spec = 0 := by
  by_cases hvrt : vrt spec.kind = true
  · exact .inl hvrt
  · exact .inr (if_neg hvrt)

/-- With rounding, the search finds the best magnitude. -/
theorem NumericSpec.Valid.search_rounded (h : spec.Valid) (saturated : Bool) (hok : validate spec = .ok ())
    (hprecision : policy.precision = .allowRounding)
    (hsigned : value.negative = true → signedKind spec.kind = true)
    (hrange : value.size ≤ (maxMagnitude spec value.negative).toNat * spec.unit (maxExponent spec)) :
    ∃ encoded v y, search spec value policy (maxMagnitude spec value.negative) saturated = .ok encoded ∧
      decodeExact spec encoded.bits = .ok v ∧ v.toRat = signed value.negative y ∧
      Best (policy.rounding.direction value.negative) (Magnitudes spec value.negative) value.size y ∧
      encoded.rounded = decide (value.size ≠ y) ∧ encoded.saturated = saturated := by
  choose n hn using fun e => quantize_spec value (quantum spec e) policy.rounding
  have hlast : ∃ e, n e ≤ (maxMagnitude spec value.negative).toNat :=
    ⟨maxExponent spec, (hn _).rounds.le_of_le (spec.unit_pos _) hrange⟩
  have hfits := Nat.find_spec hlast
  have hle : Nat.find hlast ≤ maxExponent spec :=
    Nat.find_min' hlast ((hn _).rounds.le_of_le (spec.unit_pos _) hrange)
  have hbefore : ∀ e' < Nat.find hlast, (maxMagnitude spec value.negative).toNat < n e' :=
    fun e' he' => Nat.lt_of_not_le (Nat.find_min hlast he')
  generalize Nat.find hlast = e at hfits hle hbefore
  have hexact : policy.precision = .exactOnly → value.size = n e * spec.unit e := by
    intro hexact
    rw [hprecision] at hexact
    cases hexact
  obtain ⟨encoded, v, hsome, hrounded, hsaturated, hv, hvalue⟩ :=
    h.attempt_of_fits hok (hn e) hle hsigned hfits hexact
  refine ⟨encoded, v, _, search_eq_ok hle hsome fun e' he' => attempt_of_large (hn e') (hbefore e' he'), hv,
    hvalue, ?_, hrounded, hsaturated⟩
  refine ⟨⟨n e, e, hfits, hle, rfl⟩, (hn e).rounds.side, fun z hz => ?_⟩
  exact closer_of_magnitudes (vrt_or_zero spec) (hn e).rounds hz hle fun e' he' =>
    ⟨n e', (hn e').rounds, hbefore e' he'⟩

/-- Without rounding, the search finds the value itself, or nothing. -/
theorem NumericSpec.Valid.search_exact (h : spec.Valid) (hok : validate spec = .ok ())
    (hprecision : policy.precision = .exactOnly)
    (hsigned : value.negative = true → signedKind spec.kind = true) :
    ((∃ encoded, search spec value policy (maxMagnitude spec value.negative) saturated = .ok encoded) ↔
      value.size ∈ Magnitudes spec value.negative) ∧
    ∀ encoded, search spec value policy (maxMagnitude spec value.negative) saturated = .ok encoded →
      ∃ v, decodeExact spec encoded.bits = .ok v ∧ v.toRat = value.toRat := by
  choose n hn using fun e => quantize_spec value (quantum spec e) policy.rounding
  -- An attempt succeeds where the value is a multiple of the quantum, and not too large.
  have hfound : ∀ encoded, search spec value policy (maxMagnitude spec value.negative) saturated = .ok encoded →
      ∃ e ≤ maxExponent spec, n e ≤ (maxMagnitude spec value.negative).toNat ∧
        value.size = n e * spec.unit e ∧
        attempt spec value policy (maxMagnitude spec value.negative) saturated e = some encoded := by
    intro encoded hsearch
    obtain ⟨e, he, hsome⟩ := attempt_of_search hsearch
    refine ⟨e, he, ?_, ?_, hsome⟩
    · by_contra hlarge
      rw [attempt_of_large (hn e) (by omega)] at hsome
      cases hsome
    · by_contra hinexact
      rw [attempt_of_inexact (hn e) hprecision hinexact] at hsome
      cases hsome
  refine ⟨⟨?_, ?_⟩, ?_⟩
  · rintro ⟨encoded, hsearch⟩
    obtain ⟨e, he, hfits, hsize, -⟩ := hfound encoded hsearch
    exact ⟨n e, e, hfits, he, hsize⟩
  · rintro ⟨k, e, hk, he, hsize⟩
    have hrounds : RoundsTo (policy.rounding.direction value.negative) (k * spec.unit e) (spec.unit e) (n e) := by
      rw [← hsize]
      exact (hn e).rounds
    obtain rfl := hrounds.eq_of_multiple (spec.unit_pos e)
    obtain ⟨encoded, -, hsome, -⟩ := h.attempt_of_fits hok (hn e) he hsigned hk fun _ => hsize
    cases hsearch : search spec value policy (maxMagnitude spec value.negative) saturated with
    | ok encoded => exact ⟨encoded, rfl⟩
    | error _ =>
      unfold search at hsearch
      split at hsearch
      · cases hsearch
      next hnone =>
        rw [List.findSome?_eq_none_iff] at hnone
        rw [hnone e (List.mem_range.mpr (Nat.lt_succ_of_le he))] at hsome
        cases hsome
  · intro encoded hsearch
    obtain ⟨e, he, hfits, hsize, hattempt⟩ := hfound encoded hsearch
    obtain ⟨encoded', v, hsome, -, -, hv, hvalue⟩ :=
      h.attempt_of_fits hok (hn e) he hsigned hfits fun _ => hsize
    obtain rfl : encoded = encoded' := Option.some.inj (hattempt.symm.trans hsome)
    refine ⟨v, hv, ?_⟩
    rw [hvalue, ← hsize]
    rfl

end Search

/-! ## Correct rounding -/

/-- `y` is the number that `x` is rounded to, among the numbers of `S`. -/
def CorrectlyRounded (S : Set ℚ) : Rounding → ℚ → ℚ → Prop
  | .nearestTiesEven, x, y => y ∈ S ∧ ∀ z ∈ S, |x - y| ≤ |x - z|
  | .towardZero, x, y => if 0 ≤ x then IsGreatest {z ∈ S | z ≤ x} y else IsLeast {z ∈ S | x ≤ z} y
  | .towardNegative, x, y => IsGreatest {z ∈ S | z ≤ x} y
  | .towardPositive, x, y => IsLeast {z ∈ S | x ≤ z} y

/-- A number of the set stays as it is. -/
theorem correctlyRounded_self {S : Set ℚ} {rounding : Rounding} {x : ℚ} (h : x ∈ S) :
    CorrectlyRounded S rounding x x := by
  cases rounding with
  | nearestTiesEven =>
    refine ⟨h, fun z _ => ?_⟩
    rw [sub_self, abs_zero]
    exact abs_nonneg _
  | towardZero =>
    simp only [CorrectlyRounded]
    split
    · exact ⟨⟨h, le_refl _⟩, fun z hz => hz.2⟩
    · exact ⟨⟨h, le_refl _⟩, fun z hz => hz.2⟩
  | towardNegative => exact ⟨⟨h, le_refl _⟩, fun z hz => hz.2⟩
  | towardPositive => exact ⟨⟨h, le_refl _⟩, fun z hz => hz.2⟩

theorem signed_signed (negative : Bool) (a : ℚ) : signed negative (signed negative a) = a := by
  cases negative <;> simp [signed]

/-- The best magnitude, with the sign of the value, is correctly rounded. -/
theorem correctlyRounded_of_best {S : Set ℚ} {a b : ℚ} {rounding : Rounding} (ha : 0 ≤ a)
    (hnonzero : negative = true → a ≠ 0)
    (h : Best (rounding.direction negative) {z | signed negative z ∈ S} a b) :
    CorrectlyRounded S rounding (signed negative a) (signed negative b) := by
  have hmem : signed negative b ∈ S := h.mem
  have hside := h.side
  have hcloser : ∀ z ∈ S, Closer (rounding.direction negative) a b (signed negative z) := by
    intro z hz
    refine h.closer _ ?_
    show signed negative (signed negative z) ∈ S
    rwa [signed_signed]
  cases negative with
  | false =>
    cases rounding with
    | nearestTiesEven => exact ⟨hmem, fun z hz => hcloser z hz⟩
    | towardZero =>
      show if 0 ≤ a then _ else _
      rw [if_pos ha]
      exact ⟨⟨hmem, hside⟩, fun z hz => hcloser z hz.1 hz.2⟩
    | towardNegative => exact ⟨⟨hmem, hside⟩, fun z hz => hcloser z hz.1 hz.2⟩
    | towardPositive => exact ⟨⟨hmem, hside⟩, fun z hz => hcloser z hz.1 hz.2⟩
  | true =>
    have ha' : ¬0 ≤ -a := by
      have := hnonzero rfl
      intro hle
      exact this (by linarith)
    cases rounding with
    | nearestTiesEven =>
      refine ⟨hmem, fun z hz => ?_⟩
      have hz : |a - b| ≤ |a - -z| := hcloser z hz
      show |-a - -b| ≤ |-a - z|
      rw [show -a - -b = -(a - b) by ring, show -a - z = -(a - -z) by ring, abs_neg, abs_neg]
      exact hz
    | towardZero =>
      show if 0 ≤ -a then _ else _
      rw [if_neg ha']
      refine ⟨⟨hmem, neg_le_neg hside⟩, fun z hz => ?_⟩
      have : -z ≤ b := hcloser z hz.1 (by show -z ≤ a; linarith [show -a ≤ z from hz.2])
      show -b ≤ z
      linarith
    | towardNegative =>
      refine ⟨⟨hmem, neg_le_neg hside⟩, fun z hz => ?_⟩
      have : b ≤ -z := hcloser z hz.1 (by show a ≤ -z; linarith [show z ≤ -a from hz.2])
      show z ≤ -b
      linarith
    | towardPositive =>
      refine ⟨⟨hmem, neg_le_neg hside⟩, fun z hz => ?_⟩
      have : -z ≤ b := hcloser z hz.1 (by show -z ≤ a; linarith [show -a ≤ z from hz.2])
      show -b ≤ z
      linarith

/-! ## Ranges -/

/-- A number between two values of the format. -/
def InRange (spec : NumericSpec) (x : ℚ) : Prop :=
  ∃ low ∈ Representable spec, ∃ high ∈ Representable spec, low ≤ x ∧ x ≤ high

/-- The end of the range that a number lies beyond. -/
def RangeEnd (spec : NumericSpec) (x y : ℚ) : Prop :=
  (IsGreatest (Representable spec) y ∧ y < x) ∨ (IsLeast (Representable spec) y ∧ x < y)

/-- The largest magnitude of a sign. -/
def NumericSpec.top (spec : NumericSpec) (negative : Bool) : ℚ :=
  (maxMagnitude spec negative).toNat * spec.unit (maxExponent spec)

theorem zero_mem_magnitudes : (0 : ℚ) ∈ Magnitudes spec negative :=
  ⟨0, 0, Nat.zero_le _, Nat.zero_le _, by rw [Nat.cast_zero, zero_mul]⟩

theorem top_mem_magnitudes : spec.top negative ∈ Magnitudes spec negative :=
  ⟨_, _, Nat.le_refl _, Nat.le_refl _, rfl⟩

theorem magnitudes_nonneg {b : ℚ} (h : b ∈ Magnitudes spec negative) : 0 ≤ b := by
  obtain ⟨n, e, -, -, rfl⟩ := h
  exact mul_nonneg (Nat.cast_nonneg n) (spec.unit_pos e).le

theorem magnitudes_le_top {b : ℚ} (h : b ∈ Magnitudes spec negative) : b ≤ spec.top negative := by
  obtain ⟨n, e, hn, he, rfl⟩ := h
  have hunit : spec.unit e ≤ spec.unit (maxExponent spec) := by
    rcases vrt_or_zero spec with hvrt | hzero
    · obtain ⟨k, hk⟩ := Nat.exists_eq_add_of_le he
      rw [hk, unit_add hvrt]
      exact le_mul_of_one_le_left (spec.unit_pos e).le (one_le_pow₀ (by norm_num))
    · obtain rfl : e = maxExponent spec := by omega
      exact le_refl _
  exact mul_le_mul (by exact_mod_cast hn) hunit (spec.unit_pos e).le (Nat.cast_nonneg _)

theorem bound_size (h : spec.Valid) (negative : Bool) : (bound spec negative).size = spec.top negative := by
  rw [BinaryValue.size, bound, h.toInt_quantum (Nat.le_refl _)]
  rfl

variable {value : BinaryValue} {policy : ConversionPolicy}

/-- The sign of a value is one of the format. -/
def SignOk (spec : NumericSpec) (value : BinaryValue) : Prop :=
  value.negative = true → signedKind spec.kind = true

theorem toRat_of_negative (h : value.negative = true) : value.toRat = -value.size := by
  rw [BinaryValue.toRat, h]
  rfl

theorem toRat_of_not_negative (h : value.negative = false) : value.toRat = value.size := by
  rw [BinaryValue.toRat, h]
  rfl

theorem size_pos (h0 : value.magnitude ≠ 0) : 0 < value.size :=
  lt_of_le_of_ne value.size_nonneg fun h => h0 (BinaryValue.size_eq_zero.mp h.symm)

/-- The range, by sign and magnitude. -/
theorem NumericSpec.Valid.inRange_iff (h : spec.Valid) (hok : validate spec = .ok ())
    (h0 : value.magnitude ≠ 0) :
    InRange spec value.toRat ↔ SignOk spec value ∧ value.size ≤ spec.top value.negative := by
  have hpos := size_pos h0
  have hzero : (0 : ℚ) ∈ Representable spec :=
    (h.representable_iff hok).mpr ⟨false, nofun, 0, zero_mem_magnitudes, rfl⟩
  constructor
  · rintro ⟨low, hlow, high, hhigh, hle, hge⟩
    cases hsign : value.negative with
    | false =>
      rw [toRat_of_not_negative hsign] at hge
      obtain ⟨negative, -, b, hb, rfl⟩ := (h.representable_iff hok).mp hhigh
      have hb0 := magnitudes_nonneg hb
      refine ⟨fun hneg => absurd (hsign.symm.trans hneg) (by decide), ?_⟩
      cases negative with
      | false => exact le_trans hge (magnitudes_le_top hb)
      | true =>
        have : value.size ≤ -b := hge
        linarith
    | true =>
      rw [toRat_of_negative hsign] at hle
      obtain ⟨negative, hsigned, b, hb, rfl⟩ := (h.representable_iff hok).mp hlow
      have hb0 := magnitudes_nonneg hb
      cases negative with
      | false =>
        have : b ≤ -value.size := hle
        linarith
      | true =>
        have : -b ≤ -value.size := hle
        exact ⟨fun _ => hsigned rfl, by linarith [magnitudes_le_top hb]⟩
  · rintro ⟨hsigned, hle⟩
    have htop : signed value.negative (spec.top value.negative) ∈ Representable spec :=
      (h.representable_iff hok).mpr ⟨_, hsigned, _, top_mem_magnitudes, rfl⟩
    cases hsign : value.negative with
    | false =>
      rw [hsign] at htop hle
      rw [toRat_of_not_negative hsign]
      exact ⟨0, hzero, _, htop, hpos.le, hle⟩
    | true =>
      rw [hsign] at htop hle
      rw [toRat_of_negative hsign]
      exact ⟨_, htop, 0, hzero, neg_le_neg hle, by linarith⟩

/-- The test for overflow is that of the range. -/
theorem NumericSpec.Valid.overflow_iff (h : spec.Valid) (hok : validate spec = .ok ())
    (h0 : value.magnitude ≠ 0) :
    ((!signedKind spec.kind && value.negative) = true ∨ compare value (bound spec value.negative) = .gt) ↔
      ¬InRange spec value.toRat := by
  rw [h.inRange_iff hok h0, compare_eq_gt, bound_size h _, SignOk, Bool.and_eq_true, Bool.not_eq_true',
    not_and_or, not_le, Classical.not_imp, Bool.not_eq_true, and_comm]

/-! ## Main result -/

theorem encodeNumeric_zero (hok : validate spec = .ok ()) (h0 : value.magnitude = 0) :
    encodeNumeric spec value policy = .ok { bits := 0, rounded := false, saturated := false } := by
  rw [encodeNumeric, hok, ok_bind, if_pos h0]
  rfl

theorem encodeNumeric_inside (h : spec.Valid) (hok : validate spec = .ok ()) (h0 : value.magnitude ≠ 0)
    (hrange : InRange spec value.toRat) : encodeNumeric spec value policy =
      search spec value policy (maxMagnitude spec value.negative) false := by
  rw [encodeNumeric, hok, ok_bind, if_neg h0]
  dsimp only
  rw [if_neg]
  rw [h.overflow_iff hok h0]
  exact not_not.mpr hrange

/-- What becomes of a value outside the range: an error, or the end of the range. -/
theorem encodeNumeric_outside (h : spec.Valid) (hok : validate spec = .ok ()) (h0 : value.magnitude ≠ 0)
    (hrange : ¬InRange spec value.toRat) : encodeNumeric spec value policy =
      if policy.overflow = .error ∨ policy.precision = .exactOnly then .error { code := .overflow }
      else if (!signedKind spec.kind && value.negative) = true then
        .ok { bits := 0, rounded := false, saturated := true }
      else search spec (bound spec value.negative) policy (maxMagnitude spec value.negative) true := by
  rw [encodeNumeric, hok, ok_bind, if_neg h0]
  dsimp only
  rw [if_pos ((h.overflow_iff hok h0).mpr hrange)]
  by_cases hreject : policy.overflow = .error ∨ policy.precision = .exactOnly
  · rw [rejectIf_of hreject, if_pos hreject]
    rfl
  · rw [rejectIf_of_not hreject, if_neg hreject, ok_bind]
    rfl

/-- Magnitudes of the sign of a value are values of the format. -/
theorem NumericSpec.Valid.best_representable (h : spec.Valid) (hok : validate spec = .ok ())
    (hsigned : SignOk spec value) {d : Direction} {y : ℚ}
    (hbest : Best d (Magnitudes spec value.negative) value.size y) :
    Best d {z | signed value.negative z ∈ Representable spec} value.size y := by
  refine hbest.extend zero_mem_magnitudes value.size_nonneg (magnitudes_nonneg hbest.mem) ?_ ?_
  · exact (h.representable_iff hok).mpr ⟨_, hsigned, y, hbest.mem, rfl⟩
  · intro z hz
    obtain ⟨negative, -, b, hb, heq⟩ := (h.representable_iff hok).mp hz
    have hb0 := magnitudes_nonneg hb
    by_cases hsame : negative = value.negative
    · subst hsame
      have : z = b := by rw [← signed_signed value.negative z, heq, signed_signed]
      exact .inl (this ▸ hb)
    · right
      rw [← signed_signed value.negative z, heq]
      revert hsame
      cases negative <;> cases value.negative <;> simp [signed, hb0]

/-- A value is representable exactly if its sign is allowed and its size is one of the format. -/
theorem NumericSpec.Valid.size_mem_iff (h : spec.Valid) (hok : validate spec = .ok ())
    (h0 : value.magnitude ≠ 0) : value.toRat ∈ Representable spec ↔
      SignOk spec value ∧ value.size ∈ Magnitudes spec value.negative := by
  have hpos := size_pos h0
  rw [h.representable_iff hok]
  constructor
  · rintro ⟨negative, hsigned, b, hb, heq⟩
    have hb0 := magnitudes_nonneg hb
    have hsame : negative = value.negative ∧ b = value.size := by
      unfold BinaryValue.toRat at heq
      cases negative <;> cases hsign : value.negative <;> rw [hsign] at heq <;>
        simp only [signed, Bool.false_eq_true, if_false, if_true] at heq
      · exact ⟨rfl, heq.symm⟩
      · linarith
      · linarith
      · exact ⟨rfl, by linarith⟩
    obtain ⟨rfl, rfl⟩ := hsame
    exact ⟨hsigned, hb⟩
  · rintro ⟨hsigned, hmem⟩
    exact ⟨_, hsigned, _, hmem, rfl⟩

/-- With rounding, a value in the range is encoded as the correctly rounded one. -/
theorem NumericSpec.Valid.encode_rounded (h : spec.Valid) (hok : validate spec = .ok ())
    (hprecision : policy.precision = .allowRounding) (hrange : InRange spec value.toRat) :
    ∃ encoded v, encodeNumeric spec value policy = .ok encoded ∧ decodeExact spec encoded.bits = .ok v ∧
      CorrectlyRounded (Representable spec) policy.rounding value.toRat v.toRat ∧
      (encoded.rounded = true ↔ v.toRat ≠ value.toRat) ∧ encoded.saturated = false := by
  by_cases h0 : value.magnitude = 0
  · have hx : value.toRat = 0 := by
      rw [BinaryValue.toRat, BinaryValue.size_eq_zero.mpr h0, signed_zero]
    obtain ⟨v, hv, hzero⟩ := h.decode_zero hok
    refine ⟨_, v, encodeNumeric_zero hok h0, hv, ?_, ?_, rfl⟩
    · rw [hx, hzero]
      exact correctlyRounded_self ⟨0, v, hv, hzero⟩
    · rw [hx, hzero]
      simp
  · obtain ⟨hsigned, hle⟩ := (h.inRange_iff hok h0).mp hrange
    obtain ⟨encoded, v, y, hsearch, hv, hvalue, hbest, hrounded, hsaturated⟩ :=
      h.search_rounded false hok hprecision hsigned hle
    refine ⟨encoded, v, (encodeNumeric_inside h hok h0 hrange).trans hsearch, hv, ?_, ?_, hsaturated⟩
    · rw [hvalue]
      exact correctlyRounded_of_best value.size_nonneg (fun _ => (size_pos h0).ne')
        (h.best_representable hok hsigned hbest)
    · rw [hrounded, decide_eq_true_iff, hvalue]
      unfold BinaryValue.toRat
      cases value.negative <;> simp only [signed, Bool.false_eq_true, if_false, if_true, ne_eq, neg_inj] <;>
        rw [eq_comm]

/-- Without rounding, exactly the values of the format are encoded. -/
theorem NumericSpec.Valid.encode_exact (h : spec.Valid) (hok : validate spec = .ok ())
    (hprecision : policy.precision = .exactOnly) :
    ((∃ encoded, encodeNumeric spec value policy = .ok encoded) ↔ value.toRat ∈ Representable spec) ∧
    ∀ encoded, encodeNumeric spec value policy = .ok encoded →
      ∃ v, decodeExact spec encoded.bits = .ok v ∧ v.toRat = value.toRat := by
  by_cases h0 : value.magnitude = 0
  · have hx : value.toRat = 0 := by
      rw [BinaryValue.toRat, BinaryValue.size_eq_zero.mpr h0, signed_zero]
    obtain ⟨v, hv, hzero⟩ := h.decode_zero hok
    rw [encodeNumeric_zero hok h0, hx]
    refine ⟨⟨fun _ => ⟨0, v, hv, hzero⟩, fun _ => ⟨_, rfl⟩⟩, fun encoded hencoded => ?_⟩
    obtain rfl := Except.ok.inj hencoded
    exact ⟨v, hv, hzero⟩
  · by_cases hrange : InRange spec value.toRat
    · obtain ⟨hsigned, -⟩ := (h.inRange_iff hok h0).mp hrange
      rw [encodeNumeric_inside h hok h0 hrange, h.size_mem_iff hok h0]
      obtain ⟨hiff, hvalue⟩ := h.search_exact hok hprecision hsigned
      refine ⟨?_, hvalue⟩
      rw [hiff]
      exact ⟨fun hmem => ⟨hsigned, hmem⟩, fun hmem => hmem.2⟩
    · rw [encodeNumeric_outside h hok h0 hrange, if_pos (.inr hprecision)]
      have hnot : value.toRat ∉ Representable spec := fun hmem =>
        hrange ⟨_, hmem, _, hmem, le_refl _, le_refl _⟩
      refine ⟨⟨?_, fun hmem => absurd hmem hnot⟩, ?_⟩
      · rintro ⟨encoded, hencoded⟩
        cases hencoded
      · intro encoded hencoded
        cases hencoded

/-- Saturation gives the end of the range. -/
theorem NumericSpec.Valid.encode_saturated (h : spec.Valid) (hok : validate spec = .ok ())
    (hprecision : policy.precision = .allowRounding) (hoverflow : policy.overflow = .saturate)
    (hrange : ¬InRange spec value.toRat) :
    ∃ encoded v, encodeNumeric spec value policy = .ok encoded ∧ decodeExact spec encoded.bits = .ok v ∧
      RangeEnd spec value.toRat v.toRat ∧ encoded.saturated = true := by
  have h0 : value.magnitude ≠ 0 := by
    intro h0
    obtain ⟨v, hv, hzero⟩ := h.decode_zero hok
    have hx : value.toRat = 0 := by
      rw [BinaryValue.toRat, BinaryValue.size_eq_zero.mpr h0, signed_zero]
    rw [hx] at hrange
    exact hrange ⟨0, ⟨0, v, hv, hzero⟩, 0, ⟨0, v, hv, hzero⟩, le_refl _, le_refl _⟩
  have hpos := size_pos h0
  have hreject : ¬(policy.overflow = .error ∨ policy.precision = .exactOnly) := by
    rw [hoverflow, hprecision]
    rintro (hfalse | hfalse) <;> cases hfalse
  rw [encodeNumeric_outside h hok h0 hrange, if_neg hreject]
  by_cases hunsigned : (!signedKind spec.kind && value.negative) = true
  · -- A negative value of an unsigned format becomes zero.
    rw [if_pos hunsigned]
    rw [Bool.and_eq_true, Bool.not_eq_true'] at hunsigned
    obtain ⟨v, hv, hzero⟩ := h.decode_zero hok
    refine ⟨_, v, rfl, hv, .inr ⟨?_, ?_⟩, rfl⟩
    · rw [hzero]
      refine ⟨⟨0, v, hv, hzero⟩, fun z hz => ?_⟩
      obtain ⟨negative, hsigned, b, hb, rfl⟩ := (h.representable_iff hok).mp hz
      cases negative with
      | false => exact magnitudes_nonneg hb
      | true =>
        have := hsigned rfl
        rw [hunsigned.1] at this
        cases this
    · rw [hzero, toRat_of_negative hunsigned.2]
      linarith
  · rw [if_neg hunsigned]
    have hsigned : SignOk spec value := by
      intro hneg
      rw [hneg, Bool.and_true, Bool.not_eq_true', Bool.not_eq_false] at hunsigned
      exact hunsigned
    have hlarge : spec.top value.negative < value.size := by
      by_contra hle
      exact hrange ((h.inRange_iff hok h0).mpr ⟨hsigned, not_lt.mp hle⟩)
    have hbound := bound_size h value.negative
    have hboundSign : (bound spec value.negative).negative = true → signedKind spec.kind = true := hsigned
    have hlargest : (bound spec value.negative).size ≤ (maxMagnitude spec
        (bound spec value.negative).negative).toNat * spec.unit (maxExponent spec) := hbound.le
    obtain ⟨encoded, v, y, hsearch, hv, hvalue, hbest, -, hsaturated⟩ :=
      h.search_rounded true hok hprecision hboundSign hlargest
    have hy : y = spec.top value.negative := by
      rw [hbound] at hbest
      exact hbest.eq_of_mem top_mem_magnitudes
    have hmem : signed value.negative (spec.top value.negative) ∈ Representable spec :=
      (h.representable_iff hok).mpr ⟨_, hsigned, _, top_mem_magnitudes, rfl⟩
    refine ⟨encoded, v, hsearch, hv, ?_, hsaturated⟩
    rw [hvalue, hy]
    show RangeEnd spec value.toRat (signed value.negative (spec.top value.negative))
    cases hsign : value.negative with
    | false =>
      rw [hsign] at hmem hlarge
      left
      rw [toRat_of_not_negative hsign]
      refine ⟨⟨hmem, fun z hz => ?_⟩, hlarge⟩
      obtain ⟨negative, -, b, hb, rfl⟩ := (h.representable_iff hok).mp hz
      cases negative with
      | false => exact magnitudes_le_top hb
      | true =>
        have hb0 := magnitudes_nonneg hb
        have htop0 : 0 ≤ spec.top false := magnitudes_nonneg top_mem_magnitudes
        show -b ≤ spec.top false
        linarith
    | true =>
      rw [hsign] at hmem hlarge
      right
      rw [toRat_of_negative hsign]
      refine ⟨⟨hmem, fun z hz => ?_⟩, neg_lt_neg hlarge⟩
      obtain ⟨negative, -, b, hb, rfl⟩ := (h.representable_iff hok).mp hz
      have hb0 := magnitudes_nonneg hb
      have htop0 : 0 ≤ spec.top true := magnitudes_nonneg top_mem_magnitudes
      cases negative with
      | false =>
        show -spec.top true ≤ b
        linarith
      | true => exact neg_le_neg (magnitudes_le_top hb)

/-- Encoding is correctly rounded. A value outside the range is an overflow or, where the policy asks for
it, becomes the end of the range; without rounding exactly the values of the format are encoded. -/
theorem encodeNumeric_correct (spec : NumericSpec) (hvalid : validate spec = .ok ()) (value : BinaryValue)
    (policy : ConversionPolicy) :
    (policy.precision = .allowRounding → InRange spec value.toRat →
      ∃ encoded v, encodeNumeric spec value policy = .ok encoded ∧ decodeExact spec encoded.bits = .ok v ∧
        CorrectlyRounded (Representable spec) policy.rounding value.toRat v.toRat ∧
        (encoded.rounded = true ↔ v.toRat ≠ value.toRat) ∧ encoded.saturated = false) ∧
    (policy.precision = .exactOnly →
      ((∃ encoded, encodeNumeric spec value policy = .ok encoded) ↔ value.toRat ∈ Representable spec) ∧
      ∀ encoded, encodeNumeric spec value policy = .ok encoded →
        ∃ v, decodeExact spec encoded.bits = .ok v ∧ v.toRat = value.toRat) ∧
    (¬InRange spec value.toRat →
      (policy.overflow = .error ∨ policy.precision = .exactOnly →
        encodeNumeric spec value policy = .error { code := .overflow }) ∧
      (policy.overflow = .saturate → policy.precision = .allowRounding →
        ∃ encoded v, encodeNumeric spec value policy = .ok encoded ∧ decodeExact spec encoded.bits = .ok v ∧
          RangeEnd spec value.toRat v.toRat ∧ encoded.saturated = true)) := by
  have h := NumericSpec.Valid.of_validate hvalid
  refine ⟨h.encode_rounded hvalid, h.encode_exact hvalid, fun hrange => ⟨fun hreject => ?_, fun ho hp => ?_⟩⟩
  · have h0 : value.magnitude ≠ 0 := by
      intro h0
      obtain ⟨v, hv, hzero⟩ := h.decode_zero hvalid
      rw [BinaryValue.toRat, BinaryValue.size_eq_zero.mpr h0, signed_zero] at hrange
      exact hrange ⟨0, ⟨0, v, hv, hzero⟩, 0, ⟨0, v, hv, hzero⟩, le_refl _, le_refl _⟩
    rw [encodeNumeric_outside h hvalid h0 hrange, if_pos hreject]
  · exact h.encode_saturated hvalid hp ho hrange

/-- `-3/16` in eight signed bits. -/
theorem encodeNumeric_correct_fixed :
    (BinaryValue.mk 3 (-4) true).toRat ∈ Representable { kind := .signedFixed, bits := 8 } :=
  ((encodeNumeric_correct { kind := .signedFixed, bits := 8 } (by decide) { magnitude := 3, exponent := -4, negative := true }
    { precision := .exactOnly, rounding := .towardZero, overflow := .error }).2.1 rfl).1.mp
    ⟨{ bits := 0xe8, rounded := false, saturated := false }, by decide⟩

end Vita.Codec.Numeric
