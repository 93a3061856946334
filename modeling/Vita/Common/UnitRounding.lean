import Mathlib.Algebra.Order.Field.Basic
import Mathlib.Algebra.Order.AbsoluteValue.Basic
import Mathlib.Algebra.Ring.Parity
import Mathlib.Tactic.Linarith
import Mathlib.Tactic.Ring

/-!
# Rounding to a unit

A number is rounded to whole units of some size: down, up, or to the nearest with ties to the even count.
Which of two candidates is the better one is said for arbitrary candidates, not for multiples of the unit
only, so that candidates on several grids can be compared.

Main results:
- `RoundsTo.closer_multiple`: no multiple of the unit is better;
- `RoundsTo.closer_finer`: nor is a multiple of half the unit, when there are too few of them;
- `roundsTo_roundDiv`: rounding by division with remainder.
-/

namespace UnitRounding

variable {K : Type*} [Field K] [LinearOrder K]

inductive Direction where
  | down | up | nearest
deriving DecidableEq, Repr

/-- `n` units of size `u` are `a`, rounded. -/
def RoundsTo : Direction → K → K → ℕ → Prop
  | .down, a, u, n => n * u ≤ a ∧ a < (n + 1) * u
  | .up, a, u, n => a ≤ n * u ∧ n * u < a + u
  | .nearest, a, u, n => 2 * |a - n * u| < u ∨ (2 * |a - n * u| = u ∧ Even n)

/-- `y` is on the side of `a` that the direction asks for. -/
def Side : Direction → K → K → Prop
  | .down, a, y => y ≤ a
  | .up, a, y => a ≤ y
  | .nearest, _, _ => True

/-- `z` is not better than `y`. -/
def Closer : Direction → K → K → K → Prop
  | .down, a, y, z => z ≤ a → z ≤ y
  | .up, a, y, z => a ≤ z → y ≤ z
  | .nearest, a, y, z => |a - y| ≤ |a - z|

/-- The best value of a set. -/
structure Best (d : Direction) (S : Set K) (a y : K) : Prop where
  mem : y ∈ S
  side : Side d a y
  closer : ∀ z ∈ S, Closer d a y z

variable {d : Direction} {a u v z : K} {n k N : ℕ}

theorem RoundsTo.side (h : RoundsTo d a u n) : Side d a (n * u) := by
  cases d with
  | down => exact h.1
  | up => exact h.1
  | nearest => trivial

theorem RoundsTo.nearest_le (h : RoundsTo .nearest a u n) : 2 * |a - n * u| ≤ u := by
  rcases h with h | h
  · exact h.le
  · exact h.1.le

variable [IsStrictOrderedRing K]

/-- No multiple of the unit is better. -/
theorem RoundsTo.closer_multiple (hu : 0 < u) (h : RoundsTo d a u n) (k : ℕ) :
    Closer d a (n * u) (k * u) := by
  cases d with
  | down =>
    intro hk
    have hlt : (k : K) < n + 1 := lt_of_mul_lt_mul_right (hk.trans_lt h.2) hu.le
    have hle : k ≤ n := Nat.lt_succ_iff.mp (by exact_mod_cast hlt)
    exact mul_le_mul_of_nonneg_right (by exact_mod_cast hle) hu.le
  | up =>
    intro hk
    have hlt : (n : K) < k + 1 := by
      refine lt_of_mul_lt_mul_right ?_ hu.le
      calc n * u < a + u := h.2
        _ ≤ k * u + u := by linarith
        _ = (k + 1) * u := by ring
    have hle : n ≤ k := Nat.lt_succ_iff.mp (by exact_mod_cast hlt)
    exact mul_le_mul_of_nonneg_right (by exact_mod_cast hle) hu.le
  | nearest =>
    have hn := h.nearest_le
    show |a - n * u| ≤ |a - k * u|
    rcases Nat.lt_trichotomy k n with hk | rfl | hk
    · have hstep : (k : K) * u + u ≤ n * u := by
        have : ((k + 1 : ℕ) : K) * u ≤ n * u := mul_le_mul_of_nonneg_right (by exact_mod_cast hk) hu.le
        push_cast at this
        linarith
      have h1 := neg_abs_le (a - n * u)
      have h2 := le_abs_self (a - k * u)
      linarith
    · exact le_refl _
    · have hstep : (n : K) * u + u ≤ k * u := by
        have : ((n + 1 : ℕ) : K) * u ≤ k * u := mul_le_mul_of_nonneg_right (by exact_mod_cast hk) hu.le
        push_cast at this
        linarith
      have h1 := le_abs_self (a - n * u)
      have h2 := neg_abs_le (a - k * u)
      linarith

/-- Nor is a value below a multiple of the unit that is not above `a`. -/
theorem RoundsTo.closer_below (hu : 0 < u) (h : RoundsTo d a u n) (hz : z ≤ k * u) (ha : k * u ≤ a) :
    Closer d a (n * u) z := by
  have hk := h.closer_multiple hu k
  cases d with
  | down => exact fun _ => hz.trans (hk ha)
  | up => exact fun haz => (hk (haz.trans hz)).trans (ha.trans haz)
  | nearest =>
    show |a - n * u| ≤ |a - z|
    calc |a - n * u| ≤ |a - k * u| := hk
      _ = a - k * u := abs_of_nonneg (sub_nonneg.mpr ha)
      _ ≤ a - z := by linarith
      _ ≤ |a - z| := le_abs_self _

/-- Nor is one of `N` multiples of half the unit, when `a` would be rounded to more of them. -/
theorem RoundsTo.closer_finer (hv : 0 < v) (h : RoundsTo d a (2 * v) n) {n' : ℕ} (hfine : RoundsTo d a v n')
    (hN : N < n') (hz : z ≤ N * v) : Closer d a (n * (2 * v)) z := by
  have hu : 0 < 2 * v := by linarith
  have hn' : ((N : K) + 1) * v ≤ n' * v := mul_le_mul_of_nonneg_right (by exact_mod_cast hN) hv.le
  cases d with
  | down =>
    -- Half of `N + 1`, rounded down, is on the coarse grid and still large enough.
    have hhalf : ((N + 1) / 2 : ℕ) * (2 * v) ≤ ((N : K) + 1) * v := by
      have : (N + 1) / 2 * 2 ≤ N + 1 := Nat.div_mul_le_self _ _
      calc (((N + 1) / 2 : ℕ) : K) * (2 * v) = (((N + 1) / 2 * 2 : ℕ) : K) * v := by push_cast; ring
        _ ≤ ((N + 1 : ℕ) : K) * v := mul_le_mul_of_nonneg_right (by exact_mod_cast this) hv.le
        _ = ((N : K) + 1) * v := by push_cast; ring
    have hlarge : (N : K) * v ≤ ((N + 1) / 2 : ℕ) * (2 * v) := by
      have : N ≤ (N + 1) / 2 * 2 := by omega
      calc (N : K) * v ≤ (((N + 1) / 2 * 2 : ℕ) : K) * v :=
            mul_le_mul_of_nonneg_right (by exact_mod_cast this) hv.le
        _ = (((N + 1) / 2 : ℕ) : K) * (2 * v) := by push_cast; ring
    exact h.closer_below hu (hz.trans hlarge) (hhalf.trans (hn'.trans hfine.1))
  | up =>
    intro ha
    have := hfine.2
    linarith
  | nearest =>
    have hn := hfine.nearest_le
    have hlow := neg_abs_le (a - n' * v)
    rcases Nat.even_or_odd' N with ⟨k, rfl | rfl⟩
    · push_cast at hz hn'
      refine h.closer_below (k := k) hu ?_ ?_ <;> linarith
    · push_cast at hz hn'
      have hk := h.closer_multiple hu (k + 1)
      show |a - n * (2 * v)| ≤ |a - z|
      refine le_trans hk ?_
      have h1 := le_abs_self (a - z)
      push_cast
      rw [abs_le]
      constructor <;> linarith

/-- Rounding does not leave a grid that holds the number. -/
theorem RoundsTo.le_of_le (hu : 0 < u) (h : RoundsTo d a u n) (ha : a ≤ N * u) : n ≤ N := by
  have hlt : (n : K) < N + 1 := by
    refine lt_of_mul_lt_mul_right ?_ hu.le
    cases d with
    | down =>
      have := h.1
      linarith
    | up =>
      have := h.2
      linarith
    | nearest =>
      have hn := h.nearest_le
      have := neg_abs_le (a - n * u)
      linarith
  exact Nat.lt_succ_iff.mp (by exact_mod_cast hlt)

/-- Rounding does not fall below a multiple of the unit. -/
theorem RoundsTo.ge_of_ge (hu : 0 < u) (h : RoundsTo d a u n) (ha : N * u ≤ a) : N ≤ n := by
  have hlt : (N : K) < n + 1 := by
    refine lt_of_mul_lt_mul_right ?_ hu.le
    cases d with
    | down =>
      have := h.2
      linarith
    | up =>
      have := h.1
      linarith
    | nearest =>
      have hn := h.nearest_le
      have := le_abs_self (a - n * u)
      linarith
  exact Nat.lt_succ_iff.mp (by exact_mod_cast hlt)

theorem roundsTo_exact (hu : 0 < u) (n : ℕ) : RoundsTo d (n * u) u n := by
  cases d with
  | down => exact ⟨le_refl _, by linarith⟩
  | up => exact ⟨le_refl _, by linarith⟩
  | nearest =>
    refine .inl ?_
    rw [sub_self, abs_zero, mul_zero]
    exact hu

/-- A multiple of the unit is rounded to itself. -/
theorem RoundsTo.eq_of_multiple (hu : 0 < u) (h : RoundsTo d (k * u) u n) : n = k := by
  have hle : n ≤ k := h.le_of_le hu (le_refl _)
  have hge : (k : K) * u ≤ n * u := by
    have hk := h.closer_multiple hu k
    cases d with
    | down => exact hk (le_refl _)
    | up => exact h.1
    | nearest =>
      have habs : |(k : K) * u - n * u| ≤ 0 := by
        refine le_trans hk ?_
        rw [sub_self, abs_zero]
      linarith [le_abs_self ((k : K) * u - n * u)]
  have : k ≤ n := by exact_mod_cast le_of_mul_le_mul_right hge hu
  omega

/-! ## Best values -/

variable {M S : Set K} {y : K}

/-- The best value for a member is the member. -/
theorem Best.eq_of_mem (h : Best d M a y) (ha : a ∈ M) : y = a := by
  have hside := h.side
  have hcloser := h.closer a ha
  cases d with
  | down => exact le_antisymm hside (hcloser (le_refl _))
  | up => exact le_antisymm (hcloser (le_refl _)) hside
  | nearest =>
    have habs : |a - y| ≤ 0 := by
      refine le_trans hcloser ?_
      rw [sub_self, abs_zero]
    have := abs_nonpos_iff.mp habs
    linarith

/-- Values on the other side of zero are not better. -/
theorem Best.extend (h : Best d M a y) (hzero : 0 ∈ M) (ha : 0 ≤ a) (hy : 0 ≤ y) (hyS : y ∈ S)
    (hS : ∀ z ∈ S, z ∈ M ∨ z ≤ 0) : Best d S a y := by
  refine ⟨hyS, h.side, fun z hz => ?_⟩
  rcases hS z hz with hM | hneg
  · exact h.closer z hM
  · have h0 := h.closer 0 hzero
    cases d with
    | down => exact fun _ => hneg.trans hy
    | up =>
      intro haz
      have := h0 (haz.trans hneg)
      linarith
    | nearest =>
      show |a - y| ≤ |a - z|
      calc |a - y| ≤ |a - 0| := h0
        _ = a := by rw [sub_zero, abs_of_nonneg ha]
        _ ≤ a - z := by linarith
        _ ≤ |a - z| := le_abs_self _

/-! ## Division -/

/-- Whether a quotient is rounded up. -/
def increments : Direction → ℕ → ℕ → Bool
  | .down, _, _ => false
  | .up, m, D => decide (m % D ≠ 0)
  | .nearest, m, D => decide (D < 2 * (m % D)) || (decide (2 * (m % D) = D) && decide (m / D % 2 = 1))

def roundDiv (d : Direction) (m D : ℕ) : ℕ := m / D + (increments d m D).toNat

/-- Rounding by division with remainder. -/
theorem roundsTo_roundDiv (d : Direction) (m : ℕ) {D : ℕ} (hD : 0 < D) (hv : 0 < v) :
    RoundsTo d (m * v) (D * v) (roundDiv d m D) := by
  have hm : (m : K) * v = (m / D : ℕ) * (D * v) + (m % D : ℕ) * v := by
    have hsplit : (m : K) = D * (m / D : ℕ) + (m % D : ℕ) := by exact_mod_cast (Nat.div_add_mod m D).symm
    rw [hsplit]
    ring
  have hrem : ((m % D : ℕ) : K) * v < D * v :=
    mul_lt_mul_of_pos_right (by exact_mod_cast Nat.mod_lt m hD) hv
  have hpos : 0 ≤ ((m % D : ℕ) : K) * v := mul_nonneg (Nat.cast_nonneg _) hv.le
  rw [hm, roundDiv]
  cases d with
  | down =>
    simp only [increments, Bool.toNat_false, Nat.add_zero]
    exact ⟨by linarith, by linarith⟩
  | up =>
    by_cases hzero : m % D = 0
    · simp only [increments, hzero, ne_eq, not_true_eq_false, decide_false, Bool.toNat_false, Nat.cast_zero, zero_mul,
        add_zero]
      exact ⟨le_refl _, by linarith⟩
    · have hrem0 : 0 < ((m % D : ℕ) : K) * v :=
        mul_pos (by exact_mod_cast Nat.pos_of_ne_zero hzero) hv
      simp only [increments, ne_eq, hzero, not_false_eq_true, decide_true, Bool.toNat_true]
      have hnext : ((m / D + 1 : ℕ) : K) * (D * v) = (m / D : ℕ) * (D * v) + D * v := by
        push_cast
        ring
      exact ⟨by linarith, by linarith⟩
  | nearest =>
    rcases Nat.lt_trichotomy D (2 * (m % D)) with hgt | heq | hlt
    · -- More than half a unit remains.
      have hmore : (D : K) * v < 2 * ((m % D : ℕ) * v) := by
        have := mul_lt_mul_of_pos_right (show (D : K) < 2 * (m % D : ℕ) by exact_mod_cast hgt) hv
        linarith
      simp only [increments, hgt, decide_true, Bool.true_or, Bool.toNat_true]
      refine .inl ?_
      push_cast
      rw [abs_of_neg (by linarith)]
      linarith
    · have htie : 2 * (((m % D : ℕ) : K) * v) = D * v := by
        have : (D : K) = 2 * (m % D : ℕ) := by exact_mod_cast heq
        rw [this]
        ring
      simp only [increments, ← heq, Nat.lt_irrefl, decide_false, Bool.false_or, decide_true, Bool.true_and]
      rcases Nat.mod_two_eq_zero_or_one (m / D) with heven | hodd
      · simp only [heven, Nat.zero_ne_one, decide_false, Bool.toNat_false, Nat.add_zero]
        refine .inr ⟨?_, Nat.even_iff.mpr heven⟩
        rw [add_sub_cancel_left, abs_of_nonneg hpos, htie]
      · simp only [hodd, decide_true, Bool.toNat_true]
        refine .inr ⟨?_, (Nat.odd_iff.mpr hodd).add_one⟩
        push_cast
        rw [abs_of_neg (by linarith)]
        linarith
    · have hless : 2 * (((m % D : ℕ) : K) * v) < D * v := by
        have := mul_lt_mul_of_pos_right (show 2 * ((m % D : ℕ) : K) < D by exact_mod_cast hlt) hv
        linarith
      have hno : increments .nearest m D = false := by
        simp only [increments, Bool.or_eq_false_iff, Bool.and_eq_false_iff, decide_eq_false_iff_not]
        exact ⟨by omega, .inl (by omega)⟩
      rw [hno]
      refine .inl ?_
      simp only [Bool.toNat_false, Nat.add_zero]
      rw [add_sub_cancel_left, abs_of_nonneg hpos]
      exact hless

/-- A division without remainder is exact, and no other. -/
theorem roundDiv_mul_eq (d : Direction) (m : ℕ) {D : ℕ} (hD : 0 < D) :
    roundDiv d m D * D = m ↔ m % D = 0 := by
  have hm := Nat.div_add_mod' m D
  have hrem := Nat.mod_lt m hD
  unfold roundDiv
  constructor
  · intro h
    rw [Nat.add_mul] at h
    cases hinc : increments d m D with
    | false =>
      rw [hinc, Bool.toNat_false, Nat.zero_mul] at h
      omega
    | true =>
      rw [hinc, Bool.toNat_true, Nat.one_mul] at h
      omega
  · intro hzero
    have hno : increments d m D = false := by
      cases d with
      | down => rfl
      | up => simp [increments, hzero]
      | nearest =>
        simp only [increments, hzero, Bool.or_eq_false_iff, Bool.and_eq_false_iff, decide_eq_false_iff_not]
        exact ⟨by omega, .inl (by omega)⟩
    rw [hno, Bool.toNat_false, Nat.add_zero]
    omega

end UnitRounding
