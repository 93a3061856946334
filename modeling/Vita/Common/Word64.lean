import Mathlib.Data.Nat.Bitwise
import Mathlib.Tactic.Linarith
import Mathlib.Tactic.Ring

/-!
# Arithmetic of 64-bit words

Shifts, masks and two's complement of 64-bit words, as operations on natural numbers.
-/

namespace Word64

variable {x m : UInt64} {n k : ℕ}

theorem toNat_toUInt64 (h : n < 2 ^ 64) : n.toUInt64.toNat = n := by
  rw [Nat.toUInt64_eq, UInt64.toNat_ofNat', Nat.mod_eq_of_lt h]

theorem toNat_count (h : k < 64) : k.toUInt64.toNat % 64 = k := by
  rw [toNat_toUInt64 (by omega), Nat.mod_eq_of_lt h]

theorem toNat_shiftLeft (hk : k < 64) (h : x.toNat * 2 ^ k < 2 ^ 64) :
    (x <<< k.toUInt64).toNat = x.toNat * 2 ^ k := by
  rw [UInt64.toNat_shiftLeft, toNat_count hk, Nat.shiftLeft_eq, Nat.mod_eq_of_lt h]

theorem toNat_shiftRight (hk : k < 64) : (x >>> k.toUInt64).toNat = x.toNat / 2 ^ k := by
  rw [UInt64.toNat_shiftRight, toNat_count hk, Nat.shiftRight_eq_div_pow]

theorem toNat_one_shiftLeft (hk : k < 64) : ((1 : UInt64) <<< k.toUInt64).toNat = 2 ^ k := by
  have hpow : 2 ^ k < 2 ^ 64 := Nat.pow_lt_pow_right (by decide) hk
  rw [toNat_shiftLeft hk (by simpa using hpow)]
  exact Nat.one_mul _

/-- The low bits. -/
theorem toNat_and_mask (hm : m.toNat = 2 ^ n - 1) : (x &&& m).toNat = x.toNat % 2 ^ n := by
  rw [UInt64.toNat_and, hm, Nat.and_two_pow_sub_one_eq_mod]

/-- No high bit is set. -/
theorem and_not_mask_eq_zero (hn : n ≤ 64) (hm : m.toNat = 2 ^ n - 1) :
    x &&& ~~~m = 0 ↔ x.toNat < 2 ^ n := by
  have hx := x.toNat_lt
  have hpos := Nat.two_pow_pos n
  have hbit : ∀ i, (x &&& ~~~m).toNat.testBit i = (x.toNat.testBit i && (decide (i < 64) && !decide (i < n))) := by
    intro i
    rw [UInt64.toNat_and, Nat.testBit_and, UInt64.toNat_not, hm]
    congr 1
    have hsize : UInt64.size - 1 - (2 ^ n - 1) = 2 ^ 64 - ((2 ^ n - 1) + 1) := by
      simp only [UInt64.size]
      omega
    rw [hsize, Nat.testBit_two_pow_sub_succ (show 2 ^ n - 1 < 2 ^ 64 from ?_), Nat.testBit_two_pow_sub_one]
    have : 2 ^ n ≤ 2 ^ 64 := Nat.pow_le_pow_right (by decide) hn
    omega
  rw [← UInt64.toNat_inj]
  constructor
  · intro h
    apply Nat.lt_pow_two_of_testBit
    intro i hi
    have h0 := hbit i
    rw [h, UInt64.toNat_zero, Nat.zero_testBit] at h0
    by_cases hi64 : i < 64
    · simpa [hi64, Nat.not_lt.mpr hi] using h0.symm
    · exact Nat.testBit_lt_two_pow (hx.trans_le (Nat.pow_le_pow_right (by decide) (by omega)))
  · intro h
    apply Nat.eq_of_testBit_eq
    intro i
    rw [hbit, UInt64.toNat_zero, Nat.zero_testBit]
    by_cases hi : i < n
    · simp [hi]
    · rw [Nat.testBit_lt_two_pow (h.trans_le (Nat.pow_le_pow_right (by decide) (by omega))), Bool.false_and]

/-- The highest bit of a number. -/
theorem and_bit_ne_zero (hk : k < 64) (hx : x.toNat < 2 ^ (k + 1)) :
    x &&& (1 <<< k.toUInt64) ≠ 0 ↔ 2 ^ k ≤ x.toNat := by
  have hpos := Nat.two_pow_pos k
  rw [Ne, ← UInt64.toNat_inj, UInt64.toNat_and, toNat_one_shiftLeft hk, Nat.and_two_pow,
    UInt64.toNat_zero, Nat.testBit_eq_decide_div_mod_eq]
  have hdiv : x.toNat / 2 ^ k < 2 := Nat.div_lt_of_lt_mul (by rwa [← Nat.pow_succ])
  have hiff : x.toNat / 2 ^ k % 2 = 1 ↔ 2 ^ k ≤ x.toNat := by
    have hle : 0 < x.toNat / 2 ^ k ↔ 2 ^ k ≤ x.toNat := by
      rw [Nat.lt_iff_add_one_le, Nat.le_div_iff_mul_le hpos, Nat.zero_add, Nat.one_mul]
    rw [← hle]
    generalize x.toNat / 2 ^ k = d at hdiv
    omega
  by_cases h : 2 ^ k ≤ x.toNat
  · simp [hiff.mpr h, h]
  · have h0 : ¬x.toNat / 2 ^ k % 2 = 1 := fun h1 => h (hiff.mp h1)
    simp [h0, h]

/-- Two's complement of a small number. -/
theorem toNat_complement (hn : n ≤ 64) (hm : m.toNat = 2 ^ n - 1) (h0 : 0 < x.toNat)
    (hx : x.toNat ≤ 2 ^ n) : ((~~~x + 1) &&& m).toNat = 2 ^ n - x.toNat := by
  have hlt := x.toNat_lt
  have hpow : 2 ^ n ≤ 2 ^ 64 := Nat.pow_le_pow_right (by decide) hn
  have hneg : (~~~x + 1).toNat = 2 ^ 64 - x.toNat := by
    rw [UInt64.toNat_add, UInt64.toNat_not, UInt64.toNat_one]
    simp only [UInt64.size]
    rw [Nat.mod_eq_of_lt (by omega)]
    omega
  rw [toNat_and_mask hm, hneg]
  have hsplit : 2 ^ 64 - x.toNat = 2 ^ n - x.toNat + 2 ^ n * (2 ^ (64 - n) - 1) := by
    have : 2 ^ n * 2 ^ (64 - n) = 2 ^ 64 := by rw [← Nat.pow_add, Nat.add_sub_cancel' hn]
    rw [Nat.mul_sub, this, Nat.mul_one]
    omega
  rw [hsplit, Nat.add_mul_mod_self_left, Nat.mod_eq_of_lt (by omega)]

/-- Two fields next to each other. -/
theorem toNat_shiftLeft_or {y : UInt64} (hk : k < 64) (hx : x.toNat * 2 ^ k < 2 ^ 64)
    (hy : y.toNat < 2 ^ k) : ((x <<< k.toUInt64) ||| y).toNat = x.toNat * 2 ^ k + y.toNat := by
  rw [UInt64.toNat_or, toNat_shiftLeft hk hx, Nat.mul_comm]
  exact (Nat.two_pow_add_eq_or_of_lt hy _).symm

end Word64
