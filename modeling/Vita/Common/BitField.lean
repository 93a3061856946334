import Mathlib.Data.List.Basic
import Mathlib.Data.Nat.Bitwise
import Mathlib.Tactic.Ring

/-!
# Bit fields in a byte string

The bits of a byte string are numbered from the most significant bit of the first byte. A field of up to
64 bits is read bit by bit, and written bit by bit into bytes that are zero there.

Main results:
- `readBits_eq`: a field reads as the number whose bits it has;
- `bitAt_writeBits`: which bits a write sets.
-/

namespace BitField

/-- Bit `p` of a byte string. -/
def bitAt (bytes : List UInt8) (p : ℕ) : Bool :=
  (bytes.getD (p / 8) 0).toNat.testBit (7 - p % 8)

/-- A field of `width` bits, read from a source of bits. -/
def readFrom (bit : ℕ → Bool) (offset width : ℕ) : UInt64 :=
  (List.range width).foldl (fun value b => value <<< 1 ||| (bit (offset + b)).toUInt64) 0

/-- A field of `width` bits. -/
def readBits (bytes : List UInt8) (offset width : ℕ) : UInt64 := readFrom (bitAt bytes) offset width

/-- Bit `p` is set. -/
def setBit (bytes : List UInt8) (p : ℕ) : List UInt8 :=
  bytes.modify (p / 8) (· ||| 1 <<< (7 - p % 8).toUInt8)

/-- The set bits of a value are set in a field of `width` bits. -/
def writeBits (bytes : List UInt8) (offset width : ℕ) (value : UInt64) : List UInt8 :=
  (List.range width).foldl (fun bytes b =>
    if value.toNat.testBit (width - 1 - b) then setBit bytes (offset + b) else bytes) bytes

/-- Bit `q` belongs to the field, and is set in its value. -/
def Sets (offset width : ℕ) (value : UInt64) (q : ℕ) : Prop :=
  offset ≤ q ∧ q < offset + width ∧ value.toNat.testBit (width - 1 - (q - offset))

instance (offset width : ℕ) (value : UInt64) (q : ℕ) : Decidable (Sets offset width value q) :=
  inferInstanceAs (Decidable (_ ∧ _ ∧ _))

variable {bytes : List UInt8} {offset width p q : ℕ} {value : UInt64}

/-! ## Reading -/

theorem readFrom_succ (bit : ℕ → Bool) (offset width : ℕ) : readFrom bit offset (width + 1) =
    readFrom bit offset width <<< 1 ||| (bit (offset + width)).toUInt64 := by
  rw [readFrom, List.range_succ, List.foldl_append]
  rfl

theorem readBits_succ (bytes : List UInt8) (offset width : ℕ) : readBits bytes offset (width + 1) =
    readBits bytes offset width <<< 1 ||| (bitAt bytes (offset + width)).toUInt64 :=
  readFrom_succ _ _ _

/-- One more bit doubles the value. -/
theorem toNat_shift_or {value : UInt64} (b : Bool) (h : value.toNat < 2 ^ 63) :
    (value <<< 1 ||| b.toUInt64).toNat = 2 * value.toNat + b.toNat := by
  have hshift : (value <<< 1).toNat = 2 * value.toNat := by
    rw [UInt64.toNat_shiftLeft, show (1 : UInt64).toNat % 64 = 1 from rfl, Nat.shiftLeft_eq,
      Nat.mod_eq_of_lt (by omega)]
    ring
  have hbit : b.toUInt64.toNat = b.toNat := by cases b <;> rfl
  rw [UInt64.toNat_or, hshift, hbit]
  have := Nat.two_pow_add_eq_or_of_lt (show b.toNat < 2 ^ 1 by cases b <;> decide) value.toNat
  rw [pow_one] at this
  exact this.symm

theorem readBits_lt (h : width ≤ 64) : (readBits bytes offset width).toNat < 2 ^ width := by
  induction width with
  | zero => simp [readBits, readFrom]
  | succ w ih =>
    have hw := ih (by omega)
    have hpow : 2 ^ w ≤ 2 ^ 63 := Nat.pow_le_pow_right (by decide) (by omega)
    rw [readBits_succ, toNat_shift_or _ (by omega), Nat.pow_succ]
    have := Bool.toNat_le (bitAt bytes (offset + w))
    omega

/-- The bits of what was read are those of the field. -/
theorem testBit_readBits (h : width ≤ 64) {i : ℕ} (hi : i < width) :
    (readBits bytes offset width).toNat.testBit i = bitAt bytes (offset + (width - 1 - i)) := by
  induction width generalizing i with
  | zero => omega
  | succ w ih =>
    have hw : (readBits bytes offset w).toNat < 2 ^ w := readBits_lt (by omega)
    have hpow : 2 ^ w ≤ 2 ^ 63 := Nat.pow_le_pow_right (by decide) (by omega)
    rw [readBits_succ, toNat_shift_or _ (by omega)]
    cases i with
    | zero =>
      rw [Nat.add_sub_cancel, Nat.sub_zero, Nat.testBit_zero]
      cases bitAt bytes (offset + w) <;> simp [Nat.add_mod]
    | succ i =>
      rw [Nat.testBit_succ]
      have hhalf : (2 * (readBits bytes offset w).toNat + (bitAt bytes (offset + w)).toNat) / 2 =
          (readBits bytes offset w).toNat := by
        have := Bool.toNat_le (bitAt bytes (offset + w))
        omega
      rw [hhalf, ih (by omega) (by omega)]
      congr 2
      omega

/-- A field reads as the number whose bits it has. -/
theorem readBits_eq (h : width ≤ 64) (hvalue : value.toNat < 2 ^ width)
    (hbits : ∀ b < width, bitAt bytes (offset + b) = value.toNat.testBit (width - 1 - b)) :
    readBits bytes offset width = value := by
  apply UInt64.toNat_inj.mp
  apply Nat.eq_of_testBit_eq
  intro i
  by_cases hi : i < width
  · rw [testBit_readBits h hi, hbits _ (by omega)]
    congr 1
    omega
  · have hpow : 2 ^ width ≤ 2 ^ i := Nat.pow_le_pow_right (by decide) (by omega)
    rw [Nat.testBit_lt_two_pow ((readBits_lt h).trans_le hpow),
      Nat.testBit_lt_two_pow (hvalue.trans_le hpow)]

/-! ## Writing -/

@[simp] theorem length_setBit (bytes : List UInt8) (p : ℕ) : (setBit bytes p).length = bytes.length :=
  List.length_modify ..

/-- A bit that is set, and no other. -/
theorem bitAt_setBit (h : p < 8 * bytes.length) :
    bitAt (setBit bytes p) q = (bitAt bytes q || decide (q = p)) := by
  have hbyte : p / 8 < bytes.length := by omega
  unfold bitAt setBit
  rw [List.getD_eq_getElem?_getD, List.getD_eq_getElem?_getD, List.getElem?_modify]
  by_cases hsame : p / 8 = q / 8
  · have hone : ((1 : UInt8) <<< (7 - p % 8).toUInt8).toNat = 2 ^ (7 - p % 8) := by
      have hall : ∀ m < 8, ((1 : UInt8) <<< (7 - m).toUInt8).toNat = 2 ^ (7 - m) := by decide
      exact hall (p % 8) (Nat.mod_lt _ (by decide))
    simp only [if_pos hsame]
    rw [← hsame, List.getElem?_eq_getElem hbyte, Option.map_eq_map, Option.map_some,
      Option.getD_some, Option.getD_some, UInt8.toNat_or, hone, Nat.testBit_or, Nat.testBit_two_pow]
    congr 1
    rw [decide_eq_decide]
    omega
  · have hne : q ≠ p := by
      rintro rfl
      exact hsame rfl
    simp [hsame, hne]

/-- After some of the bits, these are set and the others are as before. -/
theorem writeBits_foldl (h : offset + width ≤ 8 * bytes.length) {n : ℕ} (hn : n ≤ width) :
    ((List.range n).foldl (fun bytes b => if value.toNat.testBit (width - 1 - b)
      then setBit bytes (offset + b) else bytes) bytes).length = bytes.length ∧
    bitAt ((List.range n).foldl (fun bytes b => if value.toNat.testBit (width - 1 - b)
      then setBit bytes (offset + b) else bytes) bytes) q =
      (bitAt bytes q || decide (offset ≤ q ∧ q < offset + n ∧
        value.toNat.testBit (width - 1 - (q - offset)))) := by
  induction n with
  | zero =>
    refine ⟨rfl, ?_⟩
    have : ¬(offset ≤ q ∧ q < offset + 0 ∧ value.toNat.testBit (width - 1 - (q - offset))) := by omega
    rw [decide_eq_false this, Bool.or_false]
    rfl
  | succ n ih =>
    obtain ⟨hlength, hbit⟩ := ih (by omega)
    rw [List.range_succ, List.foldl_append, List.foldl_cons, List.foldl_nil]
    by_cases hset : value.toNat.testBit (width - 1 - n)
    · rw [if_pos hset, length_setBit, bitAt_setBit (by rw [hlength]; omega), hbit]
      refine ⟨hlength, ?_⟩
      rw [Bool.or_assoc]
      congr 1
      simp only [← Bool.decide_or, decide_eq_decide]
      constructor
      · rintro (⟨hle, hlt, hvalue⟩ | rfl)
        · exact ⟨hle, by omega, hvalue⟩
        · exact ⟨by omega, by omega, by rwa [Nat.add_sub_cancel_left]⟩
      · rintro ⟨hle, hlt, hvalue⟩
        by_cases hq : q = offset + n
        · exact .inr hq
        · exact .inl ⟨hle, by omega, hvalue⟩
    · rw [if_neg hset, hbit]
      refine ⟨hlength, ?_⟩
      congr 1
      simp only [decide_eq_decide]
      constructor
      · rintro ⟨hle, hlt, hvalue⟩
        exact ⟨hle, by omega, hvalue⟩
      · rintro ⟨hle, hlt, hvalue⟩
        refine ⟨hle, ?_, hvalue⟩
        by_contra hlast
        have hq : q - offset = n := by omega
        rw [hq] at hvalue
        exact hset hvalue

@[simp] theorem length_writeBits (h : offset + width ≤ 8 * bytes.length) :
    (writeBits bytes offset width value).length = bytes.length :=
  (writeBits_foldl (q := 0) h (Nat.le_refl width)).1

/-- A write sets the bits of its value, and no other. -/
theorem bitAt_writeBits (h : offset + width ≤ 8 * bytes.length) :
    bitAt (writeBits bytes offset width value) q = (bitAt bytes q || decide (Sets offset width value q)) :=
  (writeBits_foldl h (Nat.le_refl width)).2

/-- The bits of a zero byte string. -/
theorem bitAt_replicate (n : ℕ) : bitAt (List.replicate n 0) q = false := by
  unfold bitAt
  rw [List.getD_eq_getElem?_getD, List.getElem?_replicate]
  split <;> simp

end BitField
