import Mathlib.Tactic.Common
import Mathlib.Data.List.Basic
import Mathlib.Algebra.Group.Nat.Defs

/-!
# Big-endian 32-bit words in byte strings

A wire format made of 32-bit big-endian words, read at byte offsets. `be32` writes one word,
`wordAt` reads one, and `wordAt_eq_some_iff` says that reading at an offset is the same as splitting
the string there. The remaining lemmas turn the shifts and masks of a packed word into quotients and
remainders, so that `omega` can finish bit-field arithmetic.
-/

namespace Words

/-- The four big-endian bytes of a word. -/
def be32 (w : UInt32) : List UInt8 :=
  [(w >>> 24).toUInt8, (w >>> 16).toUInt8, (w >>> 8).toUInt8, w.toUInt8]

/-- The word whose big-endian bytes are `b₀ b₁ b₂ b₃`. -/
def ofBytes (b₀ b₁ b₂ b₃ : UInt8) : UInt32 :=
  UInt32.ofNat (((b₀.toNat * 256 + b₁.toNat) * 256 + b₂.toNat) * 256 + b₃.toNat)

/-- The word at byte offset `offset`; `none` when it does not lie inside `data`. -/
def wordAt (data : List UInt8) (offset : ℕ) : Option UInt32 :=
  match data.drop offset with
  | b₀ :: b₁ :: b₂ :: b₃ :: _ => some (ofBytes b₀ b₁ b₂ b₃)
  | _ => none

@[simp] theorem length_be32 (w : UInt32) : (be32 w).length = 4 := rfl

theorem toNat_ofBytes (b₀ b₁ b₂ b₃ : UInt8) :
    (ofBytes b₀ b₁ b₂ b₃).toNat =
      ((b₀.toNat * 256 + b₁.toNat) * 256 + b₂.toNat) * 256 + b₃.toNat := by
  have h₀ := b₀.toNat_lt
  have h₁ := b₁.toNat_lt
  have h₂ := b₂.toNat_lt
  have h₃ := b₃.toNat_lt
  rw [ofBytes, UInt32.toNat_ofNat_of_lt']
  simp only [UInt32.size]
  omega

private theorem byte_toNat (w : UInt32) (k : UInt32) :
    (w >>> k).toUInt8.toNat = w.toNat / 2 ^ (k.toNat % 32) % 256 := by
  rw [UInt32.toNat_toUInt8, UInt32.toNat_shiftRight, Nat.shiftRight_eq_div_pow]

/-- Reading back the bytes just written. -/
theorem ofBytes_be32 (w : UInt32) :
    ofBytes (w >>> 24).toUInt8 (w >>> 16).toUInt8 (w >>> 8).toUInt8 w.toUInt8 = w := by
  apply UInt32.toNat_inj.mp
  rw [toNat_ofBytes, byte_toNat, byte_toNat, byte_toNat, UInt32.toNat_toUInt8]
  have h := w.toNat_lt
  simp only [UInt32.reduceToNat, Nat.reduceMod, Nat.reducePow]
  omega

/-- Writing back the word just read. -/
theorem be32_ofBytes (b₀ b₁ b₂ b₃ : UInt8) : be32 (ofBytes b₀ b₁ b₂ b₃) = [b₀, b₁, b₂, b₃] := by
  have h₀ := b₀.toNat_lt
  have h₁ := b₁.toNat_lt
  have h₂ := b₂.toNat_lt
  have h₃ := b₃.toNat_lt
  simp only [be32, List.cons.injEq, and_true]
  refine ⟨?_, ?_, ?_, ?_⟩ <;> apply UInt8.toNat_inj.mp <;>
    simp only [UInt32.toNat_toUInt8, UInt32.toNat_shiftRight, Nat.shiftRight_eq_div_pow,
      toNat_ofBytes, UInt32.reduceToNat, Nat.reduceMod, Nat.reducePow] <;>
    omega

/-- Reading a word at an offset splits the string there. -/
theorem wordAt_eq_some_iff (data : List UInt8) (offset : ℕ) (w : UInt32) :
    wordAt data offset = some w ↔ data.drop offset = be32 w ++ data.drop (offset + 4) := by
  have hdrop : data.drop (offset + 4) = (data.drop offset).drop 4 := by rw [List.drop_drop]
  rw [hdrop, wordAt]
  split
  · next b₀ b₁ b₂ b₃ rest heq =>
    rw [heq]
    constructor
    · intro h
      cases h
      rw [be32_ofBytes]
      rfl
    · intro h
      have h' : [b₀, b₁, b₂, b₃] = be32 w := by
        have hsplit : [b₀, b₁, b₂, b₃] ++ rest = be32 w ++ rest := h
        exact List.append_cancel_right hsplit
      have hw : ofBytes b₀ b₁ b₂ b₃ = w := by
        simp only [be32, List.cons.injEq, and_true] at h'
        obtain ⟨rfl, rfl, rfl, rfl⟩ := h'
        exact ofBytes_be32 w
      rw [hw]
  · next hne =>
    constructor
    · intro h
      cases h
    · intro h
      exact absurd h (hne _ _ _ _ _)

/-- A word lies inside the string as soon as four bytes remain. -/
theorem wordAt_isSome {data : List UInt8} {offset : ℕ} (h : offset + 4 ≤ data.length) :
    ∃ w, wordAt data offset = some w := by
  rw [wordAt]
  split
  · exact ⟨_, rfl⟩
  · next hne =>
    exfalso
    have hlen : 4 ≤ (data.drop offset).length := by
      rw [List.length_drop]
      omega
    match hd : data.drop offset with
    | b₀ :: b₁ :: b₂ :: b₃ :: rest => exact hne _ _ _ _ _ hd
    | [] | [_] | [_, _] | [_, _, _] =>
      rw [hd] at hlen
      simp at hlen

theorem le_length_of_wordAt {data : List UInt8} {offset : ℕ} {w : UInt32}
    (h : wordAt data offset = some w) : offset + 4 ≤ data.length := by
  have hlen := congrArg List.length ((wordAt_eq_some_iff data offset w).mp h)
  simp only [List.length_drop, List.length_append, length_be32] at hlen
  omega

/-- The word written after a prefix is read at the prefix's length. -/
@[simp] theorem wordAt_append (pre : List UInt8) (w : UInt32) (rest : List UInt8) :
    wordAt (pre ++ (be32 w ++ rest)) pre.length = some w := by
  rw [wordAt_eq_some_iff, List.drop_left, ← List.drop_drop, List.drop_left]
  rfl

/-! ## Consecutive pieces of a byte string -/

/-- `bytes` stand in `data` from `start` up to `stop`. -/
structure Segment (data : List UInt8) (start : ℕ) (bytes : List UInt8) (stop : ℕ) : Prop where
  split : data.drop start = bytes ++ data.drop stop
  stop_eq : stop = start + bytes.length
  inside : stop ≤ data.length

namespace Segment

variable {data a b : List UInt8} {i j k : ℕ}

theorem nil (h : i ≤ data.length) : Segment data i [] i := ⟨rfl, rfl, h⟩

@[simp] theorem nil_iff : Segment data i [] j ↔ j = i ∧ i ≤ data.length := by
  constructor
  · intro h
    have hj : j = i := h.stop_eq
    exact ⟨hj, hj ▸ h.inside⟩
  · rintro ⟨rfl, h⟩
    exact nil h

/-- Two consecutive pieces are one. -/
theorem append (h₁ : Segment data i a j) (h₂ : Segment data j b k) :
    Segment data i (a ++ b) k where
  split := by rw [h₁.split, h₂.split, List.append_assoc]
  stop_eq := by
    rw [h₂.stop_eq, h₁.stop_eq, List.length_append, Nat.add_assoc]
  inside := h₂.inside

/-- One piece splits wherever its bytes do. -/
theorem append_iff : Segment data i (a ++ b) k ↔ ∃ j, Segment data i a j ∧ Segment data j b k := by
  constructor
  · intro h
    have hk := h.stop_eq
    rw [List.length_append] at hk
    have hdrop : data.drop (i + a.length) = b ++ data.drop k := by
      rw [← List.drop_drop, h.split, List.append_assoc, List.drop_left]
    refine ⟨i + a.length, ⟨?_, rfl, ?_⟩, ⟨hdrop, by omega, h.inside⟩⟩
    · rw [hdrop, h.split, List.append_assoc]
    · have := h.inside
      omega
  · rintro ⟨j, h₁, h₂⟩
    exact h₁.append h₂

/-- A string is one segment from its start to its end. -/
theorem whole_iff : Segment data 0 a data.length ↔ data = a := by
  constructor
  · intro h
    simpa using h.split
  · rintro rfl
    exact ⟨by simp, by simp, Nat.le_refl _⟩

theorem word_iff {w : UInt32} :
    Segment data i (be32 w) j ↔ wordAt data i = some w ∧ j = i + 4 := by
  constructor
  · intro h
    obtain rfl : j = i + 4 := h.stop_eq
    exact ⟨(wordAt_eq_some_iff data i w).mpr h.split, rfl⟩
  · rintro ⟨h, rfl⟩
    exact ⟨(wordAt_eq_some_iff data i w).mp h, rfl, le_length_of_wordAt h⟩

end Segment

/-! ## Packed words as sums -/

/-- `(w >> low) & (2 ^ width - 1)`. -/
def bits (w : UInt32) (low width : ℕ) : ℕ := w.toNat / 2 ^ low % 2 ^ width

theorem bits_lt (w : UInt32) (low width : ℕ) : bits w low width < 2 ^ width :=
  Nat.mod_lt _ (Nat.two_pow_pos width)

/-- The `n`-th bit of a word, `w & (1u << n)` as a Boolean. -/
def bit (w : UInt32) (n : ℕ) : Bool := w.toNat.testBit n

theorem bit_eq (w : UInt32) (n : ℕ) : bit w n = decide (w.toNat / 2 ^ n % 2 = 1) := by
  rw [bit, Nat.testBit_eq_decide_div_mod_eq]

/-- Disjoint bit fields combine by addition. -/
theorem or_eq_add {a b : ℕ} (k : ℕ) (ha : 2 ^ k ∣ a) (hb : b < 2 ^ k) : a ||| b = a + b := by
  obtain ⟨c, rfl⟩ := ha
  exact (Nat.two_pow_add_eq_or_of_lt hb c).symm

/-- A field `x` shifted by `s` over the fields `y` below it. -/
theorem toNat_pack {a b k : UInt32} {x y : ℕ} (s : ℕ) (ha : a.toNat = x) (hb : b.toNat = y)
    (hk : k.toNat = s) (hs : s < 32) (hx : x * 2 ^ s < 2 ^ 32) (hy : y < 2 ^ s) :
    ((a <<< k) ||| b).toNat = x * 2 ^ s + y := by
  rw [UInt32.toNat_or, UInt32.toNat_shiftLeft, ha, hb, hk, Nat.mod_eq_of_lt hs, Nat.shiftLeft_eq,
    Nat.mod_eq_of_lt hx, or_eq_add s (Nat.dvd_mul_left ..) hy]

/-- Two halves of a word. -/
theorem halves16_eq_iff {b : UInt32} {high low : UInt16} :
    (high.toUInt32 <<< 16) ||| low.toUInt32 = b ↔
      (b >>> 16).toUInt16 = high ∧ b.toUInt16 = low := by
  have hb := b.toNat_lt
  have hi := high.toNat_lt
  have hl := low.toNat_lt
  have hpack : ((high.toUInt32 <<< 16) ||| low.toUInt32).toNat =
      high.toNat * 2 ^ 16 + low.toNat :=
    toNat_pack 16 (UInt16.toNat_toUInt32 high) (UInt16.toNat_toUInt32 low) rfl (by omega)
      (by omega) (by omega)
  have hhigh : (b >>> 16).toUInt16.toNat = b.toNat / 2 ^ 16 % 2 ^ 16 := by
    rw [UInt32.toNat_toUInt16, UInt32.toNat_shiftRight, Nat.shiftRight_eq_div_pow]
    rfl
  rw [← UInt32.toNat_inj, hpack, ← UInt16.toNat_inj, ← UInt16.toNat_inj, hhigh,
    UInt32.toNat_toUInt16]
  omega

/-- Two halves of a double word. -/
theorem halves32_eq_iff {a b : UInt32} {w : UInt64} :
    (a.toUInt64 <<< 32) ||| b.toUInt64 = w ↔
      (w >>> 32).toUInt32 = a ∧ w.toUInt32 = b := by
  have ha := a.toNat_lt
  have hb := b.toNat_lt
  have hf := w.toNat_lt
  have hpack : ((a.toUInt64 <<< 32) ||| b.toUInt64).toNat = a.toNat * 2 ^ 32 + b.toNat := by
    rw [UInt64.toNat_or, UInt64.toNat_shiftLeft, Nat.shiftLeft_eq]
    simp only [UInt32.toNat_toUInt64, UInt64.reduceToNat, Nat.reduceMod]
    rw [Nat.mod_eq_of_lt (by omega), or_eq_add 32 (Nat.dvd_mul_left ..) hb]
  have hhigh : (w >>> 32).toUInt32.toNat = w.toNat / 2 ^ 32 % 2 ^ 32 := by
    rw [UInt64.toNat_toUInt32, UInt64.toNat_shiftRight, Nat.shiftRight_eq_div_pow]
    rfl
  rw [← UInt64.toNat_inj, hpack, ← UInt32.toNat_inj, ← UInt32.toNat_inj, hhigh,
    UInt64.toNat_toUInt32]
  omega

theorem and_shiftLeft_mask (n width low : ℕ) :
    n &&& (2 ^ width - 1) <<< low = n / 2 ^ low % 2 ^ width * 2 ^ low := by
  rw [← Nat.and_two_pow_sub_one_eq_mod, ← Nat.shiftRight_eq_div_pow, ← Nat.shiftLeft_eq]
  apply Nat.eq_of_testBit_eq
  intro i
  simp only [Nat.testBit_and, Nat.testBit_shiftLeft, Nat.testBit_shiftRight]
  by_cases h : i ≥ low <;> simp [h]

/-- A masked bit field is clear exactly when the field is zero. -/
theorem and_mask_eq_zero (w : UInt32) {mask : UInt32} (low width : ℕ)
    (hmask : mask.toNat = (2 ^ width - 1) <<< low) : w &&& mask = 0 ↔ bits w low width = 0 := by
  rw [← UInt32.toNat_inj, UInt32.toNat_and, hmask, and_shiftLeft_mask, UInt32.toNat_zero, bits,
    Nat.mul_eq_zero, or_iff_left]
  exact Nat.ne_of_gt (Nat.two_pow_pos low)

/-- A mask of two parts is clear exactly when both parts are. -/
theorem and_or_eq_zero {w a b : UInt32} (ha : w &&& a = 0) (hb : w &&& b = 0) : w &&& (a ||| b) = 0 := by
  apply UInt32.toNat_inj.mp
  have ha' := congrArg UInt32.toNat ha
  have hb' := congrArg UInt32.toNat hb
  rw [UInt32.toNat_and] at ha' hb'
  rw [UInt32.toNat_and, UInt32.toNat_or, Nat.and_or_distrib_left, ha', hb']
  rfl

theorem toNat_and_mask (w : UInt32) {mask : UInt32} (width : ℕ) (hmask : mask.toNat = 2 ^ width - 1) :
    (w &&& mask).toNat = w.toNat % 2 ^ width := by
  rw [UInt32.toNat_and, hmask, Nat.and_two_pow_sub_one_eq_mod]

theorem toNat_shiftRight_eq (w : UInt32) {k : UInt32} (s : ℕ) (hk : k.toNat = s) (hs : s < 32) :
    (w >>> k).toNat = w.toNat / 2 ^ s := by
  rw [UInt32.toNat_shiftRight, hk, Nat.mod_eq_of_lt hs, Nat.shiftRight_eq_div_pow]

/-- A bit field read by shift and mask. -/
theorem toNat_shiftRight_and_mask (w : UInt32) {k mask : UInt32} (low width : ℕ)
    (hk : k.toNat = low) (hlow : low < 32) (hmask : mask.toNat = 2 ^ width - 1) :
    ((w >>> k) &&& mask).toNat = bits w low width := by
  rw [toNat_and_mask _ width hmask, toNat_shiftRight_eq w low hk hlow, bits]

end Words
