import Vita.Codec.GeneralSamples
import Mathlib.Data.List.Induction
import Mathlib.Tactic.Linarith

/-!
# Packed samples round trip

The packing fields of a payload do not meet each other, and lie in its extent; within a packing field the
item and its two tags do not meet either. So every bit of the payload belongs to one field of one item, or
to none.

Main results:
- `pack_round_trip`: what `pack` writes, and that `at'` reads the items back;
- `PackedSamples.coordinates_iff_index`: coordinates and index undo each other.
-/

namespace Vita.Codec.General

open Checked BitField

variable {spec : PackingSpec} {structures : ℕ} {limits : Limits} {shape : Shape} {items : List Item}
  {item : Item} {wire : Bytes} {q : ℕ}

/-! ## Specifications and extents -/

/-- A specification that `validate` accepts. -/
structure PackingSpec.Valid (s : PackingSpec) : Prop where
  itemBits_pos : 0 < s.itemBits
  packingBits_le : s.packingBits ≤ 64
  parts_le : s.itemBits + s.channelTagBits + s.eventTagBits ≤ s.packingBits
  vectorSize_pos : 0 < s.vectorSize
  vectorSize_le : s.vectorSize ≤ 65535
  repeatCount_pos : 0 < s.repeatCount
  repeatCount_le : s.repeatCount ≤ 65536
  none_repeatCount : s.repeating = .none → s.repeatCount = 1
  processing_le : s.packing = .processing → s.packingBits ≤ 32

theorem PackingSpec.Valid.of_validate (h : validate spec = .ok ()) : spec.Valid := by
  simp only [validate, bind_eq_ok, rejectIf_eq_ok, not_or, not_and, Nat.not_lt, not_not, gt_iff_lt] at h
  obtain ⟨_, ⟨hi, hi64, hp, hp64, hc, he, hsum, hv, hv65535, hr, hr65536⟩, _, ⟨hnone, hcomp⟩, hproc⟩ := h
  exact ⟨by omega, hp64, hsum, by omega, hv65535, by omega, hr65536, hnone, hproc⟩

theorem PackingSpec.Valid.packingBits_pos (h : spec.Valid) : 0 < spec.packingBits := by
  have := h.itemBits_pos
  have := h.parts_le
  omega

theorem components_pos (kind : SampleKind) : 0 < components kind := by
  cases kind <;> decide

theorem components_le (kind : SampleKind) : components kind ≤ 2 := by
  cases kind <;> decide

theorem checkedMultiply_eq_ok {a b n : ℕ} (h : checkedMultiply a b = .ok n) : n = a * b ∧ n ≤ sizeMax := by
  simp only [checkedMultiply, bind_eq_ok, rejectIf_eq_ok, pure_eq_ok, Except.ok.injEq, gt_iff_lt, not_and,
    Nat.not_lt] at h
  obtain ⟨_, hle, rfl⟩ := h
  refine ⟨rfl, ?_⟩
  rcases Nat.eq_zero_or_pos a with rfl | ha
  · rw [Nat.zero_mul]
    exact Nat.zero_le _
  · exact (Nat.mul_comm a b).le.trans ((Nat.le_div_iff_mul_le ha).mp (hle ha.ne'))

theorem checkedMultiply_of_le {a b : ℕ} (h : a * b ≤ sizeMax) : checkedMultiply a b = .ok (a * b) := by
  unfold checkedMultiply
  rw [rejectIf_of_not]
  · rfl
  · rintro ⟨ha, hb⟩
    have := (Nat.div_lt_iff_lt_mul (Nat.pos_of_ne_zero ha)).mp hb
    rw [Nat.mul_comm] at this
    omega

/-- What `measure` returned. -/
structure Measured (spec : PackingSpec) (structures : ℕ) (limits : Limits) (shape : Shape) : Prop where
  valid : spec.Valid
  structures_eq : shape.structures = structures
  group_eq : shape.itemsPerStructure = spec.vectorSize * spec.repeatCount * components spec.kind
  items_eq : shape.items = structures * shape.itemsPerStructure
  words_eq : ∃ w, words spec shape.items = .ok w ∧ shape.bytes = w * 4
  bytes_le : shape.bytes ≤ sizeMax

theorem Measured.of_measure (h : measure spec structures limits = .ok shape) :
    Measured spec structures limits shape := by
  simp only [measure, bind_eq_ok, rejectIf_eq_ok, pure_eq_ok, Except.ok.injEq] at h
  obtain ⟨_, hvalid, samples, hsamples, group, hgroup, items, hitems, _, -, w, hw, bytes, hbytes, -, -, -,
    -, rfl⟩ := h
  have hsamples := (checkedMultiply_eq_ok hsamples).1
  have hgroup := (checkedMultiply_eq_ok hgroup).1
  have hbytes := checkedMultiply_eq_ok hbytes
  refine ⟨.of_validate hvalid, rfl, ?_, (checkedMultiply_eq_ok hitems).1, ⟨w, hw, hbytes.1⟩, hbytes.2⟩
  rw [hgroup, hsamples]

/-! ## Packing fields -/

/-- The next packing field starts after this one. -/
theorem bitOffset_succ (h : spec.Valid) (i : ℕ) :
    bitOffset spec i + spec.packingBits ≤ bitOffset spec (i + 1) := by
  unfold bitOffset
  cases hmode : spec.packing with
  | link => exact (Nat.succ_mul i spec.packingBits).ge
  | processing =>
    have hper : 0 < 32 / spec.packingBits := Nat.div_pos (h.processing_le hmode) h.packingBits_pos
    have hword : 32 / spec.packingBits * spec.packingBits ≤ 32 := Nat.div_mul_le_self ..
    generalize 32 / spec.packingBits = per at hper hword ⊢
    simp only
    have hmod := Nat.mod_lt i hper
    by_cases hlast : i % per + 1 = per
    · -- The last field of a word: the next one starts the next word.
      have hnext : i + 1 = per * (i / per + 1) := by
        have := Nat.div_add_mod i per
        rw [Nat.mul_add]
        omega
      have hbits : (i % per + 1) * spec.packingBits ≤ 32 := by rwa [hlast]
      rw [hnext, Nat.mul_div_cancel_left _ hper, Nat.mul_mod_right]
      rw [Nat.add_mul, one_mul] at hbits
      omega
    · have hnext : i + 1 = per * (i / per) + (i % per + 1) := by
        have := Nat.div_add_mod i per
        omega
      have hdiv : (i + 1) / per = i / per := by
        rw [hnext, Nat.mul_add_div hper, Nat.div_eq_of_lt (show i % per + 1 < per by omega), Nat.add_zero]
      have hrem : (i + 1) % per = i % per + 1 := by
        rw [hnext, Nat.mul_add_mod, Nat.mod_eq_of_lt (show i % per + 1 < per by omega)]
      rw [hdiv, hrem, Nat.add_mul (i % per), one_mul, Nat.add_assoc]

/-- Packing fields are in order, and do not meet. -/
theorem bitOffset_lt (h : spec.Valid) {i j : ℕ} (hij : i < j) :
    bitOffset spec i + spec.packingBits ≤ bitOffset spec j := by
  induction j, hij using Nat.le_induction with
  | base => exact bitOffset_succ h i
  | succ j _ ih =>
    have := bitOffset_succ h j
    omega

/-- Packing fields lie in the extent. -/
theorem Measured.bitOffset_le (h : Measured spec structures limits shape) {i : ℕ} (hi : i < shape.items) :
    bitOffset spec i + spec.packingBits ≤ 8 * shape.bytes := by
  obtain ⟨w, hw, hbytes⟩ := h.words_eq
  rw [hbytes]
  unfold bitOffset
  unfold words at hw
  cases hmode : spec.packing with
  | link =>
    simp only [hmode, bind_eq_ok, pure_eq_ok, Except.ok.injEq] at hw
    obtain ⟨bits, hbits, rfl⟩ := hw
    have hbits := (checkedMultiply_eq_ok hbits).1
    have hlast : (i + 1) * spec.packingBits ≤ shape.items * spec.packingBits := Nat.mul_le_mul_right _ hi
    have hcover : bits ≤ 32 * (bits / 32 + if bits % 32 ≠ 0 then 1 else 0) := by
      split <;> omega
    rw [Nat.add_mul, one_mul] at hlast
    simp only
    omega
  | processing =>
    simp only [hmode, Except.ok.injEq] at hw
    have hper : 0 < 32 / spec.packingBits :=
      Nat.div_pos (h.valid.processing_le hmode) h.valid.packingBits_pos
    have hword : 32 / spec.packingBits * spec.packingBits ≤ 32 := Nat.div_mul_le_self ..
    generalize 32 / spec.packingBits = per at hper hword hw ⊢
    simp only
    have hmod := Nat.mod_lt i hper
    have hfield : (i % per + 1) * spec.packingBits ≤ per * spec.packingBits := Nat.mul_le_mul_right _ hmod
    have hw' : i / per + 1 ≤ w := by
      rw [← hw]
      have hquot : i / per ≤ shape.items / per := Nat.div_le_div_right hi.le
      split
      · omega
      next hzero =>
        -- The last word is full, so the item lies before its end.
        have hzero : shape.items % per = 0 := by simpa using hzero
        have hitems := Nat.div_add_mod shape.items per
        rw [hzero, Nat.add_zero] at hitems
        have : i / per < shape.items / per := by
          apply Nat.div_lt_of_lt_mul
          rwa [hitems]
        omega
    rw [Nat.add_mul, one_mul] at hfield
    omega

/-! ## Bits written -/

/-- The bits an item sets in the packing field that starts at `bit`. -/
def Item.Sets (spec : PackingSpec) (item : Item) (bit q : ℕ) : Prop :=
  BitField.Sets bit spec.itemBits item.dataBits q ∨
  BitField.Sets (bit + spec.packingBits - spec.channelTagBits) spec.channelTagBits item.channelTag q ∨
  BitField.Sets (bit + spec.packingBits - spec.channelTagBits - spec.eventTagBits) spec.eventTagBits
    item.eventTag q

instance (item : Item) (bit q : ℕ) : Decidable (item.Sets spec bit q) :=
  inferInstanceAs (Decidable (_ ∨ _ ∨ _))

/-- An item sets bits of its packing field only. -/
theorem Item.Sets.mem (h : spec.Valid) {bit : ℕ} (hq : item.Sets spec bit q) :
    bit ≤ q ∧ q < bit + spec.packingBits := by
  have := h.parts_le
  rcases hq with hq | hq | hq <;> obtain ⟨hle, hlt, -⟩ := hq <;> omega

/-- An item is written by setting its bits, and no others. -/
theorem writeItem_spec (item : Item) (h : spec.Valid) {i : ℕ}
    (hinside : bitOffset spec i + spec.packingBits ≤ 8 * wire.length) :
    (writeItem spec wire i item).length = wire.length ∧ ∀ q, bitAt (writeItem spec wire i item) q =
      (bitAt wire q || decide (item.Sets spec (bitOffset spec i) q)) := by
  have := h.parts_le
  unfold writeItem
  have hdata : bitOffset spec i + spec.itemBits ≤ 8 * wire.length := by omega
  have hchannel : bitOffset spec i + spec.packingBits - spec.channelTagBits + spec.channelTagBits ≤
      8 * (writeBits wire (bitOffset spec i) spec.itemBits item.dataBits).length := by
    rw [length_writeBits hdata]
    omega
  have hevent : bitOffset spec i + spec.packingBits - spec.channelTagBits - spec.eventTagBits +
      spec.eventTagBits ≤ 8 * (writeBits (writeBits wire (bitOffset spec i) spec.itemBits item.dataBits)
        (bitOffset spec i + spec.packingBits - spec.channelTagBits) spec.channelTagBits
        item.channelTag).length := by
    rw [length_writeBits hchannel, length_writeBits hdata]
    omega
  refine ⟨?_, fun q => ?_⟩
  · rw [length_writeBits hevent, length_writeBits hchannel, length_writeBits hdata]
  · rw [bitAt_writeBits hevent, bitAt_writeBits hchannel, bitAt_writeBits hdata, Bool.or_assoc,
      Bool.or_assoc, ← Bool.decide_or, ← Bool.decide_or]
    rfl

/-- The bits after all items are written. -/
theorem writeItems_spec (h : spec.Valid)
    (hinside : ∀ i < items.length, bitOffset spec i + spec.packingBits ≤ 8 * wire.length) :
    (writeItems spec wire items).length = wire.length ∧ ∀ q, bitAt (writeItems spec wire items) q = true ↔
      bitAt wire q = true ∨ ∃ i, ∃ item : Item, items[i]? = some item ∧ item.Sets spec (bitOffset spec i) q := by
  induction items using List.reverseRecOn with
  | nil => exact ⟨rfl, fun q => by simp [writeItems]⟩
  | append_singleton items last ih =>
    rw [List.length_append, List.length_singleton] at hinside
    obtain ⟨hlength, hbit⟩ := ih fun i hi => hinside i (by omega)
    have hstep : writeItems spec wire (items ++ [last]) =
        writeItem spec (writeItems spec wire items) items.length last := by
      simp [writeItems, List.zipIdx_append]
    have hlast : bitOffset spec items.length + spec.packingBits ≤ 8 * (writeItems spec wire items).length := by
      rw [hlength]
      exact hinside _ (Nat.lt_succ_self _)
    obtain ⟨hlength', hbit'⟩ := writeItem_spec last h hlast
    rw [hstep]
    refine ⟨hlength'.trans hlength, fun q => ?_⟩
    rw [hbit', Bool.or_eq_true, hbit, decide_eq_true_iff, or_assoc]
    refine or_congr_right ⟨?_, ?_⟩
    · rintro (⟨i, item, hi, hset⟩ | hset)
      · exact ⟨i, item, (List.getElem?_append_left (List.getElem?_eq_some_iff.mp hi).1).trans hi, hset⟩
      · exact ⟨items.length, last, by simp, hset⟩
    · rintro ⟨i, item, hi, hset⟩
      by_cases hlast : i < items.length
      · rw [List.getElem?_append_left hlast] at hi
        exact .inl ⟨i, item, hi, hset⟩
      · have hend := (List.getElem?_eq_some_iff.mp hi).1
        rw [List.length_append, List.length_singleton] at hend
        obtain rfl : i = items.length := by omega
        rw [List.getElem?_append_right (Nat.le_refl _), Nat.sub_self, List.getElem?_cons_zero,
          Option.some.injEq] at hi
        exact .inr (hi ▸ hset)

/-! ## Reading back -/

theorem fits_iff {v : UInt64} {bits : ℕ} (h : bits ≤ 64) : fits v bits = true ↔ v.toNat < 2 ^ bits := by
  have hv := v.toNat_lt
  rw [fits, Bool.or_eq_true, beq_iff_eq, beq_iff_eq, Nat.shiftRight_eq_div_pow,
    Nat.div_eq_zero_iff_lt (Nat.two_pow_pos bits)]
  constructor
  · rintro (rfl | hlt)
    · exact hv
    · exact hlt
  · exact .inr

/-- The items are written into zero bytes that hold all packing fields. -/
structure Written (spec : PackingSpec) (items : List Item) (wire : Bytes) : Prop where
  valid : spec.Valid
  bits : ∀ q, bitAt wire q = true ↔
    ∃ i, ∃ item : Item, items[i]? = some item ∧ item.Sets spec (bitOffset spec i) q

/-- In the packing field of an item are the bits that the item sets. -/
theorem Written.bitAt_eq (h : Written spec items wire) {i : ℕ} (hi : items[i]? = some item)
    (hle : bitOffset spec i ≤ q) (hlt : q < bitOffset spec i + spec.packingBits) :
    bitAt wire q = decide (item.Sets spec (bitOffset spec i) q) := by
  rw [Bool.eq_iff_iff, h.bits, decide_eq_true_iff]
  constructor
  · rintro ⟨j, other, hj, hset⟩
    have hmem := hset.mem h.valid
    -- Another item has another packing field.
    rcases Nat.lt_trichotomy i j with hij | rfl | hji
    · have := bitOffset_lt h.valid hij
      omega
    · obtain rfl : item = other := Option.some.inj (hi.symm.trans hj)
      exact hset
    · have := bitOffset_lt h.valid hji
      omega
  · exact fun hset => ⟨i, item, hi, hset⟩

/-- An item is read back from its packing field. -/
theorem Written.itemAt_eq (h : Written spec items wire) {i : ℕ} (hi : items[i]? = some item)
    (hfits : item.fits spec = true) : PackedSamples.itemAt wire spec (bitOffset spec i) = item := by
  have hparts := h.valid.parts_le
  have h64 := h.valid.packingBits_le
  rw [Item.fits, Bool.and_eq_true, Bool.and_eq_true, fits_iff (by omega), fits_iff (by omega),
    fits_iff (by omega)] at hfits
  obtain ⟨⟨hdata, hchannel⟩, hevent⟩ := hfits
  have hread : ∀ q, bitOffset spec i ≤ q → q < bitOffset spec i + spec.packingBits → ∀ b : Bool,
      (item.Sets spec (bitOffset spec i) q ↔ b = true) → bitAt wire q = b := by
    intro q hle hlt b hb
    rw [h.bitAt_eq hi hle hlt, Bool.eq_iff_iff, decide_eq_true_iff, hb]
  unfold PackedSamples.itemAt
  congr 1
  · refine readBits_eq (by omega) hdata fun b hb => hread _ (by omega) (by omega) _ ⟨?_, ?_⟩
    · rintro (⟨-, -, hbit⟩ | ⟨hle, -, -⟩ | ⟨hle, -, -⟩)
      · rwa [Nat.add_sub_cancel_left] at hbit
      · omega
      · omega
    · exact fun hbit => .inl ⟨by omega, by omega, by rwa [Nat.add_sub_cancel_left]⟩
  · refine readBits_eq (by omega) hchannel fun b hb => hread _ (by omega) (by omega) _ ⟨?_, ?_⟩
    · rintro (⟨-, hlt, -⟩ | ⟨-, -, hbit⟩ | ⟨-, hlt, -⟩)
      · omega
      · rwa [Nat.add_sub_cancel_left] at hbit
      · omega
    · exact fun hbit => .inr (.inl ⟨by omega, by omega, by rwa [Nat.add_sub_cancel_left]⟩)
  · refine readBits_eq (by omega) hevent fun b hb => hread _ (by omega) (by omega) _ ⟨?_, ?_⟩
    · rintro (⟨-, hlt, -⟩ | ⟨hle, -, -⟩ | ⟨-, -, hbit⟩)
      · omega
      · omega
      · rwa [Nat.add_sub_cancel_left] at hbit
    · exact fun hbit => .inr (.inr ⟨by omega, by omega, by rwa [Nat.add_sub_cancel_left]⟩)

/-- Bit `q` belongs to no item and no tag of the first `count` packing fields. -/
def Padding (spec : PackingSpec) (count q : ℕ) : Prop :=
  ∀ i < count,
    ¬(bitOffset spec i ≤ q ∧ q < bitOffset spec i + spec.itemBits) ∧
    ¬(bitOffset spec i + spec.packingBits - spec.channelTagBits - spec.eventTagBits ≤ q ∧
      q < bitOffset spec i + spec.packingBits)

theorem Written.padding (h : Written spec items wire) (hq : Padding spec items.length q) :
    bitAt wire q = false := by
  have hparts := h.valid.parts_le
  rw [Bool.eq_false_iff, Ne, h.bits]
  rintro ⟨i, item, hi, hset⟩
  obtain ⟨hdata, htags⟩ := hq i (List.getElem?_eq_some_iff.mp hi).1
  rcases hset with ⟨hle, hlt, -⟩ | ⟨hle, hlt, -⟩ | ⟨hle, hlt, -⟩ <;> omega

/-- The items of a measured shape fill its bytes. -/
theorem Measured.written (h : Measured spec structures limits shape) (hlength : items.length = shape.items) :
    Written spec items (writeItems spec (List.replicate shape.bytes 0) items) ∧
      (writeItems spec (List.replicate shape.bytes 0) items).length = shape.bytes := by
  have hinside : ∀ i < items.length,
      bitOffset spec i + spec.packingBits ≤ 8 * (List.replicate shape.bytes (0 : UInt8)).length := by
    intro i hi
    rw [List.length_replicate]
    exact h.bitOffset_le (hlength ▸ hi)
  obtain ⟨hlen, hbits⟩ := writeItems_spec h.valid hinside
  rw [List.length_replicate] at hlen
  refine ⟨⟨h.valid, fun q => ?_⟩, hlen⟩
  rw [hbits, bitAt_replicate, Bool.false_eq_true, false_or]

/-! ## Coordinates -/

/-- The coordinates of a shape. -/
structure Coordinates.InRange (x : Coordinates) (spec : PackingSpec) (structures : ℕ) : Prop where
  structure_lt : x.structure' < structures
  time_lt : x.time < spec.repeatCount
  channel_lt : x.channel < spec.vectorSize
  component_lt : x.component < components spec.kind

section Digits

variable {m n x y i : ℕ}

theorem digits_div (hy : y < m) : (x * m + y) / m = x := by
  rw [Nat.mul_comm, Nat.mul_add_div (by omega), Nat.div_eq_of_lt hy, Nat.add_zero]

theorem digits_mod (hy : y < m) : (x * m + y) % m = y := by
  rw [Nat.mul_comm, Nat.mul_add_mod, Nat.mod_eq_of_lt hy]

theorem digits_lt (hx : x < n) (hy : y < m) : x * m + y < n * m := by
  have := Nat.mul_le_mul_right m (Nat.succ_le_of_lt hx)
  rw [Nat.succ_mul] at this
  omega

theorem digits_eq (i m : ℕ) : i / m * m + i % m = i := Nat.div_add_mod' i m

theorem digits_div_lt (h : i < n * m) : i / m < n := Nat.div_lt_of_lt_mul (by rwa [Nat.mul_comm])

end Digits

/-- The items of a structure. -/
def PackingSpec.group (spec : PackingSpec) : ℕ :=
  spec.vectorSize * spec.repeatCount * components spec.kind

/-- The place of an item in its structure, by its offset or by its three coordinates. -/
theorem PackedSamples.position_eq (h : spec.Valid) {offset time channel component : ℕ} :
    (offset < spec.group ∧ position spec offset = (time, channel, component)) ↔
      (time < spec.repeatCount ∧ channel < spec.vectorSize ∧ component < components spec.kind) ∧
        offsetOf spec time channel component = offset := by
  have hc := components_pos spec.kind
  have hr := h.repeatCount_pos
  have hv := h.vectorSize_pos
  have hnone := h.none_repeatCount
  unfold position offsetOf PackingSpec.group
  generalize components spec.kind = c at hc ⊢
  generalize spec.repeatCount = r at hr hnone ⊢
  generalize spec.vectorSize = v at hv ⊢
  cases hmode : spec.repeating with
  | none =>
    obtain rfl : r = 1 := hnone hmode
    simp only [Nat.mul_one, Prod.mk.injEq, Nat.lt_one_iff]
    constructor
    · rintro ⟨hlt, rfl, rfl, rfl⟩
      exact ⟨⟨rfl, digits_div_lt hlt, Nat.mod_lt _ hc⟩, digits_eq offset c⟩
    · rintro ⟨⟨rfl, hchannel, hcomponent⟩, rfl⟩
      exact ⟨digits_lt hchannel hcomponent, rfl, digits_div hcomponent, digits_mod hcomponent⟩
  | channel =>
    simp only [Prod.mk.injEq]
    constructor
    · rintro ⟨hlt, rfl, rfl, rfl⟩
      refine ⟨⟨Nat.mod_lt _ hr, ?_, Nat.mod_lt _ hc⟩, ?_⟩
      · rw [← Nat.div_div_eq_div_mul]
        exact digits_div_lt (digits_div_lt hlt)
      · rw [← Nat.div_div_eq_div_mul, digits_eq, digits_eq]
    · rintro ⟨⟨htime, hchannel, hcomponent⟩, rfl⟩
      refine ⟨digits_lt (digits_lt hchannel htime) hcomponent, ?_, ?_, digits_mod hcomponent⟩
      · rw [digits_div hcomponent, digits_mod htime]
      · rw [← Nat.div_div_eq_div_mul, digits_div hcomponent, digits_div htime]
  | component =>
    simp only [Prod.mk.injEq]
    constructor
    · rintro ⟨hlt, rfl, rfl, rfl⟩
      have hpair : offset / (c * r) * r + offset % r < r * v := by
        rw [Nat.mul_comm c r, ← Nat.div_div_eq_div_mul, Nat.mul_comm r v]
        refine digits_lt (digits_div_lt (digits_div_lt ?_)) (Nat.mod_lt _ hr)
        rwa [Nat.mul_assoc, Nat.mul_comm c r, ← Nat.mul_assoc]
      refine ⟨⟨digits_div_lt hpair, Nat.mod_lt _ hv, Nat.mod_lt _ hc⟩, ?_⟩
      rw [digits_eq, digits_div (Nat.mod_lt _ hr), digits_mod (Nat.mod_lt _ hr), Nat.mul_comm c r,
        ← Nat.div_div_eq_div_mul, digits_eq, digits_eq]
    · rintro ⟨⟨htime, hchannel, hcomponent⟩, rfl⟩
      have hlinear : time * v + channel < v * r := by
        rw [Nat.mul_comm v r]
        exact digits_lt htime hchannel
      have hpair := digits_lt (digits_div_lt hlinear) hcomponent
      have hrem : (time * v + channel) % r < r := Nat.mod_lt _ hr
      have hback : (((time * v + channel) / r * c + component) * r + (time * v + channel) % r) / (c * r) * r +
          (((time * v + channel) / r * c + component) * r + (time * v + channel) % r) % r =
          time * v + channel := by
        rw [Nat.mul_comm c r, ← Nat.div_div_eq_div_mul, digits_div hrem, digits_div hcomponent,
          digits_mod hrem, digits_eq]
      refine ⟨?_, ?_, ?_, ?_⟩
      · rw [Nat.mul_assoc, Nat.mul_comm r c, ← Nat.mul_assoc]
        exact digits_lt hpair hrem
      · rw [hback, digits_div hchannel]
      · rw [hback, digits_mod hchannel]
      · rw [digits_div hrem, digits_mod hcomponent]

/-- What `create` returned. -/
theorem PackedSamples.create_eq_ok {bytes : Bytes} {p : PackedSamples} :
    create bytes spec structures limits = .ok p ↔
      ∃ shape, measure spec structures limits = .ok shape ∧ bytes.length = shape.bytes ∧
        p = { bytes, spec, shape } := by
  simp only [create, bind_eq_ok, rejectIf_eq_ok, pure_eq_ok, Except.ok.injEq, Nat.not_lt, ne_eq, not_not]
  constructor
  · rintro ⟨shape, hshape, _, -, _, hlength, rfl⟩
    exact ⟨shape, hshape, hlength, rfl⟩
  · rintro ⟨shape, hshape, hlength, rfl⟩
    exact ⟨shape, hshape, (), hlength.ge, (), hlength, rfl⟩

section Created

open PackedSamples

variable {bytes : Bytes} {p : PackedSamples} (h : create bytes spec structures limits = .ok p)

include h

/-- An index is given for the coordinates in range. -/
theorem PackedSamples.index_eq_ok {x : Coordinates} {i : ℕ} : p.index x = .ok i ↔
    x.InRange spec structures ∧ x.structure' * spec.group + offsetOf spec x.time x.channel x.component = i := by
  obtain ⟨shape, hshape, -, rfl⟩ := create_eq_ok.mp h
  have hm := Measured.of_measure hshape
  simp only [index, bind_eq_ok, rejectIf_eq_ok, pure_eq_ok, Except.ok.injEq, not_or, ge_iff_le, Nat.not_le,
    hm.structures_eq, hm.group_eq]
  constructor
  · rintro ⟨_, ⟨hs, ht, hch, hcomp⟩, rfl⟩
    exact ⟨⟨hs, ht, hch, hcomp⟩, rfl⟩
  · rintro ⟨⟨hs, ht, hch, hcomp⟩, rfl⟩
    exact ⟨(), ⟨hs, ht, hch, hcomp⟩, rfl⟩

/-- The coordinates of an item exist exactly below the number of items. -/
theorem PackedSamples.coordinates_eq_ok {x : Coordinates} {i : ℕ} : p.coordinates i = .ok x ↔
    i < structures * spec.group ∧ i / spec.group = x.structure' ∧
      position spec (i % spec.group) = (x.time, x.channel, x.component) := by
  obtain ⟨shape, hshape, -, rfl⟩ := create_eq_ok.mp h
  have hm := Measured.of_measure hshape
  have hgroup : shape.itemsPerStructure = spec.group := hm.group_eq
  have hpos : 0 < spec.group :=
    Nat.mul_pos (Nat.mul_pos hm.valid.vectorSize_pos hm.valid.repeatCount_pos) (components_pos _)
  -- The coordinates are below the bounds of the specification, so their casts keep them.
  rcases hx : position spec (i % spec.group) with ⟨time, channel, component⟩
  obtain ⟨⟨htime, hchannel, hcomponent⟩, -⟩ := (position_eq hm.valid).mp ⟨Nat.mod_lt i hpos, hx⟩
  have := hm.valid.repeatCount_le
  have := hm.valid.vectorSize_le
  have := components_le spec.kind
  simp only [coordinates, hm.items_eq, hgroup, hx, bind_eq_ok, rejectIf_eq_ok, pure_eq_ok, Except.ok.injEq,
    ge_iff_le, Nat.not_le, Nat.mod_eq_of_lt (show time < 2 ^ 32 by omega),
    Nat.mod_eq_of_lt (show channel < 2 ^ 32 by omega), Nat.mod_eq_of_lt (show component < 2 ^ 32 by omega)]
  constructor
  · rintro ⟨_, hlt, rfl⟩
    exact ⟨hlt, rfl, rfl⟩
  · rintro ⟨hlt, hs, hplace⟩
    refine ⟨(), hlt, ?_⟩
    rw [Prod.mk.injEq, Prod.mk.injEq] at hplace
    obtain ⟨rfl, rfl, rfl⟩ := hplace
    rw [hs]

/-- Coordinates and index undo each other. -/
theorem PackedSamples.coordinates_iff_index {x : Coordinates} {i : ℕ} :
    p.coordinates i = .ok x ↔ p.index x = .ok i := by
  obtain ⟨shape, hshape, -, -⟩ := create_eq_ok.mp h
  have hvalid := (Measured.of_measure hshape).valid
  have hpos : 0 < spec.group :=
    Nat.mul_pos (Nat.mul_pos hvalid.vectorSize_pos hvalid.repeatCount_pos) (components_pos _)
  rw [coordinates_eq_ok h, index_eq_ok h]
  constructor
  · rintro ⟨hlt, hs, hplace⟩
    obtain ⟨⟨htime, hchannel, hcomponent⟩, hoffset⟩ :=
      (position_eq hvalid).mp ⟨Nat.mod_lt i hpos, hplace⟩
    refine ⟨⟨?_, htime, hchannel, hcomponent⟩, ?_⟩
    · rw [← hs]
      exact digits_div_lt hlt
    · rw [hoffset, ← hs, digits_eq]
  · rintro ⟨⟨hs, htime, hchannel, hcomponent⟩, rfl⟩
    obtain ⟨hlt, hplace⟩ := (position_eq hvalid).mpr ⟨⟨htime, hchannel, hcomponent⟩, rfl⟩
    exact ⟨digits_lt hs hlt, digits_div hlt, by rw [digits_mod hlt, hplace]⟩

/-- Every index of an item has coordinates. -/
theorem PackedSamples.coordinates_exists {i : ℕ} : (∃ x, p.coordinates i = .ok x) ↔ i < p.shape.items := by
  have hitems : p.shape.items = structures * spec.group := by
    obtain ⟨shape, hshape, -, rfl⟩ := create_eq_ok.mp h
    have hm := Measured.of_measure hshape
    rw [hm.items_eq, hm.group_eq]
    rfl
  rw [hitems]
  constructor
  · rintro ⟨x, hx⟩
    exact ((coordinates_eq_ok h).mp hx).1
  · intro hlt
    exact ⟨⟨i / spec.group, _, _, _⟩, (coordinates_eq_ok h).mpr ⟨hlt, rfl, rfl⟩⟩

end Created

/-! ## Main results -/

/-- All that is checked before a packed vector is written. -/
theorem checked_eq_ok {output : Bytes} {overlapping : Bool} :
    checked spec structures items output overlapping limits = .ok shape ↔
      measure spec structures limits = .ok shape ∧ items.length = shape.items ∧
      shape.bytes ≤ output.length ∧ items.length * Item.size ≤ sizeMax ∧ overlapping = false ∧
      ∀ item ∈ items, item.fits spec = true := by
  simp only [checked, bind_eq_ok, rejectIf_eq_ok, pure_eq_ok, Except.ok.injEq, Nat.not_lt, ne_eq, not_not,
    Bool.not_eq_true, List.all_eq_true]
  constructor
  · rintro ⟨_, hshape, _, hlength, _, hbytes, n, hn, _, hoverlap, _, hfits, rfl⟩
    have hn := checkedMultiply_eq_ok hn
    exact ⟨hshape, hlength, hbytes, hn.1 ▸ hn.2, hoverlap, hfits⟩
  · rintro ⟨hshape, hlength, hbytes, hsize, hoverlap, hfits⟩
    exact ⟨shape, hshape, (), hlength, (), hbytes, _, checkedMultiply_of_le hsize, (), hoverlap, (), hfits,
      rfl⟩

/-- A payload that is packed holds its items, and only them; a call that fails changes nothing. The
coordinates of a view of the payload name its items one by one. -/
theorem pack_round_trip (spec : PackingSpec) (structures : ℕ) (limits : Limits) (items : List Item)
    (output : Bytes) (overlapping : Bool) :
    (∀ e, (pack spec structures items output overlapping limits).1 = .error e →
      (pack spec structures items output overlapping limits).2 = output) ∧
    (∀ shape, measure spec structures limits = .ok shape → items.length = shape.items →
      (∀ item ∈ items, item.fits spec = true) → shape.bytes ≤ output.length →
      items.length * Item.size ≤ sizeMax → overlapping = false →
      ∃ wire, pack spec structures items output overlapping limits =
          (.ok shape.bytes, wire ++ output.drop shape.bytes) ∧
        wire.length = shape.bytes ∧ (∀ q, Padding spec shape.items q → bitAt wire q = false) ∧
        ∃ p, PackedSamples.create wire spec structures limits = .ok p ∧
          ∀ i item, items[i]? = some item → p.at' i = .ok item) ∧
    (∀ bytes p, PackedSamples.create bytes spec structures limits = .ok p →
      (∀ i x, p.coordinates i = .ok x ↔ p.index x = .ok i) ∧
      (∀ i, (∃ x, p.coordinates i = .ok x) ↔ i < p.shape.items) ∧
      ∀ x : Coordinates, (∃ i, p.index x = .ok i) ↔ x.InRange spec structures) := by
  refine ⟨?_, ?_, ?_⟩
  · intro e he
    unfold pack at he ⊢
    cases hchecked : checked spec structures items output overlapping limits with
    | error e => rfl
    | ok shape =>
      rw [hchecked] at he
      cases he
  · intro shape hshape hlength hfits hbytes hsize hoverlap
    have hm := Measured.of_measure hshape
    obtain ⟨hwritten, hwire⟩ := hm.written hlength
    refine ⟨writeItems spec (List.replicate shape.bytes 0) items, ?_, hwire, ?_, ?_⟩
    · rw [pack, checked_eq_ok.mpr ⟨hshape, hlength, hbytes, hsize, hoverlap, hfits⟩]
    · intro q hq
      exact hwritten.padding (hlength ▸ hq)
    · refine ⟨_, PackedSamples.create_eq_ok.mpr ⟨shape, hshape, hwire, rfl⟩, fun i item hi => ?_⟩
      obtain ⟨hlt, -⟩ := List.getElem?_eq_some_iff.mp hi
      rw [PackedSamples.at', rejectIf_of_not (by simpa [← hlength] using hlt), ok_bind]
      rw [hwritten.itemAt_eq hi (hfits item (List.mem_of_getElem? hi))]
      rfl
  · intro bytes p hp
    refine ⟨fun i x => PackedSamples.coordinates_iff_index hp, fun i => PackedSamples.coordinates_exists hp,
      fun x => ?_⟩
    constructor
    · rintro ⟨i, hi⟩
      exact ((PackedSamples.index_eq_ok hp).mp hi).1
    · intro hx
      exact ⟨_, (PackedSamples.index_eq_ok hp).mpr ⟨hx, rfl⟩⟩

/-- Two 12-bit items with a channel tag, each in half a word. -/
theorem pack_round_trip_tagged :
    let spec : PackingSpec :=
      { itemBits := 12, packingBits := 16, channelTagBits := 3, packing := .processing, kind := .cartesian }
    let items : List Item := [{ dataBits := 0xabc, channelTag := 5 }, { dataBits := 0x123, channelTag := 2 }]
    ∃ wire, pack spec 1 items (List.replicate 5 0xff) false {} = (.ok 4, wire ++ [0xff]) ∧
      ∃ p, PackedSamples.create wire spec 1 {} = .ok p ∧ p.at' 1 = .ok { dataBits := 0x123, channelTag := 2 } ∧
        (p.coordinates 1 = .ok { component := 1 } ↔ p.index { component := 1 } = .ok 1) := by
  intro spec items
  obtain ⟨-, hpack, hcoordinates⟩ := pack_round_trip spec 1 {} items (List.replicate 5 0xff) false
  obtain ⟨wire, hwire, -, -, p, hp, hat⟩ :=
    hpack ⟨1, 2, 2, 4⟩ (by decide) rfl (by decide) (by decide) (by decide) rfl
  exact ⟨wire, hwire, p, hp, hat 1 _ rfl, (hcoordinates wire p hp).1 1 _⟩

end Vita.Codec.General
