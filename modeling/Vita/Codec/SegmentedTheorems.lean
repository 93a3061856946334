import Vita.Codec.SampleDescriptors
import Vita.Codec.PackedTheorems

/-!
# Segmented access equals contiguous access

The segments of a payload hold the bytes of its pieces at their places in the concatenation, so a bit is
the same in both views. The fields of an item lie in the measured extent, which is the length of the
concatenation: the search for a byte ends in a segment.

Main results:
- `segmented_eq_contiguous`.
-/

namespace Vita.Codec.Samples

open Checked BitField General

variable {maxSegments : ℕ} {pieces : List Bytes} {d : Descriptor} {binding : PayloadBinding}
  {limits : Limits}

/-- A lookup finds the byte of the concatenation. -/
theorem segmentsFrom_spec {extent : ℕ} {segments : List Segment} {total : ℕ}
    (h : segmentsFrom extent pieces = .ok (segments, total)) :
    total = extent + pieces.flatten.length ∧
      ∀ offset, extent ≤ offset → SegmentedSamples.lookup segments extent offset = pieces.flatten[offset - extent]? := by
  induction pieces generalizing extent segments total with
  | nil =>
    obtain ⟨rfl, rfl⟩ := Prod.mk.inj (Except.ok.inj h)
    exact ⟨rfl, fun offset _ => rfl⟩
  | cons bytes pieces ih =>
    rw [segmentsFrom] at h
    rw [List.flatten_cons]
    split at h
    next hempty =>
      rw [List.isEmpty_iff.mp hempty, List.nil_append]
      exact ih h
    next hempty =>
      simp only [bind_eq_ok, rejectIf_eq_ok, pure_eq_ok, Except.ok.injEq, Prod.exists, Prod.mk.injEq] at h
      obtain ⟨_, -, rest, total', hrest, rfl, rfl⟩ := h
      obtain ⟨htotal, hlookup⟩ := ih hrest
      refine ⟨by rw [htotal, List.length_append, Nat.add_assoc], fun offset hle => ?_⟩
      rw [SegmentedSamples.lookup]
      dsimp only
      split
      next hlt =>
        rw [List.getElem?_append_left (by omega)]
      next hge =>
        rw [hlookup offset (by omega), List.getElem?_append_right (by omega), Nat.sub_sub]

/-- The extent of the pieces is refused only when it is too large for a byte count. -/
theorem segmentsFrom_ok {extent : ℕ} (h : extent + pieces.flatten.length ≤ sizeMax) :
    ∃ segments total, segmentsFrom extent pieces = .ok (segments, total) := by
  induction pieces generalizing extent with
  | nil => exact ⟨[], extent, rfl⟩
  | cons bytes pieces ih =>
    rw [List.flatten_cons, List.length_append] at h
    rw [segmentsFrom]
    split
    · exact ih (by omega)
    · have hfits : extent + bytes.length + pieces.flatten.length ≤ sizeMax := by omega
      obtain ⟨segments, total, hrest⟩ := ih hfits
      rw [rejectIf_of_not (by omega), ok_bind, hrest]
      exact ⟨_, _, rfl⟩

/-- What `measurePayload` returned is a measured shape. -/
theorem measure_of_measurePayload {shape : Shape} (h : measurePayload d binding limits = .ok shape) :
    measure d.packing binding.structures limits = .ok shape := by
  simp only [measurePayload, bind_eq_ok, pure_eq_ok, Except.ok.injEq] at h
  obtain ⟨shape', hshape, _, -, rfl⟩ := h
  exact hshape

theorem contiguous_eq_ok {bytes : Bytes} {p : PackedSamples} :
    contiguous bytes d binding limits = .ok p ↔ ∃ shape, measurePayload d binding limits = .ok shape ∧
      bytes.length = shape.bytes ∧ p = { bytes, spec := d.packing, shape } := by
  simp only [contiguous, bind_eq_ok, PackedSamples.create_eq_ok]
  constructor
  · rintro ⟨shape, hshape, shape', hmeasure, hlength, rfl⟩
    obtain rfl := Except.ok.inj (hmeasure.symm.trans (measure_of_measurePayload hshape))
    exact ⟨shape', hshape, hlength, rfl⟩
  · rintro ⟨shape, hshape, hlength, rfl⟩
    exact ⟨shape, hshape, shape, measure_of_measurePayload hshape, hlength, rfl⟩

/-- Segments are accepted where they make up the measured payload. -/
theorem segmented_eq_ok {v : SegmentedSamples} :
    SegmentedSamples.create maxSegments pieces d binding limits = .ok v ↔ pieces.length ≤ maxSegments ∧
      ∃ shape segments, measurePayload d binding limits = .ok shape ∧
        segmentsFrom 0 pieces = .ok (segments, shape.bytes) ∧ v = { segments, descriptor := d, shape } := by
  simp only [SegmentedSamples.create, bind_eq_ok, rejectIf_eq_ok, pure_eq_ok, Except.ok.injEq, Nat.not_lt,
    gt_iff_lt, ne_eq, not_not, Prod.exists]
  constructor
  · rintro ⟨_, hcount, shape, hshape, segments, extent, hsegments, _, -, _, rfl, rfl⟩
    exact ⟨hcount, shape, segments, hshape, hsegments, rfl⟩
  · rintro ⟨hcount, shape, segments, hshape, hsegments, rfl⟩
    exact ⟨(), hcount, shape, hshape, segments, shape.bytes, hsegments, (), Nat.le_refl _, (), rfl, rfl⟩

/-- The segments of a view hold the concatenation. -/
theorem lookup_eq {v : SegmentedSamples} (h : SegmentedSamples.create maxSegments pieces d binding limits = .ok v)
    (offset : ℕ) : SegmentedSamples.lookup v.segments 0 offset = pieces.flatten[offset]? := by
  obtain ⟨-, shape, segments, -, hsegments, rfl⟩ := segmented_eq_ok.mp h
  exact (segmentsFrom_spec hsegments).2 offset (Nat.zero_le offset)

/-- A bit is the same in both views. -/
theorem bit_eq {v : SegmentedSamples} (h : SegmentedSamples.create maxSegments pieces d binding limits = .ok v) :
    v.bit = bitAt pieces.flatten := by
  funext p
  rw [SegmentedSamples.bit, SegmentedSamples.byte, lookup_eq h, bitAt, List.getD_eq_getElem?_getD]

/-- A payload in pieces is viewed exactly when the concatenation is, and both views give the same items; the
search for a byte of an item always ends in a segment. -/
theorem segmented_eq_contiguous (maxSegments : ℕ) (pieces : List Bytes) (hcount : pieces.length ≤ maxSegments)
    (d : Descriptor) (binding : PayloadBinding) (limits : Limits) :
    ((∃ v, SegmentedSamples.create maxSegments pieces d binding limits = .ok v) ↔
      ∃ p, contiguous pieces.flatten d binding limits = .ok p) ∧
    ∀ v p, SegmentedSamples.create maxSegments pieces d binding limits = .ok v →
      contiguous pieces.flatten d binding limits = .ok p →
      (∀ i, v.at' i = p.at' i) ∧
      ∀ i < v.shape.items, ∀ q, bitOffset d.packing i ≤ q → q < bitOffset d.packing i + d.packing.packingBits →
        SegmentedSamples.lookup v.segments 0 (q / 8) ≠ none := by
  refine ⟨⟨?_, ?_⟩, ?_⟩
  · rintro ⟨v, hv⟩
    obtain ⟨-, shape, segments, hshape, hsegments, rfl⟩ := segmented_eq_ok.mp hv
    have hextent := (segmentsFrom_spec hsegments).1
    exact ⟨_, contiguous_eq_ok.mpr ⟨shape, hshape, by omega, rfl⟩⟩
  · rintro ⟨p, hp⟩
    obtain ⟨shape, hshape, hlength, -⟩ := contiguous_eq_ok.mp hp
    have hbytes := (Measured.of_measure (measure_of_measurePayload hshape)).bytes_le
    have hfits : 0 + pieces.flatten.length ≤ sizeMax := by omega
    obtain ⟨segments, total, hsegments⟩ := segmentsFrom_ok hfits
    have hextent := (segmentsFrom_spec hsegments).1
    obtain rfl : total = shape.bytes := by omega
    exact ⟨_, segmented_eq_ok.mpr ⟨hcount, shape, segments, hshape, hsegments, rfl⟩⟩
  · intro v p hv hp
    have hbit := bit_eq hv
    have hlookup := lookup_eq hv
    obtain ⟨-, shape, segments, hshape, hsegments, rfl⟩ := segmented_eq_ok.mp hv
    obtain ⟨shape', hshape', hlength, rfl⟩ := contiguous_eq_ok.mp hp
    obtain rfl := Except.ok.inj (hshape'.symm.trans hshape)
    refine ⟨fun i => ?_, fun i hi q hle hlt hnone => ?_⟩
    · unfold SegmentedSamples.at' PackedSamples.at'
      simp only [SegmentedSamples.read, hbit]
      rfl
    · have hm := Measured.of_measure (measure_of_measurePayload hshape)
      have hinside := hm.bitOffset_le hi
      rw [hlookup, List.getElem?_eq_none_iff] at hnone
      omega

/-- Three pieces, one of them empty, of two 12-bit items. -/
theorem segmented_eq_contiguous_three :
    let d : Descriptor :=
      { wire := 0, packing := { itemBits := 12, packingBits := 12, kind := .cartesian },
        number := .numeric { kind := .signedFixed, bits := 12 }, domain := .time }
    let binding : PayloadBinding := { structures := 1, padding := { policy := .exact, classIdPadBits := some 8 } }
    ∃ v, SegmentedSamples.create 8 [[0xab], [], [0xc1, 0x23, 0]] d binding {} = .ok v := by
  intro d binding
  refine (segmented_eq_contiguous 8 [[0xab], [], [0xc1, 0x23, 0]] (by decide) d binding {}).1.mpr ?_
  exact ⟨{ bytes := [0xab, 0xc1, 0x23, 0], spec := d.packing, shape := ⟨1, 2, 2, 4⟩ }, by decide⟩

end Vita.Codec.Samples
