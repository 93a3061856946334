import Vita.Codec.Packet
import Vita.Codec.WireTheorems

/-!
# Structured fields are read back

Every structure that the encoder measures and writes is accepted by the decoder with the same extent,
and its reader returns the value that was written. `Reads` relates a reader to written bytes; the
readers of whole structures are put together from the readers of their members.

Main results:
- `Carries`: what the bytes of a structure have to satisfy;
- `writeStructure_carries`: everything the encoder writes satisfies it.
-/

namespace Vita.Codec

open Words Checked

/-! ## Readers and written bytes -/

/-- Wherever `bytes` stand, `read` yields `a` and the offset after them. -/
def Reads {α : Type} (read : Bytes → ℕ → Decoded (α × ℕ)) (bytes : Bytes) (a : α) : Prop :=
  ∀ data i j, Segment data i bytes j → read data i = .ok (a, j)

section Reads

variable {α : Type} {read : Bytes → ℕ → Decoded (α × ℕ)} {write : α → Bytes}

theorem load32_of_segment {data : Bytes} {i j : ℕ} {w : UInt32} (h : Segment data i (be32 w) j) :
    load32 data i = .ok w :=
  load32_eq_ok.mpr (Segment.word_iff.mp h).1

theorem reads_word (w : UInt32) : Reads readWord (be32 w) w := by
  intro data i j h
  rw [readWord, load32_of_segment h, (Segment.word_iff.mp h).2]
  rfl

theorem reads_unsigned64 (v : UInt64) : Reads readUnsigned64 (writeUnsigned64 v) v := by
  intro data i j h
  obtain ⟨k, hhigh, hlow⟩ := Segment.append_iff.mp h
  obtain rfl := (Segment.word_iff.mp hhigh).2
  obtain rfl := (Segment.word_iff.mp hlow).2
  have hjoin := halves32_eq_iff.mpr (⟨rfl, rfl⟩ : (v >>> 32).toUInt32 = _ ∧ v.toUInt32 = _)
  rw [readUnsigned64, load32_of_segment hhigh, ok_bind, load32_of_segment hlow, ok_bind, hjoin]
  rfl

theorem reads_signed64 (v : Int64) : Reads readSigned64 (writeSigned64 v) v := by
  intro data i j h
  simp [readSigned64, reads_unsigned64 v.toUInt64 data i j h]

theorem reads_pair (v : Int16 × Int16) : Reads readPair (writePair v) v := by
  intro data i j h
  obtain ⟨hhigh, hlow⟩ := halves16_eq_iff.mp (rfl : pair (unsigned16 v.2) (unsigned16 v.1) = _)
  obtain rfl := (Segment.word_iff.mp h).2
  rw [readPair, load32_of_segment h, ok_bind, signed16, signed16, hhigh, hlow]
  rfl

/-- A signed word other than the code of "unknown" is read back. -/
theorem reads_known {v : Option Int32} (h : ∀ x ∈ v, x ≠ 0x7fffffff) :
    Reads readKnown (writeKnown v) v := by
  intro data i j hseg
  obtain rfl := (Segment.word_iff.mp hseg).2
  rw [readKnown, load32_of_segment hseg]
  cases v with
  | none => rfl
  | some x =>
    have hne : x.toUInt32 ≠ 0x7fffffff := by
      intro heq
      exact h x rfl ((congrArg Int32.ofUInt32 heq).trans (by decide))
    simp [hne]

/-- A member is read exactly when it was written. -/
theorem reads_if {o : Option α} (h : ∀ a ∈ o, Reads read (write a) a) :
    Reads (readIf o.isSome read) (o.elim [] write) o := by
  intro data i j hseg
  cases o with
  | none =>
    obtain ⟨rfl, -⟩ := Segment.nil_iff.mp hseg
    rfl
  | some a =>
    rw [Option.isSome_some, readIf, if_pos rfl, h a rfl data i j hseg]
    rfl

/-- A member that stands on the wire under a condition. -/
theorem reads_when {c : Prop} [Decidable c] {bytes : Bytes} {a : α} (h : Reads read bytes a) :
    Reads (readIf (decide c) read) (if c then bytes else []) (if c then some a else none) := by
  intro data i j hseg
  by_cases hc : c
  · rw [if_pos hc] at hseg
    rw [decide_eq_true hc, readIf, if_pos rfl, h data i j hseg, if_pos hc]
    rfl
  · rw [if_neg hc, Segment.nil_iff] at hseg
    obtain ⟨rfl, -⟩ := hseg
    rw [decide_eq_false hc, if_neg hc]
    rfl

/-- A list is read if its elements are. -/
theorem reads_many {l : List α} (h : ∀ a ∈ l, Reads read (write a) a) :
    Reads (fun data i => readMany read data l.length i) (l.flatMap write) l := by
  induction l with
  | nil =>
    intro data i j hseg
    obtain ⟨rfl, -⟩ := Segment.nil_iff.mp hseg
    rfl
  | cons a l ih =>
    intro data i j hseg
    rw [List.flatMap_cons] at hseg
    obtain ⟨k, ha, hl⟩ := Segment.append_iff.mp hseg
    have hrest := ih (fun b hb => h b (List.mem_cons_of_mem _ hb)) data k j hl
    simp only at hrest
    simp only [List.length_cons, readMany, h a (List.mem_cons_self ..) data i k ha, ok_bind, hrest]
    rfl

theorem putWords_eq_flatMap (ws : List UInt32) : putWords ws = ws.flatMap be32 := by
  induction ws with
  | nil => rfl
  | cons w ws ih => rw [putWords_cons, ih, List.flatMap_cons]

theorem reads_words (ws : List UInt32) :
    Reads (fun data i => readMany readWord data ws.length i) (putWords ws) ws := by
  rw [putWords_eq_flatMap]
  exact reads_many fun w _ => reads_word w

end Reads

/-! ## What the bytes of a structure satisfy -/

/-- The typed reader of a structure's field returns the structure. The record structures are read
through views; the start format of a sector scan is on the wire only with a start time. -/
def FieldView.YieldsNative (view : FieldView) : NativeValue → Prop
  | .geolocation v => view.geolocation = .ok v
  | .ephemeris v => view.ephemeris = .ok v
  | .gpsAscii v => view.gpsAscii = .ok v
  | .associations v => view.associations = .ok v
  | .uuid v => view.uuid = .ok v
  | .duration v => view.duration = .ok v
  | .indices v => view.indices = .ok v
  | .spectrum v => view.spectrum = .ok v
  | .pointing v => ∃ w, view.pointingVectors = .ok w ∧ w.global = .ok v.global ∧
      (∃ word, load32 w.bytes 8 = .ok word ∧ bit word 31 = v.recordReference) ∧
      w.size = .ok v.records.length ∧ ∀ i record, v.records[i]? = some record → w.get i = .ok record
  | .sectors v => ∃ w, view.sectors = .ok w ∧ w.selectors = .ok v.selectors ∧
      (bit v.selectors 22 → w.startFormat = v.startFormat) ∧ w.size = .ok v.records.length ∧
      ∀ i record, v.records[i]? = some record → w.get i = .ok record

/-- `piece` carries the structure `v` of the field `id` in packets of the timestamp format `b`: it has
the extent, is accepted and is read as `v`. -/
structure Carries (id : FieldId) (b : TimestampFormatBinding) (piece : Bytes) (extent : FieldExtent)
    (v : NativeValue) : Prop where
  length : piece.length = extent.bytes
  extent : ∀ rest, wireStructureExtent id (piece ++ rest) b = .ok extent
  valid : validateStructureWire id piece b = .ok ()
  yields : ∀ view : FieldView, view.kind = .values → view.attr.base → view.id = id →
    view.bytes = piece → view.timestampFormat = b → view.YieldsNative v

/-- The structures outside CIF1 declare their extent and then pass one more check. -/
theorem plain_valid {id : FieldId} {b : TimestampFormatBinding} {piece : Bytes} {extent : FieldExtent}
    (hcif : ¬cif1Structure id) (hextent : wireStructureExtent id piece b = .ok extent)
    (hlen : piece.length = extent.bytes)
    (hfix : id.cif = 0 ∧ 11 ≤ id.bit ∧ id.bit ≤ 14 → validateFixWire piece = .ok ())
    (hascii : id = Field.gpsAscii → validateAsciiWire piece = .ok ()) :
    validateStructureWire id piece b = .ok () := by
  rw [validateStructureWire, if_neg hcif, hextent, ok_bind, rejectIf_of_not (by omega), ok_bind]
  split
  · next h => exact hfix h
  · split
    · next h => exact hascii h
    · rfl

theorem plain_extent {id : FieldId} {b : TimestampFormatBinding} {bytes : Bytes} {size units : ℕ}
    (hcif : ¬cif1Structure id)
    (hextent : plainExtent id bytes b = .ok { bytes := size, units := units })
    (hlen : size ≤ bytes.length) :
    wireStructureExtent id bytes b = .ok { bytes := size, units := units } := by
  rw [wireStructureExtent, if_neg hcif, hextent, ok_bind, rejectIf_of_not (by simp only; omega)]
  rfl

/-! ## Unique identifiers -/

theorem load32_putWords {ws : List UInt32} {i : ℕ} {w : UInt32} (h : ws[i]? = some w) :
    load32 (putWords ws) (4 * i) = .ok w := by
  obtain ⟨hi, rfl⟩ := List.getElem?_eq_some_iff.mp h
  have hsplit : putWords ws = putWords (ws.take i) ++ (be32 ws[i] ++ putWords (ws.drop (i + 1))) := by
    rw [← putWords_cons, ← putWords_append, List.cons_getElem_drop_succ, List.take_append_drop]
  have hlen : (putWords (ws.take i)).length = 4 * i := by
    rw [length_putWords, List.length_take, Nat.min_eq_left (by omega)]
  rw [hsplit, ← hlen]
  exact load32_eq_ok.mpr (wordAt_append ..)

/-- The words of a UUID carry it. -/
theorem uuid_carries {id : FieldId} (hid : id = Field.controlleeUuid ∨ id = Field.controllerUuid)
    (b : TimestampFormatBinding) (v : UuidValue) :
    Carries id b (putWords [v.words 0, v.words 1, v.words 2, v.words 3]) { bytes := 16, units := 4 }
      (.uuid v) := by
  have hextent : ∀ i, (i = Field.controlleeUuid ∨ i = Field.controllerUuid) → ∀ (c rest),
      wireStructureExtent i (putWords [v.words 0, v.words 1, v.words 2, v.words 3] ++ rest) c =
        .ok { bytes := 16, units := 4 } := by
    rintro i (rfl | rfl) c rest <;>
      exact plain_extent (by decide) rfl (by simp)
  have hvalid : ∀ i, (i = Field.controlleeUuid ∨ i = Field.controllerUuid) → ∀ c,
      validateStructureWire i (putWords [v.words 0, v.words 1, v.words 2, v.words 3]) c = .ok () := by
    intro i hi c
    have h := hextent i hi c []
    rw [List.append_nil] at h
    obtain rfl | rfl := hi <;>
      exact plain_valid (by decide) h (by simp) (fun hf => absurd hf (by decide))
        (fun ha => absurd ha (by decide))
  refine ⟨by simp, hextent id hid b, hvalid id hid b, ?_⟩
  intro view hkind hbase hview hbytes _
  have hholds : view.holds fun i => i = Field.controlleeUuid ∨ i = Field.controllerUuid := by
    simp [FieldView.holds, hkind, hbase, hview, hid]
  have hwords : v.words = ![v.words 0, v.words 1, v.words 2, v.words 3] := by
    funext i
    match i with
    | 0 | 1 | 2 | 3 => rfl
  show view.uuid = .ok v
  rw [FieldView.uuid, rejectIf_of_not (Decidable.not_not.mpr hholds), ok_bind, wireUuid, hbytes,
    hvalid _ (.inl rfl), ok_bind, load32_putWords (i := 0) rfl, ok_bind,
    load32_putWords (i := 1) rfl, ok_bind, load32_putWords (i := 2) rfl, ok_bind,
    load32_putWords (i := 3) rfl, ok_bind, ← hwords]
  rfl

/-! ## Locations and ephemerides -/

/-- What `validateFix` says of an accepted fix. -/
theorem validateFix_eq_ok {oui : UInt32} {fix : EmbeddedFixTime} (h : validateFix oui fix = .ok ()) :
    oui ≤ 0xffffff ∧ fix.tsi ≤ 3 ∧ fix.tsf ≤ 3 := by
  simp only [validateFix, rejectIf_eq_ok, not_or, gt_iff_lt, UInt32.not_lt, UInt8.not_lt] at h
  exact ⟨h.1, h.2.1, h.2.2.1⟩

section Fix

variable {oui : UInt32} {fix : EmbeddedFixTime}

/-- The first word of a fix: its formats above the OUI. -/
def fixHeader (oui : UInt32) (fix : EmbeddedFixTime) : UInt32 :=
  oui ||| (fix.tsi.toUInt32 <<< 26) ||| (fix.tsf.toUInt32 <<< 24)

/-- The header of a fix, as one number. -/
theorem toNat_fixHeader (h : validateFix oui fix = .ok ()) :
    (fixHeader oui fix).toNat = fix.tsi.toNat * 2 ^ 26 + (fix.tsf.toNat * 2 ^ 24 + oui.toNat) := by
  obtain ⟨ho, hi, hf⟩ := validateFix_eq_ok h
  have ho' : oui.toNat ≤ 0xffffff := ho
  have hi' : fix.tsi.toNat ≤ 3 := hi
  have hf' : fix.tsf.toNat ≤ 3 := hf
  have hlow : ((fix.tsf.toUInt32 <<< 24) ||| oui).toNat = fix.tsf.toNat * 2 ^ 24 + oui.toNat :=
    toNat_pack 24 (UInt8.toNat_toUInt32 _) rfl rfl (by omega) (by omega) (by omega)
  rw [fixHeader, UInt32.or_assoc, UInt32.or_comm, UInt32.or_assoc, UInt32.or_comm _ oui,
    UInt32.or_comm oui]
  exact toNat_pack 26 (UInt8.toNat_toUInt32 _) hlow rfl (by omega) (by omega) (by omega)

/-- The header of a fix holds the OUI and the two timestamp codes. -/
theorem fixHeader_fields (h : validateFix oui fix = .ok ()) :
    fixHeader oui fix &&& 0xf0000000 = 0 ∧ fixHeader oui fix &&& 0xffffff = oui ∧
      ((fixHeader oui fix >>> 26) &&& 3).toUInt8 = fix.tsi ∧
      ((fixHeader oui fix >>> 24) &&& 3).toUInt8 = fix.tsf := by
  have hnat := toNat_fixHeader h
  obtain ⟨ho, hi, hf⟩ := validateFix_eq_ok h
  have ho' : oui.toNat ≤ 0xffffff := ho
  have hi' : fix.tsi.toNat ≤ 3 := hi
  have hf' : fix.tsf.toNat ≤ 3 := hf
  refine ⟨?_, ?_, ?_, ?_⟩
  · rw [and_mask_eq_zero _ 28 4 rfl, bits]
    omega
  · apply UInt32.toNat_inj.mp
    rw [toNat_and_mask _ 24 rfl]
    omega
  · apply UInt8.toNat_inj.mp
    rw [UInt32.toNat_toUInt8, toNat_shiftRight_and_mask _ 26 2 rfl (by omega) rfl, bits]
    omega
  · apply UInt8.toNat_inj.mp
    rw [UInt32.toNat_toUInt8, toNat_shiftRight_and_mask _ 24 2 rfl (by omega) rfl, bits]
    omega

variable {data : Bytes} {stop : ℕ}

/-- A fix at the head of a structure is read back. -/
theorem readFix_of_segment (h : validateFix oui fix = .ok ())
    (hseg : Segment data 0 (writeFix oui fix) stop) :
    load32 data 0 = .ok (fixHeader oui fix) ∧ readFix data = .ok fix := by
  obtain ⟨i, hhead, hrest⟩ := Segment.append_iff.mp hseg
  obtain ⟨j, hsec, hfrac⟩ := Segment.append_iff.mp hrest
  obtain rfl : i = 0 + 4 := (Segment.word_iff.mp hhead).2
  have hload : load32 data 0 = .ok (fixHeader oui fix) := load32_of_segment hhead
  obtain ⟨-, -, hi, hf⟩ := fixHeader_fields h
  refine ⟨hload, ?_⟩
  have hseconds := reads_word fix.seconds data 4 j hsec
  have hfractional := reads_unsigned64 fix.fractional data j stop hfrac
  simp only [readFix, hload, ok_bind, hseconds, hfractional, hi, hf, pure_eq_ok]

theorem validateFixWire_of_segment (h : validateFix oui fix = .ok ())
    (hseg : Segment data 0 (writeFix oui fix) stop) : validateFixWire data = .ok () := by
  obtain ⟨hload, hread⟩ := readFix_of_segment h hseg
  obtain ⟨hres, houi, -, -⟩ := fixHeader_fields h
  rw [validateFixWire, hload, ok_bind, rejectIf_of_not (by simp [hres]), ok_bind, hread, ok_bind, houi,
    Result.decoded_eq_ok]
  exact h

end Fix

@[simp] theorem length_writeFix (oui : UInt32) (fix : EmbeddedFixTime) :
    (writeFix oui fix).length = 16 := by
  simp [writeFix, writeUnsigned64]

@[simp] theorem length_writeKnown (v : Option Int32) : (writeKnown v).length = 4 := by
  simp [writeKnown]

theorem not_sentinel_of_numericIn {low high : ℤ} {v : Option Int32} (h : numericIn low high v) :
    ∀ x ∈ v, x ≠ 0x7fffffff := by
  intro x hx
  simp only [numericIn, decide_eq_true_eq] at h
  exact (h x hx).2.2

/-- The members of an accepted location are not the code of "unknown". -/
theorem validateGeolocation_eq_ok {v : GeolocationValue} {current : Bool}
    (h : validateGeolocation v current = .ok ()) :
    validateFix v.oui v.fix = .ok () ∧
      ∀ m ∈ [v.latitudeQ22, v.longitudeQ22, v.altitudeQ5, v.speedQ16, v.headingQ22, v.trackQ22,
        v.magneticVariationQ22], ∀ x ∈ m, x ≠ 0x7fffffff := by
  simp only [validateGeolocation, bind_eq_ok] at h
  obtain ⟨_, hfix, h⟩ := h
  refine ⟨hfix, ?_⟩
  simp only [List.mem_cons, List.not_mem_nil, or_false, forall_eq_or_imp, forall_eq]
  cases current <;>
    simp only [if_true, if_false, Bool.false_eq_true, rejectIf_eq_ok, Decidable.not_not] at h <;>
    exact ⟨not_sentinel_of_numericIn h.1, not_sentinel_of_numericIn h.2.1,
      not_sentinel_of_numericIn h.2.2.1, not_sentinel_of_numericIn h.2.2.2.1,
      not_sentinel_of_numericIn h.2.2.2.2.1, not_sentinel_of_numericIn h.2.2.2.2.2.1,
      not_sentinel_of_numericIn h.2.2.2.2.2.2⟩

/-- A valid geolocation is carried by its eleven words. -/
theorem geolocation_carries {id : FieldId}
    (hid : id = Field.formattedGps ∨ id = Field.formattedIns) (b : TimestampFormatBinding)
    {v : GeolocationValue} {current : Bool} (h : validateGeolocation v current = .ok ()) :
    Carries id b (writeGeolocation v) { bytes := 44, units := 11 } (.geolocation v) := by
  obtain ⟨hfix, hknown⟩ := validateGeolocation_eq_ok h
  simp only [List.mem_cons, List.not_mem_nil, or_false, forall_eq_or_imp, forall_eq] at hknown
  obtain ⟨k₁, k₂, k₃, k₄, k₅, k₆, k₇⟩ := hknown
  have hlen : (writeGeolocation v).length = 44 := by simp [writeGeolocation]
  have hseg : Segment (writeGeolocation v) 0 (writeGeolocation v) 44 :=
    hlen ▸ Segment.whole_iff.mpr rfl
  obtain ⟨o₀, hhead, hseg⟩ := Segment.append_iff.mp hseg
  have hextent : ∀ i, (i = Field.formattedGps ∨ i = Field.formattedIns) → ∀ (c rest),
      wireStructureExtent i (writeGeolocation v ++ rest) c = .ok { bytes := 44, units := 11 } := by
    rintro i (rfl | rfl) c rest <;>
      exact plain_extent (by decide) rfl (by rw [List.length_append]; omega)
  have hvalid : ∀ i, (i = Field.formattedGps ∨ i = Field.formattedIns) → ∀ c,
      validateStructureWire i (writeGeolocation v) c = .ok () := by
    intro i hi c
    have h := hextent i hi c []
    rw [List.append_nil] at h
    obtain rfl | rfl := hi <;>
      exact plain_valid (by decide) h hlen (fun _ => validateFixWire_of_segment hfix hhead)
        (fun ha => absurd ha (by decide))
  refine ⟨hlen, hextent id hid b, hvalid id hid b, ?_⟩
  intro view hkind hbase hview hbytes _
  have hholds : view.holds fun i => i = Field.formattedGps ∨ i = Field.formattedIns := by
    simp [FieldView.holds, hkind, hbase, hview, hid]
  obtain ⟨hload, hread⟩ := readFix_of_segment hfix hhead
  obtain ⟨-, houi, -, -⟩ := fixHeader_fields hfix
  obtain rfl : o₀ = 0 + 16 := by
    have := hhead.stop_eq
    rwa [length_writeFix] at this
  obtain ⟨o₁, s₁, hseg⟩ := Segment.append_iff.mp hseg
  obtain ⟨o₂, s₂, hseg⟩ := Segment.append_iff.mp hseg
  obtain ⟨o₃, s₃, hseg⟩ := Segment.append_iff.mp hseg
  obtain ⟨o₄, s₄, hseg⟩ := Segment.append_iff.mp hseg
  obtain ⟨o₅, s₅, hseg⟩ := Segment.append_iff.mp hseg
  obtain ⟨o₆, s₆, s₇⟩ := Segment.append_iff.mp hseg
  show view.geolocation = .ok v
  rw [FieldView.geolocation, rejectIf_of_not (Decidable.not_not.mpr hholds), ok_bind]
  simp only [wireGeolocation, hbytes, hvalid _ (.inl rfl), hload, hread, ok_bind, houi, pure_eq_ok,
    reads_known k₁ _ 16 o₁ s₁, reads_known k₂ _ _ _ s₂, reads_known k₃ _ _ _ s₃,
    reads_known k₄ _ _ _ s₄, reads_known k₅ _ _ _ s₅, reads_known k₆ _ _ _ s₆,
    reads_known k₇ _ _ _ s₇]

/-- The members of an accepted ephemeris are not the code of "unknown". -/
theorem validateEphemeris_eq_ok {v : EphemerisValue} (h : validateEphemeris v = .ok ()) :
    validateFix v.oui v.fix = .ok () ∧ ∀ i, (∀ x ∈ v.positionQ5 i, x ≠ 0x7fffffff) ∧
      (∀ x ∈ v.attitudeQ22 i, x ≠ 0x7fffffff) ∧ ∀ x ∈ v.velocityQ16 i, x ≠ 0x7fffffff := by
  simp only [validateEphemeris, bind_eq_ok, rejectIf_eq_ok, Decidable.not_not] at h
  obtain ⟨_, hfix, hall⟩ := h
  exact ⟨hfix, fun i => ⟨not_sentinel_of_numericIn (hall i).1, not_sentinel_of_numericIn (hall i).2.1,
    not_sentinel_of_numericIn (hall i).2.2⟩⟩

/-- A triple is read as it was written. -/
theorem reads_triple {v : Fin 3 → Option Int32} (h : ∀ i, ∀ x ∈ v i, x ≠ 0x7fffffff) :
    Reads readTriple (writeTriple v) v := by
  intro data i j hseg
  obtain ⟨o₁, s₁, hseg⟩ := Segment.append_iff.mp hseg
  obtain ⟨o₂, s₂, s₃⟩ := Segment.append_iff.mp hseg
  have hv : ![v 0, v 1, v 2] = v := by
    funext i
    match i with
    | 0 | 1 | 2 => rfl
  simp only [readTriple, reads_known (h 0) _ _ _ s₁, reads_known (h 1) _ _ _ s₂,
    reads_known (h 2) _ _ _ s₃, ok_bind, hv, pure_eq_ok]

/-- A valid ephemeris is carried by its thirteen words. -/
theorem ephemeris_carries {id : FieldId}
    (hid : id = Field.ecefEphemeris ∨ id = Field.relativeEphemeris) (b : TimestampFormatBinding)
    {v : EphemerisValue} (h : validateEphemeris v = .ok ()) :
    Carries id b (writeEphemeris v) { bytes := 52, units := 13 } (.ephemeris v) := by
  obtain ⟨hfix, hknown⟩ := validateEphemeris_eq_ok h
  have hlen : (writeEphemeris v).length = 52 := by simp [writeEphemeris, writeTriple]
  have hseg : Segment (writeEphemeris v) 0 (writeEphemeris v) 52 :=
    hlen ▸ Segment.whole_iff.mpr rfl
  obtain ⟨o₀, hhead, hseg⟩ := Segment.append_iff.mp hseg
  have hextent : ∀ i, (i = Field.ecefEphemeris ∨ i = Field.relativeEphemeris) → ∀ (c rest),
      wireStructureExtent i (writeEphemeris v ++ rest) c = .ok { bytes := 52, units := 13 } := by
    rintro i (rfl | rfl) c rest <;>
      exact plain_extent (by decide) rfl (by rw [List.length_append]; omega)
  have hvalid : ∀ i, (i = Field.ecefEphemeris ∨ i = Field.relativeEphemeris) → ∀ c,
      validateStructureWire i (writeEphemeris v) c = .ok () := by
    intro i hi c
    have h := hextent i hi c []
    rw [List.append_nil] at h
    obtain rfl | rfl := hi <;>
      exact plain_valid (by decide) h hlen (fun _ => validateFixWire_of_segment hfix hhead)
        (fun ha => absurd ha (by decide))
  refine ⟨hlen, hextent id hid b, hvalid id hid b, ?_⟩
  intro view hkind hbase hview hbytes _
  have hholds : view.holds fun i => i = Field.ecefEphemeris ∨ i = Field.relativeEphemeris := by
    simp [FieldView.holds, hkind, hbase, hview, hid]
  obtain ⟨hload, hread⟩ := readFix_of_segment hfix hhead
  obtain ⟨-, houi, -, -⟩ := fixHeader_fields hfix
  obtain rfl : o₀ = 0 + 16 := by
    have := hhead.stop_eq
    rwa [length_writeFix] at this
  obtain ⟨o₁, s₁, hseg⟩ := Segment.append_iff.mp hseg
  obtain ⟨o₂, s₂, s₃⟩ := Segment.append_iff.mp hseg
  show view.ephemeris = .ok v
  rw [FieldView.ephemeris, rejectIf_of_not (Decidable.not_not.mpr hholds), ok_bind]
  simp only [wireEphemeris, hbytes, hvalid _ (.inl rfl), hload, hread, ok_bind, houi, pure_eq_ok,
    reads_triple (fun i => (hknown i).1) _ 16 o₁ s₁, reads_triple (fun i => (hknown i).2.1) _ _ _ s₂,
    reads_triple (fun i => (hknown i).2.2) _ _ _ s₃]

/-! ## Sentences -/

/-- A text without zeros has no padding. -/
theorem foldlM_asciiStep_text {text : Bytes} (h : ∀ c ∈ text, ¬(c = 0 ∨ c > 127)) :
    text.foldlM asciiStep 0 = .ok 0 := by
  induction text with
  | nil => rfl
  | cons c text ih =>
    have hc := not_or.mp (h c (List.mem_cons_self ..))
    have hstep : asciiStep 0 c = .ok 0 := by
      rw [asciiStep, if_neg hc.1, rejectIf_of_not (by simpa using hc.2)]
      rfl
    rw [List.foldlM_cons, hstep, ok_bind]
    exact ih fun d hd => h d (List.mem_cons_of_mem _ hd)

theorem foldlM_asciiStep_padding (k pad : ℕ) :
    (List.replicate k (0 : UInt8)).foldlM asciiStep pad = .ok (pad + k) := by
  induction k generalizing pad with
  | zero => rfl
  | succ k ih =>
    rw [List.replicate_succ, List.foldlM_cons, asciiStep, if_pos rfl, pure_eq_ok, ok_bind, ih]
    congr 1
    omega

theorem rdropWhile_padding {text : Bytes} (h : ∀ c ∈ text, ¬(c = 0 ∨ c > 127)) (k : ℕ) :
    (text ++ List.replicate k 0).rdropWhile (· = 0) = text := by
  induction k with
  | zero =>
    rw [List.replicate_zero, List.append_nil, List.rdropWhile_eq_self_iff]
    intro hne
    simpa using (not_or.mp (h _ (List.getLast_mem hne))).1
  | succ k ih =>
    rw [List.replicate_succ', ← List.append_assoc, List.rdropWhile_concat_pos _ _ _ (by simp), ih]

theorem load32_second (a b : UInt32) (body : Bytes) : load32 (be32 a ++ (be32 b ++ body)) 4 = .ok b :=
  load32_eq_ok.mpr (wordAt_append (be32 a) b body)

/-- The extent a sentence declares. -/
theorem ascii_extent {oui second : UInt32} {body : Bytes} (houi : oui ≤ 0xffffff)
    (hroom : second.toNat * 4 ≤ body.length) (b : TimestampFormatBinding) :
    wireStructureExtent Field.gpsAscii (be32 oui ++ (be32 second ++ body)) b =
      .ok { bytes := 8 + second.toNat * 4, units := second.toNat * 4 + 2 } := by
  have hword := second.toNat_lt
  have hreserved : oui &&& 0xff000000 = 0 := by
    have houi' : oui.toNat ≤ 0xffffff := houi
    rw [and_mask_eq_zero _ 24 8 rfl, bits]
    omega
  have hadd : checkedAdd (second.toNat * 4) 8 = .ok (8 + second.toNat * 4) := by
    rw [checkedAdd_eq_ok]
    simp only [sizeMax]
    omega
  have hlen : 8 + second.toNat * 4 ≤ (be32 oui ++ (be32 second ++ body)).length := by
    simp only [List.length_append, length_be32]
    omega
  refine plain_extent (by decide) ?_ hlen
  show variableExtent Field.gpsAscii _ = _
  rw [variableExtent, rejectIf_of_not (by omega), ok_bind, load32_be32, ok_bind, load32_second, ok_bind,
    if_pos rfl, rejectIf_of_not (by simp [hreserved]), ok_bind, checkedMultiply_word]
  simp only [Result.decoded, ok_bind, hadd, pure_eq_ok]

/-- A sentence is carried with its padding, and the padding is read as zero. -/
theorem gpsAscii_carries (b : TimestampFormatBinding) {v : GpsAsciiValue} {extent : FieldExtent}
    (h : asciiExtent v = .ok extent) (hsmall : v.text.length < 2 ^ 32) :
    Carries Field.gpsAscii b (writeAscii v extent.bytes) extent (.gpsAscii v) := by
  simp only [asciiExtent, bind_eq_ok, validateAscii, rejectIf_eq_ok, checkedAdd_eq_ok, pure_eq_ok,
    Except.ok.injEq, not_or, not_exists, not_and, gt_iff_lt, UInt32.not_lt] at h
  obtain ⟨_, ⟨houi, htext⟩, _, ⟨-, rfl⟩, _, ⟨-, rfl⟩, rfl⟩ := h
  have hchars : ∀ c ∈ v.text, ¬(c = 0 ∨ c > 127) := fun c hc => by
    simpa using htext c hc
  obtain ⟨second, hword, hsecond⟩ : ∃ second : UInt32,
      UInt32.ofNat ((v.text.length + 3) / 4) = second ∧ second.toNat = (v.text.length + 3) / 4 := by
    refine ⟨_, rfl, UInt32.toNat_ofNat_of_lt' ?_⟩
    simp only [UInt32.size]
    omega
  obtain ⟨pad, hpad⟩ : ∃ pad, 8 + (v.text.length + 3) / 4 * 4 - 8 - v.text.length = pad := ⟨_, rfl⟩
  have hpiece : writeAscii v (8 + (v.text.length + 3) / 4 * 4) =
      be32 v.oui ++ (be32 second ++ (v.text ++ List.replicate pad 0)) := by
    rw [writeAscii, hword, hpad]
  have hextent : ∀ c rest, wireStructureExtent Field.gpsAscii
      (be32 v.oui ++ (be32 second ++ (v.text ++ List.replicate pad 0)) ++ rest) c =
        .ok { bytes := 8 + (v.text.length + 3) / 4 * 4
              units := 8 + (v.text.length + 3) / 4 * 4 - 6 } := by
    intro c rest
    rw [List.append_assoc, List.append_assoc, ascii_extent houi _ c, hsecond]
    · congr 2
      omega
    · simp only [List.length_append, List.length_replicate]
      omega
  have hlen : (be32 v.oui ++ (be32 second ++ (v.text ++ List.replicate pad 0))).length =
      8 + (v.text.length + 3) / 4 * 4 := by
    simp only [List.length_append, length_be32, List.length_replicate]
    omega
  have hdrop : (be32 v.oui ++ (be32 second ++ (v.text ++ List.replicate pad 0))).drop 8 =
      v.text ++ List.replicate pad 0 := by
    rw [← List.append_assoc]
    exact List.drop_left' rfl
  have hascii : validateAsciiWire (be32 v.oui ++ (be32 second ++ (v.text ++ List.replicate pad 0))) =
      .ok () := by
    rw [validateAsciiWire, hdrop, List.foldlM_append, foldlM_asciiStep_text hchars, ok_bind,
      foldlM_asciiStep_padding, ok_bind, rejectIf_of_not (by omega)]
  have hvalid : ∀ c, validateStructureWire Field.gpsAscii
      (be32 v.oui ++ (be32 second ++ (v.text ++ List.replicate pad 0))) c = .ok () := by
    intro c
    have h := hextent c []
    rw [List.append_nil] at h
    exact plain_valid (by decide) h hlen (fun hf => absurd hf (by decide)) fun _ => hascii
  simp only [hpiece]
  refine ⟨hlen, hextent b, hvalid b, ?_⟩
  intro view hkind hbase hview hbytes _
  have hholds : view.holds (· = Field.gpsAscii) := by simp [FieldView.holds, hkind, hbase, hview]
  have hmask : v.oui &&& 0xffffff = v.oui := by
    have houi' : v.oui.toNat ≤ 0xffffff := houi
    apply UInt32.toNat_inj.mp
    rw [toNat_and_mask _ 24 rfl]
    omega
  show view.gpsAscii = .ok v
  rw [FieldView.gpsAscii, rejectIf_of_not (Decidable.not_not.mpr hholds), ok_bind, wireAscii, hbytes,
    hvalid, ok_bind, load32_be32, ok_bind, hdrop, hmask, rdropWhile_padding hchars]
  rfl

/-! ## Association lists -/

/-- The first word of an association list: the source and system counts. -/
theorem associations_first {source system : ℕ} (hs : source ≤ 511) (hy : system ≤ 511) :
    ∃ w, UInt32.ofNat ((source <<< 16) ||| system) = w ∧ w &&& 0xfe00fe00 = 0 ∧
      bits w 16 9 = source ∧ bits w 0 9 = system := by
  have hor : (source <<< 16) ||| system = source * 2 ^ 16 + system := by
    rw [Nat.shiftLeft_eq, or_eq_add 16 (Nat.dvd_mul_left ..) (by omega)]
  have hnat : (UInt32.ofNat ((source <<< 16) ||| system)).toNat = source * 2 ^ 16 + system := by
    rw [hor, UInt32.toNat_ofNat_of_lt']
    simp only [UInt32.size]
    omega
  generalize UInt32.ofNat ((source <<< 16) ||| system) = w at hnat
  refine ⟨w, rfl, ?_, ?_, ?_⟩
  · have hhigh : w &&& 0xfe000000 = 0 := by
      rw [and_mask_eq_zero _ 25 7 rfl, bits]
      omega
    have hlow : w &&& 0xfe00 = 0 := by
      rw [and_mask_eq_zero _ 9 7 rfl, bits]
      omega
    have hmask : (0xfe00fe00 : UInt32) = 0xfe000000 ||| 0xfe00 := by decide
    rw [hmask]
    exact and_or_eq_zero hhigh hlow
  · rw [bits]
    omega
  · rw [bits]
    omega

/-- The second word: the vector count, the tag flag and the asynchronous count. -/
theorem associations_second {vector asynchronous : ℕ} (tags : Bool) (hv : vector ≤ 65535)
    (ha : asynchronous ≤ 32767) :
    ∃ w, UInt32.ofNat ((vector <<< 16) ||| (if tags then 0x8000 else 0) ||| asynchronous) = w ∧
      (w >>> 16).toNat = vector ∧ bit w 15 = tags ∧ bits w 0 15 = asynchronous := by
  have hor : (vector <<< 16) ||| (if tags then 0x8000 else 0) ||| asynchronous =
      vector * 2 ^ 16 + ((if tags then 1 else 0) * 2 ^ 15 + asynchronous) := by
    have hflag : (if tags then 0x8000 else 0) ||| asynchronous =
        (if tags then 1 else 0) * 2 ^ 15 + asynchronous := by
      have hdvd : 2 ^ 15 ∣ (if tags then 0x8000 else 0) := by cases tags <;> decide
      rw [or_eq_add 15 hdvd (by omega)]
      cases tags <;> rfl
    have hsmall : (if tags then 1 else 0) * 2 ^ 15 + asynchronous < 2 ^ 16 := by
      cases tags <;> simp <;> omega
    rw [Nat.or_assoc, hflag, Nat.shiftLeft_eq, or_eq_add 16 (Nat.dvd_mul_left ..) hsmall]
  obtain ⟨t, ht⟩ : ∃ t, (if tags then 1 else 0) = t := ⟨_, rfl⟩
  have hbound : t ≤ 1 := by
    rw [← ht]
    cases tags <;> decide
  have hnat : (UInt32.ofNat ((vector <<< 16) ||| (if tags then 0x8000 else 0) ||| asynchronous)).toNat =
      vector * 2 ^ 16 + (t * 2 ^ 15 + asynchronous) := by
    rw [hor, ht, UInt32.toNat_ofNat_of_lt']
    simp only [UInt32.size]
    omega
  generalize UInt32.ofNat ((vector <<< 16) ||| (if tags then 0x8000 else 0) ||| asynchronous) = w at hnat
  refine ⟨w, rfl, ?_, ?_, ?_⟩
  · rw [toNat_shiftRight_eq w 16 rfl (by omega)]
    omega
  · rw [bit_eq]
    have hdiv : w.toNat / 2 ^ 15 % 2 = t := by omega
    rw [hdiv, ← ht]
    cases tags <;> rfl
  · rw [bits]
    omega

/-- The words after the two counts of an association list. -/
def associationBody (v : AssociationLists) : Bytes :=
  putWords v.source ++ (putWords v.system ++ (putWords v.vector ++
    (putWords v.asynchronous ++ putWords v.tags)))

/-- The association lists are carried one after the other, with their counts in front. -/
theorem associations_carries (b : TimestampFormatBinding) {v : AssociationLists}
    {extent : FieldExtent} (h : associationsExtent v = .ok extent) :
    Carries Field.contextAssociationLists b (writeAssociations v) extent (.associations v) := by
  simp only [associationsExtent, bind_eq_ok, rejectIf_eq_ok, pure_eq_ok, Except.ok.injEq, not_or,
    Nat.not_lt, gt_iff_lt] at h
  obtain ⟨_, ⟨-, -, hvec, hasync, -⟩, _, ⟨-, hsrc, hsys, htags⟩, rfl⟩ := h
  obtain ⟨first, hfirst, hreserved, hsource, hsystem⟩ := associations_first hsrc hsys
  obtain ⟨second, hsecond, hvector, htag, hasynchronous⟩ :=
    associations_second v.tagsPresent (by omega : v.vector.length ≤ 65535)
      (by omega : v.asynchronous.length ≤ 32767)
  have htaglen : (if v.tagsPresent then v.asynchronous.length else 0) = v.tags.length := by
    by_cases hp : v.tagsPresent
    · rw [if_pos hp] at htags ⊢
      exact (Decidable.not_not.mp htags).symm
    · rw [if_neg hp] at htags ⊢
      exact (Decidable.not_not.mp htags).symm
  have hpiece : writeAssociations v = be32 first ++ (be32 second ++ associationBody v) := by
    rw [writeAssociations, hfirst, hsecond, associationBody]
  have hbody : (associationBody v).length = 4 * v.count := by
    simp only [associationBody, List.length_append, length_putWords, AssociationLists.count]
    omega
  have hlen : (be32 first ++ (be32 second ++ associationBody v)).length = 8 + 4 * v.count := by
    simp only [List.length_append, length_be32, hbody]
    omega
  have hextent : ∀ c rest, wireStructureExtent Field.contextAssociationLists
      (be32 first ++ (be32 second ++ associationBody v) ++ rest) c =
        .ok { bytes := 8 + 4 * v.count, units := 2 + v.count } := by
    intro c rest
    refine plain_extent (by decide) ?_ (by rw [List.length_append, hlen]; omega)
    have hshort : ¬(be32 first ++ (be32 second ++ associationBody v) ++ rest).length < 8 := by
      rw [List.length_append, hlen]
      omega
    show variableExtent Field.contextAssociationLists _ = _
    rw [variableExtent, rejectIf_of_not hshort, ok_bind, List.append_assoc, List.append_assoc,
      load32_be32, ok_bind, load32_second, ok_bind, if_neg (by decide), if_pos rfl,
      rejectIf_of_not (by simp [hreserved]), ok_bind, hsource, hsystem, hvector, htag, hasynchronous,
      htaglen]
    rfl
  have hvalid : ∀ c, validateStructureWire Field.contextAssociationLists
      (be32 first ++ (be32 second ++ associationBody v)) c = .ok () := by
    intro c
    have h := hextent c []
    rw [List.append_nil] at h
    exact plain_valid (by decide) h hlen (fun hf => absurd hf (by decide)) fun ha => absurd ha (by decide)
  simp only [hpiece]
  refine ⟨hlen, hextent b, hvalid b, ?_⟩
  intro view hkind hbase hview hbytes _
  have hholds : view.holds (· = Field.contextAssociationLists) := by
    simp [FieldView.holds, hkind, hbase, hview]
  have hseg : Segment view.bytes 0 (be32 first ++ (be32 second ++ associationBody v))
      view.bytes.length := Segment.whole_iff.mpr hbytes
  obtain ⟨o₁, s₁, hseg⟩ := Segment.append_iff.mp hseg
  obtain ⟨o₂, s₂, hseg⟩ := Segment.append_iff.mp hseg
  obtain rfl : o₁ = 0 + 4 := (Segment.word_iff.mp s₁).2
  obtain rfl : o₂ = 0 + 4 + 4 := (Segment.word_iff.mp s₂).2
  obtain ⟨o₃, s₃, hseg⟩ := Segment.append_iff.mp hseg
  obtain ⟨o₄, s₄, hseg⟩ := Segment.append_iff.mp hseg
  obtain ⟨o₅, s₅, hseg⟩ := Segment.append_iff.mp hseg
  obtain ⟨o₆, s₆, s₇⟩ := Segment.append_iff.mp hseg
  have r₃ := reads_words v.source _ 8 _ s₃
  have r₄ := reads_words v.system _ _ _ s₄
  have r₅ := reads_words v.vector _ _ _ s₅
  have r₆ := reads_words v.asynchronous _ _ _ s₆
  have r₇ := reads_words v.tags _ _ _ s₇
  have hfirst' : load32 view.bytes 0 = .ok first := load32_of_segment s₁
  have hsecond' : load32 view.bytes 4 = .ok second := load32_of_segment s₂
  show view.associations = .ok v
  rw [FieldView.associations, rejectIf_of_not (Decidable.not_not.mpr hholds), ok_bind,
    wireAssociations, hbytes, hvalid, ok_bind, ← hbytes]
  simp only [hfirst', hsecond', ok_bind, hsource, hsystem, hvector, htag, hasynchronous, htaglen, r₃, r₄,
    r₅, r₆, r₇, pure_eq_ok]

/-! ## Durations -/

/-- The two parts of a time in a format, read back. Absent parts are zero. -/
theorem reads_time {tsi tsf : UInt8} {seconds : UInt32} {fractional : UInt64}
    (hs : tsi = 0 → seconds = 0) (hf : tsf = 0 → fractional = 0) {data : Bytes} {i j : ℕ}
    (h : Segment data i ((if tsi ≠ 0 then be32 seconds else []) ++
      (if tsf ≠ 0 then writeUnsigned64 fractional else [])) j) :
    ∃ s f k, readIf (tsi ≠ 0) readWord data i = .ok (s, k) ∧
      readIf (tsf ≠ 0) readUnsigned64 data k = .ok (f, j) ∧ s.getD 0 = seconds ∧
      f.getD 0 = fractional := by
  obtain ⟨k, hsec, hfrac⟩ := Segment.append_iff.mp h
  refine ⟨_, _, k, reads_when (reads_word seconds) data i k hsec,
    reads_when (reads_unsigned64 fractional) data k j hfrac, ?_, ?_⟩
  · by_cases h0 : tsi = 0
    · simp [h0, hs h0]
    · simp [h0]
  · by_cases h0 : tsf = 0
    · simp [h0, hf h0]
    · simp [h0]

theorem length_time (tsi tsf : UInt8) (seconds : UInt32) (fractional : UInt64) :
    ((if tsi ≠ 0 then be32 seconds else []) ++
      (if tsf ≠ 0 then writeUnsigned64 fractional else [])).length =
      ((if tsi ≠ 0 then 1 else 0) + (if tsf ≠ 0 then 2 else 0)) * 4 := by
  by_cases hi : tsi = 0 <;> by_cases hf : tsf = 0 <;> simp [hi, hf, writeUnsigned64]

/-- A duration is carried in the timestamp format that it is bound to. -/
theorem duration_carries {id : FieldId} (hid : temporalDurationField id)
    {binding b : TimestampFormatBinding} {v : StateDurationValue} {extent : FieldExtent}
    (h : stateDurationExtent v binding = .ok extent)
    (hb : b.bound ∧ b.tsi = binding.tsi ∧ b.tsf = binding.tsf) :
    Carries id b (writeDuration v binding) extent (.duration v) := by
  simp only [stateDurationExtent, durationExtent, bind_eq_ok, validateDuration, rejectIf_eq_ok,
    pure_eq_ok, Except.ok.injEq, not_or, not_and, Decidable.not_not] at h
  obtain ⟨_, ⟨-, -, -, hseconds, hfractional⟩, _, ⟨_, hcodes, _, hbound, rfl⟩, _, ⟨htsi, htsf⟩, rfl⟩ := h
  have hwords : startWords b = startWords binding := by
    rw [startWords, startWords, hb.2.1, hb.2.2]
  have hdeclared : durationExtent b =
      .ok { bytes := startWords binding * 4, units := startWords binding } := by
    rw [durationExtent, hwords, rejectIf_of_not, ok_bind, rejectIf_of_not, ok_bind]
    · rfl
    · simpa [hb] using hbound.2
    · simpa [hb] using hcodes
  have hlen : (writeDuration v binding).length = startWords binding * 4 := length_time ..
  have hextent : ∀ i, temporalDurationField i → ∀ rest,
      wireStructureExtent i (writeDuration v binding ++ rest) b =
        .ok { bytes := startWords binding * 4, units := startWords binding } := by
    intro i hi rest
    refine plain_extent ?_ ?_ (by rw [List.length_append, hlen]; omega)
    · obtain ⟨cif, bit⟩ := i
      simp only [temporalDurationField, decide_eq_true_eq] at hi
      simp [cif1Structure, Field.indexList, Field.pointingVectorStructure, Field.spectrum,
        Field.sectorStepScan, hi.1]
    · rw [plainExtent, if_pos hi, hdeclared]
      rfl
  have hvalid : ∀ i, temporalDurationField i →
      validateStructureWire i (writeDuration v binding) b = .ok () := by
    intro i hi
    have h := hextent i hi []
    rw [List.append_nil] at h
    obtain ⟨cif, bit⟩ := i
    have hi' := hi
    simp only [temporalDurationField, decide_eq_true_eq] at hi'
    obtain ⟨rfl, -⟩ := hi'
    refine plain_valid ?_ h hlen (fun hf => ?_) fun ha => ?_
    · simp [cif1Structure, Field.indexList, Field.pointingVectorStructure, Field.spectrum,
        Field.sectorStepScan]
    · exact absurd hf.1 (by simp)
    · exact absurd ha (by simp [Field.gpsAscii])
  refine ⟨hlen, hextent id hid, hvalid id hid, ?_⟩
  intro view hkind hbase hview hbytes hformat
  have hholds : view.holds temporalDurationField := by
    simp [FieldView.holds, hkind, hbase, hview, hid]
  have hseg : Segment view.bytes 0 (writeDuration v binding) view.bytes.length :=
    Segment.whole_iff.mpr hbytes
  rw [writeDuration, ← hb.2.1, ← hb.2.2] at hseg
  obtain ⟨s, f, k, hs, hf, rs, rf⟩ := reads_time
    (fun h0 => hseconds (by rw [htsi, ← hb.2.1, h0])) (fun h0 => hfractional (by rw [htsf, ← hb.2.2, h0]))
    hseg
  have hage := hvalid Field.age (by decide)
  rw [← hbytes] at hage
  show view.duration = .ok v
  rw [FieldView.duration, rejectIf_of_not (Decidable.not_not.mpr hholds), ok_bind, hformat]
  simp only [wireDuration, hage, ok_bind, hs, hf, rs, rf, pure_eq_ok]
  rw [hb.2.1, hb.2.2, ← htsi, ← htsf]

/-! ## Index lists -/

theorem toNat_entryStep (value : UInt32) (byte : UInt8) :
    ((value <<< 8) ||| byte.toUInt32).toNat = value.toNat * 256 % 2 ^ 32 + byte.toNat := by
  have hbyte := byte.toNat_lt
  have hdvd : 2 ^ 8 ∣ value.toNat * 2 ^ 8 % 2 ^ 32 := by omega
  have hshift : (value <<< 8).toNat = value.toNat * 2 ^ 8 % 2 ^ 32 := by
    rw [UInt32.toNat_shiftLeft, Nat.shiftLeft_eq]
    rfl
  rw [UInt32.toNat_or, hshift, UInt8.toNat_toUInt32, or_eq_add 8 hdvd hbyte]
  simp only [Nat.reducePow]

/-- An entry that fits its width is read back. -/
theorem entryOfBytes_writeEntry {width : ℕ} {n : UInt32} (hw : validEntryBytes width)
    (hn : entryFits width n) : entryOfBytes (writeEntry width n) = n := by
  have hlt := n.toNat_lt
  simp only [validEntryBytes, decide_eq_true_eq] at hw
  simp only [entryFits, decide_eq_true_eq] at hn
  apply UInt32.toNat_inj.mp
  obtain rfl | rfl | rfl := hw
  · have hsmall : n.toNat < 2 ^ 8 := hn (by omega)
    simp only [writeEntry, List.range_succ, List.range_zero, List.nil_append, List.map_cons, List.map_nil,
      entryOfBytes, List.foldl_cons, List.foldl_nil, toNat_entryStep, UInt8.toNat_ofNat',
      UInt32.toNat_zero]
    omega
  · have hsmall : n.toNat < 2 ^ 16 := hn (by omega)
    simp only [writeEntry, List.range_succ, List.range_zero, List.nil_append, List.cons_append,
      List.map_cons, List.map_nil, entryOfBytes, List.foldl_cons, List.foldl_nil, toNat_entryStep,
      UInt8.toNat_ofNat', UInt32.toNat_zero]
    omega
  · simp only [writeEntry, List.range_succ, List.range_zero, List.nil_append, List.cons_append,
      List.map_cons, List.map_nil, entryOfBytes, List.foldl_cons, List.foldl_nil, toNat_entryStep,
      UInt8.toNat_ofNat', UInt32.toNat_zero]
    omega

@[simp] theorem length_writeEntry (width : ℕ) (n : UInt32) : (writeEntry width n).length = width := by
  simp [writeEntry]

/-- An entry is read as it was written. -/
theorem reads_entry {width : ℕ} {n : UInt32} (hw : validEntryBytes width) (hn : entryFits width n) :
    Reads (readEntry width) (writeEntry width n) n := by
  intro data i j h
  have hstop := h.stop_eq
  have hinside := h.inside
  rw [length_writeEntry] at hstop
  have htake : (data.drop i).take width = writeEntry width n := by
    rw [h.split]
    exact List.take_left' (length_writeEntry width n)
  rw [readEntry, if_pos (by omega), htake, entryOfBytes_writeEntry hw hn, hstop]
  rfl

/-- The second word of an index list: the entry width above the count. -/
theorem indexHeader_fields {width : UInt8} {count : ℕ} (hw : validEntryBytes width.toNat)
    (hcount : count ≤ 1024) :
    ∃ w, (width.toUInt32 <<< 28) ||| UInt32.ofNat count = w ∧ (w >>> 28).toNat = width.toNat ∧
      (w >>> 28).toUInt8 = width ∧ bits w 0 20 = count ∧ w &&& 0x0ff00000 = 0 := by
  have hwidth : width.toNat ≤ 4 := by
    simp only [validEntryBytes, decide_eq_true_eq] at hw
    omega
  have hnat : ((width.toUInt32 <<< 28) ||| UInt32.ofNat count).toNat = width.toNat * 2 ^ 28 + count := by
    refine toNat_pack 28 (UInt8.toNat_toUInt32 _) (UInt32.toNat_ofNat_of_lt' ?_) rfl (by omega)
      (by omega) (by omega)
    simp only [UInt32.size]
    omega
  generalize (width.toUInt32 <<< 28) ||| UInt32.ofNat count = w at hnat
  have hhigh : (w >>> 28).toNat = width.toNat := by
    rw [toNat_shiftRight_eq w 28 rfl (by omega)]
    omega
  refine ⟨w, rfl, hhigh, ?_, ?_, ?_⟩
  · apply UInt8.toNat_inj.mp
    rw [UInt32.toNat_toUInt8, hhigh]
    omega
  · rw [bits]
    omega
  · rw [and_mask_eq_zero _ 20 8 rfl, bits]
    omega

theorem length_flatMap_of_const {α : Type} {write : α → Bytes} {l : List α} {c : ℕ}
    (h : ∀ a ∈ l, (write a).length = c) : (l.flatMap write).length = l.length * c := by
  induction l with
  | nil => simp
  | cons a l ih =>
    rw [List.flatMap_cons, List.length_append, h a (List.mem_cons_self ..),
      ih fun b hb => h b (List.mem_cons_of_mem _ hb), List.length_cons, Nat.succ_mul]
    omega

/-- An index list is carried in entries of one, two or four bytes. -/
theorem indices_carries (b : TimestampFormatBinding) {v : IndexListValue} {extent : FieldExtent}
    (h : indicesExtent v = .ok extent) :
    Carries Field.indexList b (writeIndices v extent) extent (.indices v) := by
  simp only [indicesExtent, bind_eq_ok, rejectIf_eq_ok, pure_eq_ok, Except.ok.injEq, not_or,
    Nat.not_lt, gt_iff_lt, Decidable.not_not] at h
  obtain ⟨_, ⟨hcount, hwidth⟩, _, hfits, rfl⟩ := h
  obtain ⟨header, hheader, hhigh, hwidth8, hlow, hreserved⟩ := indexHeader_fields hwidth hcount
  have hw : v.entryBytes.toNat ≤ 4 := by
    simp only [validEntryBytes, decide_eq_true_eq] at hwidth
    omega
  obtain ⟨used, hused⟩ : ∃ used, v.entries.length * v.entryBytes.toNat = used := ⟨_, rfl⟩
  have husedle : used ≤ 4096 := by
    rw [← hused]
    exact Nat.mul_le_mul hcount hw
  obtain ⟨total, htotal, htotalnat⟩ : ∃ total : UInt32,
      UInt32.ofNat ((8 + paddedBytes used) / 4) = total ∧ total.toNat = 2 + (used + 3) / 4 := by
    refine ⟨_, rfl, ?_⟩
    rw [UInt32.toNat_ofNat_of_lt']
    · simp only [paddedBytes]
      omega
    · simp only [paddedBytes, UInt32.size]
      omega
  obtain ⟨body, hbody⟩ : ∃ body, v.entries.flatMap (writeEntry v.entryBytes.toNat) = body := ⟨_, rfl⟩
  have hbodylen : body.length = used := by
    rw [← hbody, ← hused]
    exact length_flatMap_of_const fun n _ => length_writeEntry ..
  obtain ⟨pad, hpad⟩ : ∃ pad, 8 + paddedBytes used - 8 - used = pad := ⟨_, rfl⟩
  simp only [hused]
  have hpiece : writeIndices v { bytes := 8 + paddedBytes used, units := 2 + v.entries.length
                                 indexEntries := v.entries.length } =
      be32 total ++ (be32 header ++ (body ++ List.replicate pad 0)) := by
    rw [writeIndices, hheader, htotal, hused, hpad, hbody]
  have hlen : (be32 total ++ (be32 header ++ (body ++ List.replicate pad 0))).length =
      8 + paddedBytes used := by
    simp only [List.length_append, length_be32, List.length_replicate, hbodylen, ← hpad, paddedBytes]
    omega
  have hextent : ∀ c rest, wireStructureExtent Field.indexList
      (be32 total ++ (be32 header ++ (body ++ List.replicate pad 0)) ++ rest) c =
        .ok { bytes := 8 + paddedBytes used, units := 2 + v.entries.length
              indexEntries := v.entries.length } := by
    intro c rest
    obtain ⟨tail, htail⟩ : ∃ tail, body ++ List.replicate pad 0 ++ rest = tail := ⟨_, rfl⟩
    have htaillen : paddedBytes used ≤ tail.length := by
      rw [← htail, List.length_append, List.length_append, List.length_replicate, hbodylen, ← hpad]
      simp only [paddedBytes]
      omega
    have hall : (be32 total ++ (be32 header ++ tail)).length = 8 + tail.length := by
      simp only [List.length_append, length_be32]
      omega
    rw [List.append_assoc, List.append_assoc, htail]
    show indexWireExtent _ = _
    rw [indexWireExtent, rejectIf_of_not (by omega), ok_bind, load32_be32, ok_bind, load32_second,
      ok_bind, checkedMultiply_word]
    simp only [Result.decoded, ok_bind, hhigh, hlow, htotalnat, hused]
    rw [rejectIf_of_not, ok_bind, rejectIf_of_not, ok_bind]
    · simp only [paddedBytes, pure_eq_ok, Except.ok.injEq, FieldExtent.mk.injEq, and_self, and_true]
      omega
    · simp [hreserved, hwidth]
    · rw [hall]
      simp only [paddedBytes] at htaillen
      omega
  have hextent' : ∀ c, cif1WireExtent Field.indexList
      (be32 total ++ (be32 header ++ (body ++ List.replicate pad 0))) c =
        .ok { bytes := 8 + paddedBytes used, units := 2 + v.entries.length
              indexEntries := v.entries.length } := by
    intro c
    have h := hextent c []
    rw [List.append_nil] at h
    exact h
  have hdrop : (be32 total ++ (be32 header ++ (body ++ List.replicate pad 0))).drop (8 + used) =
      List.replicate pad 0 := by
    rw [← List.append_assoc, ← List.append_assoc]
    refine List.drop_left' ?_
    simp only [List.length_append, length_be32, hbodylen]
  have hvalid : ∀ c, validateCif1Wire Field.indexList
      (be32 total ++ (be32 header ++ (body ++ List.replicate pad 0))) c = .ok () := by
    intro c
    rw [validateCif1Wire, hextent', ok_bind, rejectIf_of_not (by simp only [hlen]; simp), ok_bind,
      if_pos rfl, validateIndexPadding, load32_second, ok_bind]
    simp only [hlow, hhigh, hused, hdrop]
    rw [rejectIf_of_not]
    simp
  simp only [hpiece]
  refine ⟨hlen, hextent b, hvalid b, ?_⟩
  intro view hkind hbase hview hbytes _
  have hholds : view.holds (· = Field.indexList) := by simp [FieldView.holds, hkind, hbase, hview]
  have hseg : Segment view.bytes 0 (be32 total ++ (be32 header ++ (body ++ List.replicate pad 0)))
      view.bytes.length := Segment.whole_iff.mpr hbytes
  obtain ⟨o₁, s₁, hseg⟩ := Segment.append_iff.mp hseg
  obtain ⟨o₂, s₂, hseg⟩ := Segment.append_iff.mp hseg
  obtain rfl : o₁ = 0 + 4 := (Segment.word_iff.mp s₁).2
  obtain rfl : o₂ = 0 + 4 + 4 := (Segment.word_iff.mp s₂).2
  obtain ⟨o₃, s₃, -⟩ := Segment.append_iff.mp hseg
  rw [← hbody] at s₃
  have hentries := reads_many (fun n hn => reads_entry hwidth (hfits n hn)) view.bytes 8 o₃ s₃
  have hload : load32 view.bytes 4 = .ok header := load32_of_segment s₂
  have hcheck : validateCif1Wire Field.indexList view.bytes view.timestampFormat = .ok () :=
    hbytes ▸ hvalid _
  simp only at hentries
  show view.indices = .ok v
  rw [FieldView.indices, rejectIf_of_not (Decidable.not_not.mpr hholds), ok_bind]
  simp only [wireIndices, hcheck, ok_bind, hload, hwidth8, hlow, hentries, pure_eq_ok]

/-! ## Spectra -/

/-- The first word of a spectrum: the three codes. -/
theorem spectrumCodes_fields {deltaKind : UInt8} (averaging spectrumType : UInt8) (hd : deltaKind ≤ 3) :
    ∃ w, (deltaKind.toUInt32 <<< 16) ||| (averaging.toUInt32 <<< 8) ||| spectrumType.toUInt32 = w ∧
      w &&& 0xfff00000 = 0 ∧ (w &&& 255).toUInt8 = spectrumType ∧
      ((w >>> 8) &&& 255).toUInt8 = averaging ∧ ((w >>> 16) &&& 15).toUInt8 = deltaKind := by
  have hd' : deltaKind.toNat ≤ 3 := hd
  have ha := averaging.toNat_lt
  have hs := spectrumType.toNat_lt
  have hlow : ((averaging.toUInt32 <<< 8) ||| spectrumType.toUInt32).toNat =
      averaging.toNat * 2 ^ 8 + spectrumType.toNat :=
    toNat_pack 8 (UInt8.toNat_toUInt32 _) (UInt8.toNat_toUInt32 _) rfl (by omega) (by omega) (by omega)
  have hnat : ((deltaKind.toUInt32 <<< 16) ||| (averaging.toUInt32 <<< 8) |||
      spectrumType.toUInt32).toNat =
        deltaKind.toNat * 2 ^ 16 + (averaging.toNat * 2 ^ 8 + spectrumType.toNat) := by
    rw [UInt32.or_assoc]
    exact toNat_pack 16 (UInt8.toNat_toUInt32 _) hlow rfl (by omega) (by omega) (by omega)
  generalize (deltaKind.toUInt32 <<< 16) ||| (averaging.toUInt32 <<< 8) ||| spectrumType.toUInt32 = w
    at hnat
  refine ⟨w, rfl, ?_, ?_, ?_, ?_⟩
  · rw [and_mask_eq_zero _ 20 12 rfl, bits]
    omega
  · apply UInt8.toNat_inj.mp
    rw [UInt32.toNat_toUInt8, toNat_and_mask _ 8 rfl]
    omega
  · apply UInt8.toNat_inj.mp
    rw [UInt32.toNat_toUInt8, toNat_shiftRight_and_mask _ 8 8 rfl (by omega) rfl, bits]
    omega
  · apply UInt8.toNat_inj.mp
    rw [UInt32.toNat_toUInt8, toNat_shiftRight_and_mask _ 16 4 rfl (by omega) rfl, bits]
    omega

/-- A valid spectrum is read back. -/
theorem readSpectrum_writeSpectrum {v : SpectrumValue} {current : Bool}
    (h : validateSpectrum v current = .ok ()) : readSpectrum (writeSpectrum v) = .ok v := by
  have hany : validateSpectrum v false = .ok () := by
    simp only [validateSpectrum, bind_eq_ok, rejectIf_eq_ok] at h ⊢
    obtain ⟨_, h, -⟩ := h
    exact ⟨(), h, by simp⟩
  have hdelta : v.deltaKind ≤ 3 := by
    simp only [validateSpectrum, bind_eq_ok, rejectIf_eq_ok, not_or, gt_iff_lt, UInt8.not_lt] at h
    obtain ⟨_, ⟨-, -, hd, -⟩, -⟩ := h
    exact hd
  obtain ⟨first, hfirst, hreserved, htype, haveraging, hkind⟩ :=
    spectrumCodes_fields v.averaging v.spectrumType hdelta
  have hlen : (writeSpectrum v).length = 52 := by
    simp [writeSpectrum, writeSigned64, writeUnsigned64]
  have hseg : Segment (writeSpectrum v) 0 (writeSpectrum v) 52 := hlen ▸ Segment.whole_iff.mpr rfl
  obtain ⟨bytes, hbytes⟩ : ∃ bytes, writeSpectrum v = bytes := ⟨_, rfl⟩
  rw [hbytes] at hlen
  nth_rewrite 1 [hbytes] at hseg
  rw [hbytes]
  rw [writeSpectrum, hfirst] at hseg
  obtain ⟨o₁, s₁, hseg⟩ := Segment.append_iff.mp hseg
  obtain ⟨o₂, s₂, hseg⟩ := Segment.append_iff.mp hseg
  obtain ⟨o₃, s₃, hseg⟩ := Segment.append_iff.mp hseg
  obtain ⟨o₄, s₄, hseg⟩ := Segment.append_iff.mp hseg
  obtain ⟨o₅, s₅, hseg⟩ := Segment.append_iff.mp hseg
  obtain ⟨o₆, s₆, hseg⟩ := Segment.append_iff.mp hseg
  obtain ⟨o₇, s₇, hseg⟩ := Segment.append_iff.mp hseg
  obtain ⟨o₈, s₈, hseg⟩ := Segment.append_iff.mp hseg
  obtain ⟨o₉, s₉, hseg⟩ := Segment.append_iff.mp hseg
  obtain ⟨o₁₀, s₁₀, s₁₁⟩ := Segment.append_iff.mp hseg
  have hreject : rejectIf (first &&& 0xfff00000 ≠ 0) invalidWire = .ok () :=
    rejectIf_of_not (by simp [hreserved])
  simp only [readSpectrum, hlen, rejectIf_of_not (by simp : ¬52 ≠ 52), ok_bind,
    reads_word _ _ _ _ s₁, hreject, reads_word _ _ _ _ s₂, reads_word _ _ _ _ s₃,
    reads_word _ _ _ _ s₄, reads_signed64 _ _ _ _ s₅, reads_signed64 _ _ _ _ s₆,
    reads_word _ _ _ _ s₇, reads_word _ _ _ _ s₈, reads_word _ _ _ _ s₉, reads_word _ _ _ _ s₁₀,
    reads_word _ _ _ _ s₁₁, htype, haveraging, hkind]
  show ((validateSpectrum v false).decoded >>= fun _ => pure v) = .ok v
  rw [hany]
  rfl

/-- A valid spectrum is carried by its thirteen words. -/
theorem spectrum_carries (b : TimestampFormatBinding) {v : SpectrumValue} {current : Bool}
    (h : validateSpectrum v current = .ok ()) :
    Carries Field.spectrum b (writeSpectrum v) { bytes := 52, units := 13 } (.spectrum v) := by
  have hlen : (writeSpectrum v).length = 52 := by
    simp [writeSpectrum, writeSigned64, writeUnsigned64]
  have hread := readSpectrum_writeSpectrum h
  have hextent : ∀ bytes : Bytes, 52 ≤ bytes.length →
      cif1WireExtent Field.spectrum bytes b = .ok { bytes := 52, units := 13 } := by
    intro bytes hle
    rw [cif1WireExtent, if_pos rfl, rejectIf_of_not (by omega)]
    rfl
  refine ⟨hlen, fun rest => hextent _ (by rw [List.length_append]; omega), ?_, ?_⟩
  · show validateCif1Wire Field.spectrum _ b = _
    rw [validateCif1Wire, hextent _ (by omega), ok_bind, rejectIf_of_not (by simp [hlen]), ok_bind,
      if_neg (by decide), if_neg (by decide), if_pos rfl, hread]
    rfl
  · intro view hkind hbase hview hbytes _
    have hholds : view.holds (· = Field.spectrum) := by simp [FieldView.holds, hkind, hbase, hview]
    show view.spectrum = .ok v
    rw [FieldView.spectrum, rejectIf_of_not (Decidable.not_not.mpr hholds), ok_bind, hbytes, hread]

/-! ## Record structures -/

/-- The description word of a record structure. -/
theorem description_fields {code words records : ℕ} (hc : code < 256) (hw : words < 4096)
    (hr : records < 4096) :
    ∃ w, UInt32.ofNat ((code <<< 24) ||| (words <<< 12) ||| records) = w ∧ (w >>> 24).toNat = code ∧
      bits w 12 12 = words ∧ bits w 0 12 = records := by
  have hor : (code <<< 24) ||| (words <<< 12) ||| records =
      code * 2 ^ 24 + (words * 2 ^ 12 + records) := by
    have hlow : (words <<< 12) ||| records = words * 2 ^ 12 + records := by
      rw [Nat.shiftLeft_eq, or_eq_add 12 (Nat.dvd_mul_left ..) (by omega)]
    rw [Nat.or_assoc, hlow, Nat.shiftLeft_eq, or_eq_add 24 (Nat.dvd_mul_left ..) (by omega)]
  have hnat : (UInt32.ofNat ((code <<< 24) ||| (words <<< 12) ||| records)).toNat =
      code * 2 ^ 24 + (words * 2 ^ 12 + records) := by
    rw [hor, UInt32.toNat_ofNat_of_lt']
    simp only [UInt32.size]
    omega
  generalize UInt32.ofNat ((code <<< 24) ||| (words <<< 12) ||| records) = w at hnat
  refine ⟨w, rfl, ?_, ?_, ?_⟩
  · rw [toNat_shiftRight_eq w 24 rfl (by omega)]
    omega
  · rw [bits]
    omega
  · rw [bits]
    omega

@[simp] theorem length_writeShape (shape : RecordShape) (selectors : UInt32) :
    (writeShape shape selectors).length = 12 := by
  simp [writeShape]

/-- The sizes a shape may have so that its description holds it. -/
structure SmallShape (shape : RecordShape) : Prop where
  header : 3 ≤ shape.headerWords ∧ shape.headerWords ≤ 4
  code : shape.headerCode < 256
  words : shape.recordWords < 4096
  records : shape.records ≤ 256

theorem SmallShape.totalWords {shape : RecordShape} (h : SmallShape shape) :
    3 ≤ shape.totalWords ∧ shape.totalWords < 2 ^ 24 := by
  have hprod : shape.recordWords * shape.records ≤ 4096 * 256 :=
    Nat.mul_le_mul (by have := h.words; omega) h.records
  have := h.header
  rw [RecordShape.totalWords]
  omega

/-- The words of a written description. -/
theorem load32_writeShape {shape : RecordShape} (h : SmallShape shape) (selectors : UInt32) (body : Bytes) :
    ∃ total description, load32 (writeShape shape selectors ++ body) 0 = .ok total ∧
      load32 (writeShape shape selectors ++ body) 4 = .ok description ∧
      load32 (writeShape shape selectors ++ body) 8 = .ok selectors ∧
      total.toNat = shape.totalWords ∧ (description >>> 24).toNat = shape.headerCode ∧
      bits description 12 12 = shape.recordWords ∧ bits description 0 12 = shape.records := by
  obtain ⟨description, hdescription, hcode, hwords, hrecords⟩ := description_fields h.code h.words
    (by have := h.records; omega : shape.records < 4096)
  have htotal : (UInt32.ofNat shape.totalWords).toNat = shape.totalWords := by
    rw [UInt32.toNat_ofNat_of_lt']
    have := h.totalWords
    simp only [UInt32.size]
    omega
  have hsplit : writeShape shape selectors ++ body = be32 (UInt32.ofNat shape.totalWords) ++
      (be32 description ++ (be32 selectors ++ body)) := by
    rw [writeShape, hdescription]
    simp only [List.append_assoc]
  have hthird : load32 (be32 (UInt32.ofNat shape.totalWords) ++
      (be32 description ++ (be32 selectors ++ body))) 8 = .ok selectors := by
    rw [← List.append_assoc]
    exact load32_eq_ok.mpr
      (wordAt_append (be32 (UInt32.ofNat shape.totalWords) ++ be32 description) selectors body)
  refine ⟨_, description, ?_, ?_, ?_, htotal, hcode, hwords, hrecords⟩
  · rw [hsplit, load32_be32]
  · rw [hsplit, load32_second]
  · rw [hsplit, hthird]

/-- A written record structure declares its shape. -/
theorem wireRecordShape_write {id : FieldId} {shape : RecordShape} {selectors : UInt32}
    {b : TimestampFormatBinding} {body : Bytes} (h : SmallShape shape)
    (hdeclared : declaredShape id shape.headerCode shape.records selectors b = .ok shape)
    (hroom : shape.totalWords * 4 ≤ 12 + body.length) :
    wireRecordShape id (writeShape shape selectors ++ body) b = .ok shape := by
  obtain ⟨total, description, htotal, hdescription, hselectors, hnat, hcode, hwords, hrecords⟩ :=
    load32_writeShape h selectors body
  have hlen : (writeShape shape selectors ++ body).length = 12 + body.length := by
    rw [List.length_append, length_writeShape]
  have hthree : ¬total < 3 := by
    rw [UInt32.lt_iff_toNat_lt, hnat]
    have := h.totalWords.1
    show ¬shape.totalWords < 3
    omega
  rw [wireRecordShape, rejectIf_of_not (by omega), ok_bind, htotal, ok_bind, hdescription, ok_bind,
    hselectors, ok_bind, checkedMultiply_word]
  simp only [Result.decoded, ok_bind, hnat, hcode, hwords, hrecords, hdeclared]
  rw [rejectIf_of_not (by omega), ok_bind, rejectIf_of_not hthree, ok_bind, rejectIf_of_not (by simp)]
  rfl

/-- A record of a list of records of one size. -/
theorem segment_record {α : Type} {write : α → Bytes} {l : List α} {c : ℕ} {data : Bytes} {i j : ℕ}
    (hlen : ∀ a ∈ l, (write a).length = c) (h : Segment data i (l.flatMap write) j) {n : ℕ} {a : α}
    (ha : l[n]? = some a) : ∃ k, Segment data (i + n * c) (write a) k := by
  induction l generalizing i n with
  | nil => simp at ha
  | cons x l ih =>
    rw [List.flatMap_cons] at h
    obtain ⟨k, hx, hl⟩ := Segment.append_iff.mp h
    cases n with
    | zero =>
      obtain rfl : x = a := by simpa using ha
      exact ⟨k, by simpa using hx⟩
    | succ n =>
      have hk := hx.stop_eq
      rw [hlen x (List.mem_cons_self ..)] at hk
      obtain ⟨k', hk'⟩ := ih (fun y hy => hlen y (List.mem_cons_of_mem _ hy)) hl (by simpa using ha)
      refine ⟨k', ?_⟩
      rw [Nat.succ_mul, Nat.add_comm (n * c), ← Nat.add_assoc, ← hk]
      exact hk'

/-! ## Pointing vectors -/

/-- A reference is packed into one word and read back. -/
theorem reads_reference {v : PointingReference} {global : Bool}
    (h : validateReference v global = .ok ()) {data : Bytes} {i j : ℕ}
    (hseg : Segment data i (be32 (referenceBits v)) j) : readReference data i global = .ok v := by
  have hv := h
  simp only [validateReference, rejectIf_eq_ok, not_or, gt_iff_lt, UInt8.not_lt] at hv
  have href : v.reference.toNat ≤ 3 := hv.1
  have hbeam : v.beam.toNat ≤ 2 := hv.2.1
  have hindex := v.index.toNat_lt
  have hlow : ((v.reference.toUInt32 <<< 2) ||| v.beam.toUInt32).toNat =
      v.reference.toNat * 2 ^ 2 + v.beam.toNat :=
    toNat_pack 2 (UInt8.toNat_toUInt32 _) (UInt8.toNat_toUInt32 _) rfl (by omega) (by omega) (by omega)
  have hnat : (referenceBits v).toNat =
      v.index.toNat * 2 ^ 16 + (v.reference.toNat * 2 ^ 2 + v.beam.toNat) := by
    rw [referenceBits, UInt32.or_assoc]
    exact toNat_pack 16 (UInt16.toNat_toUInt32 _) hlow rfl (by omega) (by omega) (by omega)
  have hload := load32_of_segment hseg
  have hstop := hseg.stop_eq
  have hinside := hseg.inside
  rw [length_be32] at hstop
  generalize referenceBits v = raw at hnat hload
  have hreserved : raw &&& 0xfff0 = 0 := by
    rw [and_mask_eq_zero _ 4 12 rfl, bits]
    omega
  have h₁ : (raw >>> 16).toUInt16 = v.index := by
    apply UInt16.toNat_inj.mp
    rw [UInt32.toNat_toUInt16, toNat_shiftRight_eq raw 16 rfl (by omega)]
    omega
  have h₂ : ((raw >>> 2) &&& 3).toUInt8 = v.reference := by
    apply UInt8.toNat_inj.mp
    rw [UInt32.toNat_toUInt8, toNat_shiftRight_and_mask _ 2 2 rfl (by omega) rfl, bits]
    omega
  have h₃ : (raw &&& 3).toUInt8 = v.beam := by
    apply UInt8.toNat_inj.mp
    rw [UInt32.toNat_toUInt8, toNat_and_mask _ 2 rfl]
    omega
  rw [readReference, rejectIf_of_not (by omega), ok_bind, hload, ok_bind,
    rejectIf_of_not (by simp [hreserved]), ok_bind, h₁, h₂, h₃]
  show ((validateReference v global).decoded >>= fun _ => pure v) = .ok v
  rw [h]
  rfl

/-- A record of the kind its structure declares is read back. -/
theorem pointing_record {bytes : Bytes} {recordReference : Bool} {record : PointingVectorRecord}
    {i j : ℕ} (hflag : record.reference.isSome = recordReference)
    (hvalid : ∀ r ∈ record.reference, validateReference r false = .ok ())
    (hseg : Segment bytes i (writePointingRecord record) j) :
    ∃ k angles, PointingVectorWireView.recordReference bytes (if recordReference then 2 else 1) i =
      .ok (record.reference, k) ∧ load32 bytes k = .ok angles ∧
      (⟨angles.toUInt16, signed16 (angles >>> 16)⟩ : PointingAngles) = record.vector := by
  obtain ⟨k, hhead, hangles⟩ := Segment.append_iff.mp hseg
  obtain ⟨hhigh, hlow⟩ :=
    halves16_eq_iff.mp (rfl : pair (unsigned16 record.vector.elevationQ7) record.vector.azimuthQ7 = _)
  refine ⟨k, _, ?_, load32_of_segment hangles, ?_⟩
  · cases hr : record.reference with
    | none =>
      rw [hr] at hflag hhead
      obtain rfl : recordReference = false := hflag.symm
      obtain ⟨rfl, -⟩ := Segment.nil_iff.mp hhead
      rfl
    | some r =>
      rw [hr] at hflag hhead
      obtain rfl : recordReference = true := hflag.symm
      obtain rfl := (Segment.word_iff.mp hhead).2
      have hread := reads_reference (hvalid r hr) hhead
      rw [if_pos rfl, PointingVectorWireView.recordReference, if_pos rfl, hread]
      rfl
  · rw [signed16, hhigh, hlow]
    rfl

/-- What the extent of a pointing structure says of its value. -/
structure PointingValid (v : PointingVectorValue) : Prop where
  count : v.records.length ≤ 256
  global : ∀ g ∈ v.global, validateReference g true = .ok ()
  flags : ∀ r ∈ v.records, r.reference.isSome = v.recordReference
  references : ∀ r ∈ v.records, ∀ x ∈ r.reference, validateReference x false = .ok ()

/-- The shape of a pointing structure. -/
def pointingShapeOf (v : PointingVectorValue) : RecordShape :=
  { headerWords := if v.global.isSome then 4 else 3
    recordWords := if v.recordReference then 2 else 1
    records := v.records.length, headerCode := if v.global.isSome then 4 else 3 }

theorem pointingShape_eq {v : PointingVectorValue} (h : v.records.length ≤ 256) :
    pointingShape v.global.isSome v.recordReference v.records.length = .ok (pointingShapeOf v) := by
  rw [pointingShape, rejectIf_of_not (by omega)]
  rfl

/-- The extent of a pointing vector is that of its shape. -/
theorem pointingExtent_eq_ok {v : PointingVectorValue} {current : Bool} {extent : FieldExtent}
    (h : pointingExtent v current = .ok extent) :
    PointingValid v ∧ extent = { bytes := (pointingShapeOf v).totalWords * 4
                                 units := (pointingShapeOf v).totalWords
                                 records := v.records.length } := by
  simp only [pointingExtent, bind_eq_ok, rejectIf_eq_ok, gt_iff_lt, Nat.not_lt, pure_eq_ok,
    Except.ok.injEq] at h
  obtain ⟨_, hcount, shape, hshape, _, hglobal, _, hrecords, rfl⟩ := h
  rw [pointingShape_eq hcount] at hshape
  obtain rfl := Except.ok.inj hshape
  have hrec := forM_eq_ok.mp hrecords
  have hone : ∀ r ∈ v.records, validatePointingRecord v.recordReference r current = .ok () := by
    intro r hr
    have h := hrec r hr
    simp only [validatePointing, bind_eq_ok] at h
    obtain ⟨_, -, _, -, h⟩ := h
    exact forM_eq_ok.mp h r (List.mem_singleton_self r)
  refine ⟨⟨hcount, ?_, ?_, ?_⟩, rfl⟩
  · intro g hg
    rw [Option.mem_def] at hg
    simp only [validateGlobal, hg] at hglobal
    exact hglobal
  · intro r hr
    have h := hone r hr
    simp only [validatePointingRecord, bind_eq_ok, rejectIf_eq_ok, ne_eq, Decidable.not_not] at h
    obtain ⟨_, h, -⟩ := h
    exact h
  · intro r hr x hx
    have h := hone r hr
    rw [Option.mem_def] at hx
    simp only [validatePointingRecord, bind_eq_ok, hx] at h
    obtain ⟨_, -, _, h, -⟩ := h
    exact h

/-- The selector word of a pointing structure. -/
def pointingSelectors (recordReference : Bool) : UInt32 :=
  0x40000000 ||| (if recordReference then 0x80000000 else 0)

theorem pointing_small {v : PointingVectorValue} (h : v.records.length ≤ 256) :
    SmallShape (pointingShapeOf v) := by
  refine ⟨?_, ?_, ?_, h⟩
  · simp only [pointingShapeOf]
    split <;> omega
  · simp only [pointingShapeOf]
    split <;> omega
  · simp only [pointingShapeOf]
    split <;> omega

/-- The header of a pointing vector declares its shape. -/
theorem pointing_declared {v : PointingVectorValue} (h : v.records.length ≤ 256)
    (b : TimestampFormatBinding) :
    declaredShape Field.pointingVectorStructure (pointingShapeOf v).headerCode
      (pointingShapeOf v).records (pointingSelectors v.recordReference) b = .ok (pointingShapeOf v) := by
  have hselectors : ∀ r, pointingSelectors r &&& 0x3fffffff = 0 ∧ bit (pointingSelectors r) 30 = true ∧
      bit (pointingSelectors r) 31 = r := by decide
  obtain ⟨hlow, h30, h31⟩ := hselectors v.recordReference
  have hcode : ¬((pointingShapeOf v).headerCode ≠ 3 ∧ (pointingShapeOf v).headerCode ≠ 4 ∨
      pointingSelectors v.recordReference &&& 0x3fffffff ≠ 0 ∨
      ¬bit (pointingSelectors v.recordReference) 30) := by
    simp only [hlow, h30, pointingShapeOf]
    split <;> simp
  have hglobal : decide ((pointingShapeOf v).headerCode = 4) = v.global.isSome := by
    simp only [pointingShapeOf]
    by_cases hg : v.global.isSome <;> simp [hg]
  rw [declaredShape, if_pos rfl, rejectIf_of_not hcode, ok_bind, hglobal, h31]
  exact pointingShape_eq h

theorem length_pointingRecord {v : PointingVectorValue} (h : PointingValid v) :
    ∀ r ∈ v.records, (writePointingRecord r).length = (pointingShapeOf v).recordWords * 4 := by
  intro r hr
  have hflag := h.flags r hr
  simp only [writePointingRecord, pointingShapeOf, ← hflag, List.length_append, length_be32]
  cases r.reference <;> rfl

/-- The extent and the check of a written pointing structure, and what its view reads. -/
theorem pointing_view {v : PointingVectorValue} (hvalid : PointingValid v) {body : Bytes}
    (hbody : v.global.elim [] (fun g => be32 (referenceBits g)) ++
      v.records.flatMap writePointingRecord = body) :
    12 + body.length = (pointingShapeOf v).totalWords * 4 ∧
    (PointingVectorWireView.mk
      (writeShape (pointingShapeOf v) (pointingSelectors v.recordReference) ++ body)).size =
        .ok v.records.length ∧
    (PointingVectorWireView.mk
      (writeShape (pointingShapeOf v) (pointingSelectors v.recordReference) ++ body)).global =
        .ok v.global ∧
    ∀ i record, v.records[i]? = some record →
      (PointingVectorWireView.mk (writeShape (pointingShapeOf v)
        (pointingSelectors v.recordReference) ++ body)).get i = .ok record := by
  have hsmall := pointing_small hvalid.count
  have hrecords := length_flatMap_of_const (length_pointingRecord hvalid)
  have hheader : (v.global.elim [] (fun g => be32 (referenceBits g))).length + 12 =
      (pointingShapeOf v).headerWords * 4 := by
    simp only [pointingShapeOf]
    cases v.global <;> rfl
  have htotal : 12 + body.length = (pointingShapeOf v).totalWords * 4 := by
    have hprod : v.records.length * ((pointingShapeOf v).recordWords * 4) =
        (pointingShapeOf v).recordWords * v.records.length * 4 := by
      rw [← Nat.mul_assoc, Nat.mul_comm v.records.length]
    rw [← hbody, List.length_append, hrecords, RecordShape.totalWords, hprod]
    have : (pointingShapeOf v).records = v.records.length := rfl
    rw [this]
    omega
  have hshape := @wireRecordShape_write _ _ _ {} body hsmall
    (pointing_declared hvalid.count {}) (by omega)
  obtain ⟨piece, hpiece⟩ : ∃ piece,
      writeShape (pointingShapeOf v) (pointingSelectors v.recordReference) ++ body = piece := ⟨_, rfl⟩
  have hlen : (pointingShapeOf v).totalWords * 4 = piece.length := by
    rw [← hpiece, List.length_append, length_writeShape, htotal]
  have hseg : Segment piece 0 (writeShape (pointingShapeOf v) (pointingSelectors v.recordReference) ++
      body) piece.length := Segment.whole_iff.mpr hpiece.symm
  rw [← hbody] at hseg
  obtain ⟨o₁, s₁, hseg⟩ := Segment.append_iff.mp hseg
  obtain ⟨o₂, s₂, s₃⟩ := Segment.append_iff.mp hseg
  obtain rfl : o₁ = 0 + 12 := by
    have := s₁.stop_eq
    rwa [length_writeShape] at this
  obtain rfl : o₂ = (pointingShapeOf v).headerWords * 4 := by
    have := s₂.stop_eq
    omega
  obtain ⟨-, description, -, hdescription, -, -, hcode, -, -⟩ :=
    load32_writeShape hsmall (pointingSelectors v.recordReference) body
  rw [hpiece] at hshape hdescription ⊢
  have hsize : (PointingVectorWireView.mk piece).size = .ok v.records.length := by
    rw [PointingVectorWireView.size, hshape, ok_bind, rejectIf_of_not (by simp [hlen])]
    rfl
  refine ⟨htotal, hsize, ?_, ?_⟩
  · rw [PointingVectorWireView.global, hsize, ok_bind, hdescription, ok_bind, hcode]
    simp only [pointingShapeOf]
    split
    · next hsome =>
      obtain ⟨g, hg⟩ := Option.isSome_iff_exists.mp hsome
      rw [hg] at s₂
      have hread := reads_reference (hvalid.global g hg) s₂
      rw [Nat.zero_add] at hread
      simp only [hread, ok_bind, pure_eq_ok, hg, if_true]
    · next hnone =>
      rw [Option.not_isSome_iff_eq_none.mp hnone]
      rfl
  · intro i record hrecord
    have hmem := List.mem_of_getElem? hrecord
    have hi : i < v.records.length := (List.getElem?_eq_some_iff.mp hrecord).1
    obtain ⟨stop, hrec⟩ := segment_record (length_pointingRecord hvalid) s₃ hrecord
    obtain ⟨k, angles, hreference, hangles, hvector⟩ :=
      pointing_record (hvalid.flags record hmem) (hvalid.references record hmem) hrec
    have hoffset : ((pointingShapeOf v).headerWords + i * (pointingShapeOf v).recordWords) * 4 =
        (pointingShapeOf v).headerWords * 4 + i * ((pointingShapeOf v).recordWords * 4) := by
      rw [Nat.add_mul, Nat.mul_assoc]
    have hbounds : ¬((pointingShapeOf v).totalWords * 4 ≠ piece.length ∨
        i ≥ (pointingShapeOf v).records) := by
      have : (pointingShapeOf v).records = v.records.length := rfl
      omega
    rw [PointingVectorWireView.get, hshape, ok_bind, rejectIf_of_not hbounds, ok_bind, hoffset]
    have hwords : (pointingShapeOf v).recordWords = if v.recordReference then 2 else 1 := rfl
    simp only [hwords] at hreference ⊢
    simp only [hreference, ok_bind, hangles, hvector, pure_eq_ok]

/-- A valid pointing vector is carried, record by record. -/
theorem pointing_carries (b : TimestampFormatBinding) {v : PointingVectorValue} {current : Bool}
    {extent : FieldExtent} {piece : Bytes} (h : pointingExtent v current = .ok extent)
    (hwrite : writePointing v = .ok piece) :
    Carries Field.pointingVectorStructure b piece extent (.pointing v) := by
  obtain ⟨hvalid, rfl⟩ := pointingExtent_eq_ok h
  rw [writePointing, pointingShape_eq hvalid.count] at hwrite
  obtain rfl := Except.ok.inj hwrite
  obtain ⟨body, hbody⟩ : ∃ body, v.global.elim [] (fun g => be32 (referenceBits g)) ++
      v.records.flatMap writePointingRecord = body := ⟨_, rfl⟩
  obtain ⟨htotal, hsize, hglobal, hget⟩ := pointing_view hvalid hbody
  rw [hbody]
  show Carries Field.pointingVectorStructure b
    (writeShape (pointingShapeOf v) (pointingSelectors v.recordReference) ++ body) _ _
  have hsmall := pointing_small hvalid.count
  have hextent : ∀ c rest, cif1WireExtent Field.pointingVectorStructure
      (writeShape (pointingShapeOf v) (pointingSelectors v.recordReference) ++ body ++ rest) c =
        .ok { bytes := (pointingShapeOf v).totalWords * 4, units := (pointingShapeOf v).totalWords
              records := v.records.length } := by
    intro c rest
    rw [cif1WireExtent, if_neg (by decide), if_neg (by decide), List.append_assoc,
      wireRecordShape_write hsmall (pointing_declared hvalid.count c)
        (by rw [List.length_append]; omega)]
    rfl
  have hlen : (writeShape (pointingShapeOf v) (pointingSelectors v.recordReference) ++ body).length =
      (pointingShapeOf v).totalWords * 4 := by
    rw [List.length_append, length_writeShape, htotal]
  have hcheck : ∀ c, validateCif1Wire Field.pointingVectorStructure
      (writeShape (pointingShapeOf v) (pointingSelectors v.recordReference) ++ body) c = .ok () := by
    intro c
    have h := hextent c []
    rw [List.append_nil] at h
    rw [validateCif1Wire, h, ok_bind, rejectIf_of_not (by simp only [hlen]; simp), ok_bind,
      if_neg (by decide), if_pos rfl, validatePointingWire]
    simp only [hglobal, ok_bind]
    rw [forM_eq_ok]
    intro i hi
    obtain ⟨record, hrecord⟩ : ∃ record, v.records[i]? = some record :=
      ⟨_, List.getElem?_eq_getElem (List.mem_range.mp hi)⟩
    rw [hget i record hrecord]
    rfl
  refine ⟨hlen, hextent b, hcheck b, ?_⟩
  intro view hkind hbase hview hbytes _
  have hholds : view.holds (· = Field.pointingVectorStructure) := by
    simp [FieldView.holds, hkind, hbase, hview]
  obtain ⟨-, -, -, -, hselectors, -, -, -, -⟩ :=
    load32_writeShape hsmall (pointingSelectors v.recordReference) body
  have hflag : bit (pointingSelectors v.recordReference) 31 = v.recordReference := by
    cases v.recordReference <;> decide
  refine ⟨{ bytes := view.bytes }, ?_, ?_, ⟨_, ?_, hflag⟩, ?_, ?_⟩
  · rw [FieldView.pointingVectors, rejectIf_of_not (Decidable.not_not.mpr hholds), ok_bind, hview,
      hbytes, hcheck]
    rfl
  · rw [hbytes, hglobal]
  · simp only [hbytes]
    exact hselectors
  · rw [hbytes, hsize]
  · intro i record hrecord
    rw [hbytes, hget i record hrecord]

/-! ## Sector scans -/

/-- The members a record has are the ones its selectors name. -/
structure MembersOf (selectors : UInt32) (r : SectorRecord) : Prop where
  f2 : r.f2Q20.isSome = bit selectors 29
  bandwidth : r.bandwidthQ20.isSome = bit selectors 28
  step : r.stepQ20.isSome = bit selectors 27
  points : r.points.isSome = bit selectors 26
  gain : r.gainQ7.isSome = bit selectors 25
  threshold : r.thresholdQ7.isSome = bit selectors 24
  dwell : r.dwellFs.isSome = bit selectors 23
  start : r.start.isSome = bit selectors 22
  time3 : r.time3Fs.isSome = bit selectors 21
  time4 : r.time4Fs.isSome = bit selectors 20

theorem membersOf_of_present {selectors : UInt32} {r : SectorRecord}
    (h : r.present = selectedMembers selectors) : MembersOf selectors r := by
  simp only [SectorRecord.present, selectedMembers, List.range_succ, List.range_zero, List.nil_append,
    List.cons_append, List.map_cons, List.map_nil, List.cons.injEq, and_true] at h
  obtain ⟨h₁, h₂, h₃, h₄, h₅, h₆, h₇, h₈, h₉, h₁₀⟩ := h
  exact ⟨h₁, h₂, h₃, h₄, h₅, h₆, h₇, h₈, h₉, h₁₀⟩

/-- A start time in the format `format`, with absent parts zero. -/
structure StartIn (format : TimestampFormatBinding) (t : SectorStartTime) : Prop where
  tsi : t.tsi = format.tsi
  tsf : t.tsf = format.tsf
  seconds : t.tsi = 0 → t.seconds = 0
  fractional : t.tsf = 0 → t.fractional = 0

theorem reads_start {format : TimestampFormatBinding} {t : SectorStartTime} (h : StartIn format t) :
    Reads (readStart format) (writeStart t) t := by
  intro data i j hseg
  obtain ⟨s, f, k, hs, hf, rs, rf⟩ := reads_time h.seconds h.fractional hseg
  rw [h.tsi] at hs
  rw [h.tsf] at hf
  simp only [readStart, hs, hf, ok_bind, rs, rf, pure_eq_ok]
  rw [← h.tsi, ← h.tsf]

/-- A sector record is read back with the members that the selectors name. -/
theorem reads_sector {selectors : UInt32} {format : TimestampFormatBinding} {r : SectorRecord}
    (hm : MembersOf selectors r) (hstart : ∀ t ∈ r.start, StartIn format t) :
    Reads (readSector selectors format) (writeSector r) r := by
  intro data i j hseg
  obtain ⟨o₁, s₁, hseg⟩ := Segment.append_iff.mp hseg
  obtain ⟨o₂, s₂, hseg⟩ := Segment.append_iff.mp hseg
  obtain ⟨o₃, s₃, hseg⟩ := Segment.append_iff.mp hseg
  obtain ⟨o₄, s₄, hseg⟩ := Segment.append_iff.mp hseg
  obtain ⟨o₅, s₅, hseg⟩ := Segment.append_iff.mp hseg
  obtain ⟨o₆, s₆, hseg⟩ := Segment.append_iff.mp hseg
  obtain ⟨o₇, s₇, hseg⟩ := Segment.append_iff.mp hseg
  obtain ⟨o₈, s₈, hseg⟩ := Segment.append_iff.mp hseg
  obtain ⟨o₉, s₉, hseg⟩ := Segment.append_iff.mp hseg
  obtain ⟨o₁₀, s₁₀, hseg⟩ := Segment.append_iff.mp hseg
  obtain ⟨o₁₁, s₁₁, s₁₂⟩ := Segment.append_iff.mp hseg
  have r₃ := reads_if (fun v _ => reads_signed64 v) data _ _ s₃
  have r₄ := reads_if (fun v _ => reads_signed64 v) data _ _ s₄
  have r₅ := reads_if (fun v _ => reads_signed64 v) data _ _ s₅
  have r₆ := reads_if (fun v _ => reads_word v) data _ _ s₆
  have r₇ := reads_if (fun v _ => reads_pair v) data _ _ s₇
  have r₈ := reads_if (fun v _ => reads_pair v) data _ _ s₈
  have r₉ := reads_if (fun v _ => reads_signed64 v) data _ _ s₉
  have r₁₀ := reads_if (fun t ht => reads_start (hstart t ht)) data _ _ s₁₀
  have r₁₁ := reads_if (fun v _ => reads_signed64 v) data _ _ s₁₁
  have r₁₂ := reads_if (fun v _ => reads_signed64 v) data _ _ s₁₂
  simp only [readSector, ← hm.f2, ← hm.bandwidth, ← hm.step, ← hm.points, ← hm.gain, ← hm.threshold,
    ← hm.dwell, ← hm.start, ← hm.time3, ← hm.time4, reads_word _ _ _ _ s₁, reads_signed64 _ _ _ _ s₂,
    r₃, r₄, r₅, r₆, r₇, r₈, r₉, r₁₀, r₁₁, r₁₂, ok_bind, pure_eq_ok]

theorem length_elim {α : Type} {write : α → Bytes} {n : ℕ} {o : Option α}
    (h : ∀ a ∈ o, (write a).length = n * 4) :
    (o.elim [] write).length = (if o.isSome then n else 0) * 4 := by
  cases o with
  | none => simp
  | some a => exact h a rfl

/-- A sector record has the length that the selectors ask for. -/
theorem length_writeSector {selectors : UInt32} {format : TimestampFormatBinding} {r : SectorRecord}
    (hm : MembersOf selectors r) (hstart : ∀ t ∈ r.start, StartIn format t) :
    (writeSector r).length = sectorRecordWords selectors format * 4 := by
  have hsigned : ∀ v, (writeSigned64 v).length = 2 * 4 := fun _ => rfl
  have hpair : ∀ v, (writePair v).length = 1 * 4 := fun _ => rfl
  have hstartlen : ∀ t ∈ r.start, (writeStart t).length = startWords format * 4 := by
    intro t ht
    rw [startWords, ← (hstart t ht).tsi, ← (hstart t ht).tsf]
    exact length_time ..
  simp only [writeSector, List.length_append, length_be32, hsigned,
    length_elim (o := r.f2Q20) (fun v _ => hsigned v),
    length_elim (o := r.bandwidthQ20) (fun v _ => hsigned v),
    length_elim (o := r.stepQ20) (fun v _ => hsigned v),
    length_elim (o := r.points) (n := 1) (fun v _ => length_be32 v),
    length_elim (o := r.gainQ7) (fun v _ => hpair v),
    length_elim (o := r.thresholdQ7) (fun v _ => hpair v),
    length_elim (o := r.dwellFs) (fun v _ => hsigned v), length_elim hstartlen,
    length_elim (o := r.time3Fs) (fun v _ => hsigned v),
    length_elim (o := r.time4Fs) (fun v _ => hsigned v), hm.f2, hm.bandwidth, hm.step, hm.points,
    hm.gain, hm.threshold, hm.dwell, hm.start, hm.time3, hm.time4, sectorRecordWords]
  omega

/-- The shape of a sector scan. -/
def sectorShapeOf (v : SectorStepScanValue) : RecordShape :=
  { headerWords := 3, recordWords := sectorRecordWords v.selectors v.startFormat
    records := v.records.length, headerCode := 0 }

/-- What the extent of a sector scan says of its value. -/
structure SectorsValid (v : SectorStepScanValue) : Prop where
  count : v.records.length ≤ 256
  shape : sectorShape v.selectors v.records.length v.startFormat = .ok (sectorShapeOf v)
  members : ∀ r ∈ v.records, MembersOf v.selectors r
  starts : ∀ r ∈ v.records, ∀ t ∈ r.start, StartIn v.startFormat t

/-- The extent of a sector scan is that of its shape, with its times in the bound format. -/
theorem sectorsExtent_eq_ok {v : SectorStepScanValue} {binding : TimestampFormatBinding}
    {current : Bool} {extent : FieldExtent} (h : sectorsExtent v binding current = .ok extent) :
    SectorsValid v ∧ (bit v.selectors 22 → v.startFormat.bound ∧ binding.tsi = v.startFormat.tsi ∧
        binding.tsf = v.startFormat.tsf) ∧
      extent = { bytes := (sectorShapeOf v).totalWords * 4, units := (sectorShapeOf v).totalWords
                 records := v.records.length } := by
  simp only [sectorsExtent, bind_eq_ok, rejectIf_eq_ok, gt_iff_lt, Nat.not_lt, pure_eq_ok,
    Except.ok.injEq] at h
  obtain ⟨_, hcount, shape, hshape, _, -, _, hformat, _, hrecords, rfl⟩ := h
  have hbound : bit v.selectors 22 → v.startFormat.bound := by
    intro hbit
    simp only [sectorShape, bind_eq_ok, rejectIf_eq_ok] at hshape
    obtain ⟨_, -, _, -, _, h, -⟩ := hshape
    by_contra hb
    exact h ⟨hbit, .inl hb⟩
  have hshape' : shape = sectorShapeOf v := by
    simp only [sectorShape, bind_eq_ok, rejectIf_eq_ok, pure_eq_ok, Except.ok.injEq] at hshape
    obtain ⟨_, -, _, -, _, -, rfl⟩ := hshape
    rfl
  subst hshape'
  have hone : ∀ r ∈ v.records, validateSectorRecord v.selectors v.startFormat r current = .ok () := by
    intro r hr
    have h := forM_eq_ok.mp hrecords r hr
    simp only [validateSector, bind_eq_ok] at h
    obtain ⟨_, -, _, -, h⟩ := h
    exact forM_eq_ok.mp h r (List.mem_singleton_self r)
  refine ⟨⟨hcount, hshape, ?_, ?_⟩, ?_, rfl⟩
  · intro r hr
    have h := hone r hr
    simp only [validateSectorRecord, bind_eq_ok, rejectIf_eq_ok, ne_eq, Decidable.not_not] at h
    obtain ⟨_, h, -⟩ := h
    exact membersOf_of_present h
  · intro r hr t ht
    have h := hone r hr
    simp only [validateSectorRecord, bind_eq_ok, rejectIf_eq_ok, not_exists, not_and, not_or,
      Decidable.not_not] at h
    obtain ⟨_, -, _, h, -⟩ := h
    obtain ⟨h₁, h₂, h₃, h₄⟩ := h t ht
    exact ⟨h₁, h₂, h₃, h₄⟩
  · intro hbit
    refine ⟨hbound hbit, ?_⟩
    by_contra hne
    exact hformat ⟨hbit, not_and_or.mp hne⟩

/-- The shape of a sector scan does not overflow its words. -/
theorem sectors_small {v : SectorStepScanValue} (h : v.records.length ≤ 256) :
    SmallShape (sectorShapeOf v) := by
  have hwords : sectorRecordWords v.selectors v.startFormat ≤ 21 := by
    have hmember : ∀ (b : Prop) [Decidable b] (n : ℕ), (if b then n else 0) ≤ n := by
      intro b _ n
      split <;> omega
    have hstart : startWords v.startFormat ≤ 1 + 2 := Nat.add_le_add (hmember _ 1) (hmember _ 2)
    have htime := (hmember (bit v.selectors 22) (startWords v.startFormat)).trans hstart
    have h29 := hmember (bit v.selectors 29) 2
    have h28 := hmember (bit v.selectors 28) 2
    have h27 := hmember (bit v.selectors 27) 2
    have h26 := hmember (bit v.selectors 26) 1
    have h25 := hmember (bit v.selectors 25) 1
    have h24 := hmember (bit v.selectors 24) 1
    have h23 := hmember (bit v.selectors 23) 2
    have h21 := hmember (bit v.selectors 21) 2
    have h20 := hmember (bit v.selectors 20) 2
    exact Nat.add_le_add (Nat.add_le_add (Nat.add_le_add (Nat.add_le_add (Nat.add_le_add
      (Nat.add_le_add (Nat.add_le_add (Nat.add_le_add (Nat.add_le_add (Nat.add_le_add
        (Nat.le_refl 3) h29) h28) h27) h26) h25) h24) h23) htime) h21) h20
  refine ⟨?_, ?_, ?_, h⟩
  · simp [sectorShapeOf]
  · simp [sectorShapeOf]
  · simp only [sectorShapeOf]
    omega

/-- The header of a scan declares its shape. -/
theorem sectors_declared {v : SectorStepScanValue} (h : SectorsValid v) {b : TimestampFormatBinding}
    (hb : bit v.selectors 22 → b = v.startFormat) :
    declaredShape Field.sectorStepScan (sectorShapeOf v).headerCode (sectorShapeOf v).records
      v.selectors b = .ok (sectorShapeOf v) := by
  have hsame : sectorShape v.selectors v.records.length b =
      sectorShape v.selectors v.records.length v.startFormat := by
    by_cases hbit : bit v.selectors 22
    · rw [hb hbit]
    · simp [sectorShape, sectorRecordWords, hbit]
  rw [declaredShape, if_neg (by decide), if_pos rfl, rejectIf_of_not (by simp [sectorShapeOf]), ok_bind]
  exact hsame.trans h.shape

/-- A valid sector scan is carried, record by record. -/
theorem sectors_carries {binding b : TimestampFormatBinding} {v : SectorStepScanValue}
    {current : Bool} {extent : FieldExtent} {piece : Bytes}
    (h : sectorsExtent v binding current = .ok extent) (hwrite : writeSectors v = .ok piece)
    (hb : bit v.selectors 22 → b.bound ∧ b.tsi = binding.tsi ∧ b.tsf = binding.tsf) :
    Carries Field.sectorStepScan b piece extent (.sectors v) := by
  obtain ⟨hvalid, hformat, rfl⟩ := sectorsExtent_eq_ok h
  have hstart : bit v.selectors 22 → b = v.startFormat := by
    intro hbit
    obtain ⟨hbound, htsi, htsf⟩ := hb hbit
    obtain ⟨hbound', htsi', htsf'⟩ := hformat hbit
    rw [TimestampFormatBinding.mk.injEq]
    exact ⟨htsi.trans htsi', htsf.trans htsf', hbound.trans hbound'.symm⟩
  rw [writeSectors, hvalid.shape] at hwrite
  obtain rfl := Except.ok.inj hwrite
  show Carries Field.sectorStepScan b
    (writeShape (sectorShapeOf v) v.selectors ++ v.records.flatMap writeSector) _ _
  -- a record is in the packet's format: with a start time the formats agree, without one it has none
  have hstarts : ∀ r ∈ v.records, ∀ t ∈ r.start, StartIn b t := by
    intro r hr t ht
    have hbit : bit v.selectors 22 := by
      rw [← (hvalid.members r hr).start, Option.mem_def.mp ht]
      rfl
    rw [hstart hbit]
    exact hvalid.starts r hr t ht
  have hrecordlen : ∀ r ∈ v.records, (writeSector r).length = (sectorShapeOf v).recordWords * 4 :=
    fun r hr => length_writeSector (hvalid.members r hr) (hvalid.starts r hr)
  have hbodylen := length_flatMap_of_const hrecordlen
  obtain ⟨body, hbody⟩ : ∃ body, v.records.flatMap writeSector = body := ⟨_, rfl⟩
  rw [hbody] at hbodylen ⊢
  have hsmall := sectors_small hvalid.count
  have htotal : 12 + body.length = (sectorShapeOf v).totalWords * 4 := by
    have hprod : v.records.length * ((sectorShapeOf v).recordWords * 4) =
        (sectorShapeOf v).recordWords * v.records.length * 4 := by
      rw [← Nat.mul_assoc, Nat.mul_comm v.records.length]
    have hrecords : (sectorShapeOf v).records = v.records.length := rfl
    have hheader : (sectorShapeOf v).headerWords = 3 := rfl
    rw [hbodylen, RecordShape.totalWords, hprod, hrecords, hheader]
    omega
  have hshape : ∀ rest, wireRecordShape Field.sectorStepScan
      (writeShape (sectorShapeOf v) v.selectors ++ body ++ rest) b = .ok (sectorShapeOf v) := by
    intro rest
    rw [List.append_assoc]
    exact wireRecordShape_write hsmall (sectors_declared hvalid hstart)
      (by rw [List.length_append]; omega)
  have hextent : ∀ rest, cif1WireExtent Field.sectorStepScan
      (writeShape (sectorShapeOf v) v.selectors ++ body ++ rest) b =
        .ok { bytes := (sectorShapeOf v).totalWords * 4, units := (sectorShapeOf v).totalWords
              records := v.records.length } := by
    intro rest
    rw [cif1WireExtent, if_neg (by decide), if_neg (by decide), hshape]
    rfl
  have hlen : (writeShape (sectorShapeOf v) v.selectors ++ body).length =
      (sectorShapeOf v).totalWords * 4 := by
    rw [List.length_append, length_writeShape, htotal]
  have hcheck : validateCif1Wire Field.sectorStepScan
      (writeShape (sectorShapeOf v) v.selectors ++ body) b = .ok () := by
    have h := hextent []
    rw [List.append_nil] at h
    rw [validateCif1Wire, h, ok_bind, rejectIf_of_not (by simp only [hlen]; simp), ok_bind,
      if_neg (by decide), if_neg (by decide), if_neg (by decide)]
    rfl
  refine ⟨hlen, hextent, hcheck, ?_⟩
  intro view hkind hbase hview hbytes hformat'
  have hholds : view.holds (· = Field.sectorStepScan) := by
    simp [FieldView.holds, hkind, hbase, hview]
  obtain ⟨-, -, -, -, hselectors, -, -, -, -⟩ := load32_writeShape hsmall v.selectors body
  have hshape' := hshape []
  rw [List.append_nil, ← hbytes] at hshape'
  rw [← hbytes] at hlen hselectors
  have hsize : (SectorStepScanWireView.mk view.bytes b).size = .ok v.records.length := by
    rw [SectorStepScanWireView.size, hshape', ok_bind, rejectIf_of_not (by simp [hlen])]
    rfl
  refine ⟨{ bytes := view.bytes, startFormat := view.timestampFormat }, ?_, ?_, ?_, ?_, ?_⟩
  · rw [FieldView.sectors, rejectIf_of_not (Decidable.not_not.mpr hholds), ok_bind, hview, hformat',
      hbytes, hcheck]
    rfl
  · rw [hformat', SectorStepScanWireView.selectors, hsize, ok_bind, hselectors]
  · rw [hformat']
    exact hstart
  · rw [hformat', hsize]
  · intro i record hrecord
    have hmem := List.mem_of_getElem? hrecord
    have hi : i < v.records.length := (List.getElem?_eq_some_iff.mp hrecord).1
    have hseg : Segment view.bytes 0 (writeShape (sectorShapeOf v) v.selectors ++ body)
        view.bytes.length := Segment.whole_iff.mpr hbytes
    obtain ⟨o₁, s₁, s₂⟩ := Segment.append_iff.mp hseg
    obtain rfl : o₁ = 0 + 12 := by
      have := s₁.stop_eq
      rwa [length_writeShape] at this
    rw [← hbody] at s₂
    obtain ⟨stop, hrec⟩ := segment_record hrecordlen s₂ hrecord
    have hread := reads_sector (hvalid.members record hmem) (hstarts record hmem) _ _ _ hrec
    have hoffset : ((sectorShapeOf v).headerWords + i * (sectorShapeOf v).recordWords) * 4 =
        0 + 12 + i * ((sectorShapeOf v).recordWords * 4) := by
      have hheader : (sectorShapeOf v).headerWords = 3 := rfl
      rw [hheader, Nat.add_mul, Nat.mul_assoc]
    have hbounds : ¬((sectorShapeOf v).totalWords * 4 ≠ view.bytes.length ∨
        i ≥ (sectorShapeOf v).records) := by
      have : (sectorShapeOf v).records = v.records.length := rfl
      omega
    rw [hformat', SectorStepScanWireView.get, hshape', ok_bind, rejectIf_of_not hbounds, ok_bind,
      hselectors, ok_bind, hoffset, hread]
    rfl

/-! ## All structures -/

/-- A measured write is one that measures the same extent again. -/
theorem writeMeasured_eq_ok {id : FieldId} {v : NativeValue} {size : ℕ}
    {binding : TimestampFormatBinding} {attr : Attribute} {write : FieldExtent → Result Bytes}
    {extent : FieldExtent} {piece : Bytes}
    (hextent : nativeStructureExtent id v binding attr = .ok extent)
    (h : writeMeasured id v size binding attr write = .ok piece) : write extent = .ok piece := by
  simp only [writeMeasured, hextent, bind_eq_ok, Except.ok.injEq] at h
  obtain ⟨_, rfl, _, -, h⟩ := h
  exact h

/-- The words of a sentence can be counted in the word that declares them. -/
def SmallText (v : NativeValue) : Prop := ∀ a, v = .gpsAscii a → a.text.length < 2 ^ 32

/-- A structure within the work of a packet has a small text. -/
theorem smallText_of_units {id : FieldId} {v : NativeValue} {binding : TimestampFormatBinding}
    {attr : Attribute} {extent : FieldExtent}
    (h : nativeStructureExtent id v binding attr = .ok extent) (hunits : extent.units ≤ 4096) :
    SmallText v := by
  rintro a rfl
  simp only [nativeStructureExtent, asciiExtent, bind_eq_ok, checkedAdd_eq_ok, pure_eq_ok,
    Except.ok.injEq] at h
  obtain ⟨_, -, _, -, _, ⟨-, rfl⟩, _, ⟨-, rfl⟩, rfl⟩ := h
  simp only at hunits
  omega

/-- Every structure the encoder measures and writes is carried by the bytes it writes. -/
theorem writeStructure_carries {id : FieldId} {v : NativeValue} {binding b : TimestampFormatBinding}
    {attr : Attribute} {extent : FieldExtent} {piece : Bytes}
    (hextent : nativeStructureExtent id v binding attr = .ok extent) (hsmall : SmallText v)
    (hwrite : writeStructure id v extent.bytes binding attr = .ok piece)
    (hb : (PacketBuilder.nativeTimestampBinding v).isSome →
      b.bound ∧ b.tsi = binding.tsi ∧ b.tsf = binding.tsf) :
    Carries id b piece extent v := by
  have hmatch : v.matches id := by
    simp only [nativeStructureExtent, bind_eq_ok, rejectIf_eq_ok, Decidable.not_not] at hextent
    obtain ⟨_, h, -⟩ := hextent
    exact h
  have hmeasured := hextent
  unfold writeStructure at hwrite
  unfold nativeStructureExtent at hmeasured
  rw [rejectIf_of_not (Decidable.not_not.mpr hmatch), ok_bind] at hwrite hmeasured
  cases v with
  | geolocation g =>
    simp only [bind_eq_ok, pure_eq_ok, Except.ok.injEq] at hmeasured
    obtain ⟨_, hvalid, rfl⟩ := hmeasured
    obtain rfl := Except.ok.inj hwrite
    exact geolocation_carries (by simpa [NativeValue.matches] using hmatch) b hvalid
  | ephemeris e =>
    simp only [bind_eq_ok, pure_eq_ok, Except.ok.injEq] at hmeasured
    obtain ⟨_, hvalid, rfl⟩ := hmeasured
    obtain rfl := Except.ok.inj hwrite
    exact ephemeris_carries (by simpa [NativeValue.matches] using hmatch) b hvalid
  | gpsAscii a =>
    simp only [bind_eq_ok, pure_eq_ok, Except.ok.injEq] at hwrite
    obtain ⟨_, -, rfl⟩ := hwrite
    obtain rfl : id = Field.gpsAscii := by simpa [NativeValue.matches] using hmatch
    exact gpsAscii_carries b hmeasured (hsmall a rfl)
  | associations a =>
    simp only [bind_eq_ok, pure_eq_ok, Except.ok.injEq] at hwrite
    obtain ⟨_, -, rfl⟩ := hwrite
    obtain rfl : id = Field.contextAssociationLists := by simpa [NativeValue.matches] using hmatch
    exact associations_carries b hmeasured
  | uuid u =>
    simp only [bind_eq_ok, pure_eq_ok, Except.ok.injEq] at hmeasured
    obtain ⟨_, -, rfl⟩ := hmeasured
    obtain rfl := Except.ok.inj hwrite
    exact uuid_carries (by simpa [NativeValue.matches] using hmatch) b u
  | duration d =>
    obtain rfl := Except.ok.inj (writeMeasured_eq_ok hextent hwrite)
    exact duration_carries hmatch hmeasured (hb rfl)
  | indices l =>
    obtain rfl := Except.ok.inj (writeMeasured_eq_ok hextent hwrite)
    obtain rfl : id = Field.indexList := by simpa [NativeValue.matches] using hmatch
    exact indices_carries b hmeasured
  | pointing p =>
    obtain rfl : id = Field.pointingVectorStructure := by simpa [NativeValue.matches] using hmatch
    exact pointing_carries b hmeasured (writeMeasured_eq_ok hextent hwrite)
  | spectrum s =>
    obtain rfl := Except.ok.inj (writeMeasured_eq_ok hextent hwrite)
    simp only [bind_eq_ok, pure_eq_ok, Except.ok.injEq] at hmeasured
    obtain ⟨_, hvalid, rfl⟩ := hmeasured
    obtain rfl : id = Field.spectrum := by simpa [NativeValue.matches] using hmatch
    exact spectrum_carries b hvalid
  | sectors s =>
    obtain rfl : id = Field.sectorStepScan := by simpa [NativeValue.matches] using hmatch
    refine sectors_carries hmeasured (writeMeasured_eq_ok hextent hwrite) fun hbit => hb ?_
    simp [PacketBuilder.nativeTimestampBinding, hbit]

end Vita.Codec
