import Vita.Codec.Packet
import Vita.Codec.WireTheorems

/-!
# Reads stay inside the input

`load32` fails with `Fault.outside` where the C++ function would read a byte outside its span. Here
every reader is shown to avoid that failure on every input, truncated or corrupted as it may be: first
the envelope, then the checks of received structures, then the traversal of a body.

Main lemmas:
- `inside_decodeEnvelope`: the envelope;
- `inside_wireStructureExtent` and `inside_validateStructureWire`: structures of any declared size;
- `inside_validateWireAttribute`: a span of the extent its field requires;
- `inside_decodePacketBounded`: whole packets.
-/

namespace Vita.Codec

open Words Checked

/-! ## The envelope -/

@[simp] theorem inside_take {wire : Bytes} {offset : ℕ} : Inside (take wire wire.length offset) :=
  take_ne_outside

section Stages

variable {wire : Bytes} {offset : ℕ}

theorem inside_takeStreamId {present : Bool} :
    Inside (takeStreamId present wire wire.length offset) := by
  simp [takeStreamId]

theorem inside_takeClassId {present : Bool} :
    Inside (takeClassId present wire wire.length offset) := by
  simp [takeClassId]

theorem inside_takeTimestamp {tsi : Tsi} {tsf : Tsf} :
    Inside (takeTimestamp tsi tsf wire wire.length offset) := by
  simp [takeTimestamp, takeInteger, takeFractional]

theorem inside_takeIdentifier {cam : UInt32} {enable uuid : ℕ} :
    Inside (takeIdentifier cam enable uuid wire wire.length offset) := by
  simp [takeIdentifier]

theorem inside_takeCommand {present : Bool} :
    Inside (takeCommand present wire wire.length offset) := by
  simp [takeCommand, inside_takeIdentifier]

end Stages

theorem inside_decodePrologue (wire : Bytes) : Inside (decodePrologue wire) := by
  simp only [decodePrologue, avoids_bind, avoids_rejectIf, inside_load32, rejectIf_eq_ok, ne_eq,
    reduceCtorEq, not_false_eq_true, implies_true, true_and]
  intro _ hlen
  refine ⟨by omega, fun h _ _ _ _ _ _ hsize _ _ => ?_⟩
  rw [Decidable.not_not.mp hsize]
  simp [inside_takeStreamId, inside_takeClassId, inside_takeTimestamp, inside_takeCommand]

theorem inside_takeTrailer {present : Bool} {wire : Bytes} (h : 4 ≤ wire.length) :
    Inside (takeTrailer present wire) := by
  simp only [takeTrailer, avoids_ite, avoids_bind, inside_load32, pure_eq_ok, avoids_ok, implies_true,
    and_true]
  intro _
  omega

/-- Decoding an envelope reads inside the input. -/
theorem inside_decodeEnvelope (wire : Bytes) : Inside (decodeEnvelope wire) := by
  simp only [decodeEnvelope, avoids_bind, inside_decodePrologue, true_and, Prod.forall]
  intro e offset hpro
  have hlen : 4 ≤ wire.length := by
    simp only [decodePrologue, bind_eq_ok, rejectIf_eq_ok] at hpro
    obtain ⟨_, hlen, -⟩ := hpro
    omega
  simp [inside_takeTrailer hlen]

/-! ## Declared extents -/

theorem inside_wireRecordShape (id : FieldId) (bytes : Bytes) (binding : TimestampFormatBinding) :
    Inside (wireRecordShape id bytes binding) := by
  simp only [wireRecordShape, avoids_bind, avoids_rejectIf, invalidWire, ne_eq, reduceCtorEq,
    not_false_eq_true, implies_true, rejectIf_eq_ok, inside_load32, inside_decoded, true_and, pure_eq_ok,
    avoids_ok, and_true]
  intro _ hlen
  exact ⟨by omega, fun _ _ => ⟨by omega, fun _ _ => by omega⟩⟩

theorem inside_indexWireExtent (bytes : Bytes) : Inside (indexWireExtent bytes) := by
  simp only [indexWireExtent, avoids_bind, avoids_rejectIf, invalidWire, ne_eq, reduceCtorEq,
    not_false_eq_true, implies_true, rejectIf_eq_ok, inside_load32, inside_decoded, true_and, pure_eq_ok,
    avoids_ok, and_true]
  intro _ hlen
  exact ⟨by omega, fun _ _ => by omega⟩

theorem inside_cif1WireExtent (id : FieldId) (bytes : Bytes) (binding : TimestampFormatBinding) :
    Inside (cif1WireExtent id bytes binding) := by
  simp [cif1WireExtent, inside_indexWireExtent, inside_wireRecordShape]

theorem inside_variableExtent (id : FieldId) (bytes : Bytes) : Inside (variableExtent id bytes) := by
  simp only [variableExtent, avoids_bind, avoids_rejectIf, avoids_ite, invalidWire, ne_eq, reduceCtorEq,
    not_false_eq_true, implies_true, rejectIf_eq_ok, inside_load32, inside_decoded, true_and, pure_eq_ok,
    throw_eq_error, avoids_error, avoids_ok, and_true]
  intro _ hlen
  exact ⟨by omega, fun _ _ => by omega⟩

/-- The extent of a structure is found inside the bytes that remain, whatever it declares. -/
theorem inside_wireStructureExtent (id : FieldId) (bytes : Bytes) (binding : TimestampFormatBinding) :
    Inside (wireStructureExtent id bytes binding) := by
  simp [wireStructureExtent, plainExtent, inside_cif1WireExtent, inside_variableExtent]

/-- An accepted record structure has at least its three describing words, a record has at least one
word, and all of its declared words are there. -/
theorem wireRecordShape_inside {id : FieldId} {bytes : Bytes} {binding : TimestampFormatBinding}
    {shape : RecordShape} (h : wireRecordShape id bytes binding = .ok shape) :
    12 ≤ bytes.length ∧ shape.totalWords * 4 ≤ bytes.length := by
  simp only [wireRecordShape, bind_eq_ok, rejectIf_eq_ok, load32_eq_ok, Result.decoded_eq_ok,
    pure_eq_ok, Except.ok.injEq] at h
  obtain ⟨_, hlen, total, -, _, -, _, -, declared, hdeclared, _, hroom, _, -, _, -, _, hshape, rfl⟩ := h
  simp only [checkedMultiply, bind_eq_ok, rejectIf_eq_ok, pure_eq_ok, Except.ok.injEq] at hdeclared
  obtain ⟨_, -, rfl⟩ := hdeclared
  refine ⟨by omega, ?_⟩
  have htotal : _ = total.toNat := Decidable.byContradiction fun hne => hshape (.inr (.inr hne))
  omega

/-! ## Checks of structures -/

theorem inside_readReference (bytes : Bytes) (offset : ℕ) (global : Bool) :
    Inside (readReference bytes offset global) := by
  simp [readReference, invalidWire]
  omega

theorem inside_pointing_size (view : PointingVectorWireView) : Inside view.size := by
  simp [PointingVectorWireView.size, inside_wireRecordShape, invalidWire]

theorem inside_pointing_global (view : PointingVectorWireView) : Inside view.global := by
  simp only [PointingVectorWireView.global, avoids_bind, inside_pointing_size, true_and, inside_load32,
    avoids_ite, inside_readReference, pure_eq_ok, avoids_ok, implies_true, and_true]
  intro n hn
  simp only [PointingVectorWireView.size, bind_eq_ok] at hn
  obtain ⟨shape, hshape, -⟩ := hn
  have hlen := (wireRecordShape_inside hshape).1
  omega

/-- The words of a record lie between the header and the end. -/
theorem record_inside {shape : RecordShape} {index k : ℕ} (hindex : index < shape.records)
    (hk : k < shape.recordWords) :
    (shape.headerWords + index * shape.recordWords) * 4 + k * 4 + 4 ≤ shape.totalWords * 4 := by
  have hnext : (index + 1) * shape.recordWords ≤ shape.records * shape.recordWords :=
    Nat.mul_le_mul_right _ hindex
  rw [Nat.succ_mul] at hnext
  rw [RecordShape.totalWords, Nat.mul_comm shape.recordWords]
  omega

/-- A pointing record is one word, or two with its reference. -/
theorem pointingShape_words {id : FieldId} {bytes : Bytes} {binding : TimestampFormatBinding}
    {shape : RecordShape} (hid : id = Field.pointingVectorStructure)
    (h : wireRecordShape id bytes binding = .ok shape) :
    shape.recordWords = 1 ∨ shape.recordWords = 2 := by
  simp only [wireRecordShape, bind_eq_ok, declaredShape, if_pos hid, Result.decoded_eq_ok,
    pointingShape, pure_eq_ok, Except.ok.injEq] at h
  obtain ⟨_, -, _, -, _, -, _, -, _, -, _, -, _, -, _, ⟨_, -, _, -, rfl⟩, _, -, rfl⟩ := h
  split <;> simp

/-- A record of the view is read within the words that the view was made of. -/
theorem inside_pointing_get (view : PointingVectorWireView) (index : ℕ) :
    Inside (view.get index) := by
  simp only [PointingVectorWireView.get, avoids_bind, inside_wireRecordShape, true_and,
    avoids_rejectIf, invalidWire, ne_eq, reduceCtorEq, not_false_eq_true, implies_true,
    rejectIf_eq_ok, Prod.forall, inside_load32, pure_eq_ok, avoids_ok, and_true]
  intro shape hshape _ hsize
  have hlen := (wireRecordShape_inside hshape).2
  have hindex : index < shape.records := by omega
  refine ⟨?_, fun reference offset hreference => ?_⟩
  · simp [PointingVectorWireView.recordReference, inside_readReference]
  · unfold PointingVectorWireView.recordReference at hreference
    split at hreference
    · next hwords =>
      simp only [bind_eq_ok, pure_eq_ok, Except.ok.injEq, Prod.mk.injEq] at hreference
      obtain ⟨_, -, -, rfl⟩ := hreference
      have hin := record_inside (k := 1) hindex (by omega)
      omega
    · next hwords =>
      simp only [pure_eq_ok, Except.ok.injEq, Prod.mk.injEq] at hreference
      obtain ⟨-, rfl⟩ := hreference
      obtain hone | htwo := pointingShape_words rfl hshape
      · have hin := record_inside (k := 0) hindex (by omega)
        omega
      · exact absurd htwo hwords

theorem inside_readWord {bytes : Bytes} {offset : ℕ} :
    Inside (readWord bytes offset) ↔ offset + 4 ≤ bytes.length := by
  simp [readWord]

theorem readWord_offset {bytes : Bytes} {offset : ℕ} {r : UInt32 × ℕ}
    (h : readWord bytes offset = .ok r) : r.2 = offset + 4 := by
  simp only [readWord, bind_eq_ok, pure_eq_ok, Except.ok.injEq] at h
  obtain ⟨_, -, rfl⟩ := h
  rfl

theorem inside_readUnsigned64 {bytes : Bytes} {offset : ℕ} (h : offset + 8 ≤ bytes.length) :
    Inside (readUnsigned64 bytes offset) := by
  simp only [readUnsigned64, avoids_bind, inside_load32, pure_eq_ok, avoids_ok, implies_true, and_true]
  exact ⟨by omega, fun _ _ => by omega⟩

theorem readSigned64_offset {bytes : Bytes} {offset : ℕ} {r : Int64 × ℕ}
    (h : readSigned64 bytes offset = .ok r) : r.2 = offset + 8 := by
  simp only [readSigned64, readUnsigned64, bind_eq_ok, pure_eq_ok, Except.ok.injEq] at h
  obtain ⟨_, ⟨_, -, _, -, rfl⟩, rfl⟩ := h
  rfl

theorem inside_readSigned64 {bytes : Bytes} {offset : ℕ} (h : offset + 8 ≤ bytes.length) :
    Inside (readSigned64 bytes offset) := by
  simp [readSigned64, inside_readUnsigned64 h]

/-- A spectrum is read within its 52 bytes, or refused. -/
theorem inside_readSpectrum (bytes : Bytes) : Inside (readSpectrum bytes) := by
  simp only [readSpectrum, avoids_bind, avoids_rejectIf, ne_eq, reduceCtorEq, not_false_eq_true,
    implies_true, rejectIf_eq_ok, Decidable.not_not, true_and, invalidWire, inside_readWord, inside_decoded, pure_eq_ok, avoids_ok, and_true]
  intro _ hlen
  refine ⟨by omega, fun w₀ h₀ _ _ => ?_⟩
  have := readWord_offset h₀
  refine ⟨by omega, fun w₁ h₁ => ?_⟩
  have := readWord_offset h₁
  refine ⟨by omega, fun w₂ h₂ => ?_⟩
  have := readWord_offset h₂
  refine ⟨by omega, fun w₃ h₃ => ?_⟩
  have := readWord_offset h₃
  refine ⟨inside_readSigned64 (by omega), fun w₄ h₄ => ?_⟩
  have := readSigned64_offset h₄
  refine ⟨inside_readSigned64 (by omega), fun w₅ h₅ => ?_⟩
  have := readSigned64_offset h₅
  refine ⟨by omega, fun w₆ h₆ => ?_⟩
  have := readWord_offset h₆
  refine ⟨by omega, fun w₇ h₇ => ?_⟩
  have := readWord_offset h₇
  refine ⟨by omega, fun w₈ h₈ => ?_⟩
  have := readWord_offset h₈
  refine ⟨by omega, fun w₉ h₉ => ?_⟩
  have := readWord_offset h₉
  omega

theorem inside_validateIndexPadding {bytes : Bytes} (h : 8 ≤ bytes.length) :
    Inside (validateIndexPadding bytes) := by
  simp [validateIndexPadding, invalidWire, h]

theorem inside_validatePointingWire (bytes : Bytes) (records : ℕ) :
    Inside (validatePointingWire bytes records) := by
  simp only [validatePointingWire, avoids_bind, inside_pointing_global, true_and]
  intro _ _
  refine avoids_forM fun i _ => ?_
  simp [inside_pointing_get]

/-- A CIF1 value is validated within its own bytes. -/
theorem inside_validateCif1Wire (id : FieldId) (bytes : Bytes) (binding : TimestampFormatBinding) :
    Inside (validateCif1Wire id bytes binding) := by
  simp only [validateCif1Wire, avoids_bind, inside_cif1WireExtent, avoids_rejectIf, avoids_ite,
    invalidWire, ne_eq, reduceCtorEq, not_false_eq_true, implies_true, true_and, pure_eq_ok, avoids_ok,
    inside_validatePointingWire, inside_readSpectrum, and_true]
  intro extent hextent _ _ hid
  apply inside_validateIndexPadding
  subst hid
  simp only [cif1WireExtent, indexWireExtent, bind_eq_ok, rejectIf_eq_ok, if_true,
    show Field.indexList ≠ Field.spectrum by decide, if_false] at hextent
  obtain ⟨_, hlen, -⟩ := hextent
  omega

theorem inside_validateFixWire {bytes : Bytes} (h : 16 ≤ bytes.length) :
    Inside (validateFixWire bytes) := by
  have hsecond : ∀ offset, offset = 8 → Inside (readUnsigned64 bytes offset) :=
    fun offset ho => inside_readUnsigned64 (by omega)
  simp only [validateFixWire, readFix, avoids_bind, inside_load32, inside_readWord, avoids_rejectIf,
    invalidWire, ne_eq, reduceCtorEq, not_false_eq_true, implies_true, true_and, inside_decoded,
    pure_eq_ok, avoids_ok, and_true]
  refine ⟨by omega, fun _ _ _ _ => ⟨by omega, fun _ _ => ⟨by omega, fun w hw => ?_⟩⟩⟩
  exact hsecond _ (readWord_offset hw)

theorem inside_validateAsciiWire (bytes : Bytes) : Inside (validateAsciiWire bytes) := by
  simp only [validateAsciiWire, avoids_bind, avoids_rejectIf, invalidWire, ne_eq, reduceCtorEq,
    not_false_eq_true, implies_true, and_true]
  refine avoids_foldlM (fun _ => True) trivial (fun _ _ _ _ _ _ => trivial) fun c pad _ _ => ?_
  simp [asciiStep, invalidWire]

/-- The check of a structure reads inside its bytes, however many there are. -/
theorem inside_validateStructureWire (id : FieldId) (bytes : Bytes)
    (binding : TimestampFormatBinding) : Inside (validateStructureWire id bytes binding) := by
  simp only [validateStructureWire, avoids_ite, inside_validateCif1Wire, avoids_bind,
    inside_wireStructureExtent, avoids_rejectIf, rejectIf_eq_ok, invalidWire, ne_eq, reduceCtorEq,
    not_false_eq_true, implies_true, true_and, Decidable.not_not, inside_validateAsciiWire, pure_eq_ok,
    avoids_ok, and_true]
  intro hcif extent hextent _ hsize hfix
  apply inside_validateFixWire
  obtain ⟨cif, b⟩ := id
  obtain ⟨hzero, hlow, hhigh⟩ := hfix
  simp only at hzero hlow hhigh
  subst hzero
  have hb : b = 11 ∨ b = 12 ∨ b = 13 ∨ b = 14 := by omega
  rw [wireStructureExtent, if_neg hcif] at hextent
  obtain rfl | rfl | rfl | rfl := hb <;>
    simp [plainExtent, temporalDurationField, Field.controlleeUuid, Field.controllerUuid,
      Field.formattedGps, Field.formattedIns, Field.ecefEphemeris, Field.relativeEphemeris] at hextent
  all_goals
    obtain ⟨_, hextent⟩ := hextent
    rw [← hextent] at hsize
    simp only at hsize
    omega

/-! ## Checks of values -/

/-- A plain value is checked within the words of its descriptor. -/
theorem inside_validateWireValue {id : FieldId} {d : FieldDescriptor} {bytes : Bytes}
    (hd : descriptor id = some d) (hplain : ¬structuredField id) (hlen : bytes.length = d.words * 4) :
    Inside (validateWireValue id bytes) := by
  have hwords : 4 ≤ bytes.length := by
    have hkind : d.kind ≠ .native := by
      rw [descriptor_native hd] at hplain
      simpa using hplain
    have hpos : 1 ≤ kindWords d.kind := by
      unfold kindWords
      split <;> omega
    rw [descriptor_words hd hkind] at hlen
    omega
  have hlong : id = Field.bufferSize ∨ id = Field.deviceIdentifier → 8 ≤ bytes.length := by
    have htwo : ∀ i, i = Field.bufferSize ∨ i = Field.deviceIdentifier →
        (descriptor i).map FieldDescriptor.words = some 2 := by
      rintro i (rfl | rfl) <;> decide
    intro hid
    have hmap := htwo id hid
    rw [hd] at hmap
    simp only [Option.map_some, Option.some.injEq] at hmap
    omega
  simp only [validateWireValue, avoids_bind, inside_load32, avoids_rejectIf, invalidWire, ne_eq,
    reduceCtorEq, not_false_eq_true, implies_true, true_and, avoids_ite, pure_eq_ok, avoids_ok, and_true]
  exact ⟨by omega, fun _ _ _ _ hid => hlong hid⟩

theorem inside_readAttributeScalar {d : FieldDescriptor} {attr : Attribute} {bytes : Bytes}
    (hattr : ¬attr.base) : Inside (readAttributeScalar d attr bytes) := by
  cases attr with
  | probability | belief =>
    simp only [readAttributeScalar, avoids_bind, avoids_rejectIf, rejectIf_eq_ok, inside_load32, ne_eq,
      reduceCtorEq, not_false_eq_true, implies_true, Decidable.not_not, true_and, pure_eq_ok, avoids_ok,
      and_true]
    intro _ hlen
    omega
  | _ => exact absurd (by decide) hattr

/-- The check of a value reads inside a span of the extent its field requires. -/
theorem inside_validateWireAttribute {id : FieldId} {attr : Attribute} {bytes : Bytes}
    {binding : TimestampFormatBinding}
    (hlen : attr.base → ¬structuredField id → ∀ d, descriptor id = some d → bytes.length = d.words * 4) :
    Inside (validateWireAttribute id attr bytes binding) := by
  unfold validateWireAttribute
  split
  · simp
  · next d hd =>
    simp only [avoids_ite, inside_validateStructureWire, avoids_bind, pure_eq_ok, avoids_ok,
      implies_true, and_true, true_and]
    exact ⟨fun hbase hplain => inside_validateWireValue hd hplain (hlen hbase hplain d hd),
      fun hbase => inside_readAttributeScalar hbase⟩

/-! ## Indicators -/

/-- The indicators are read within the data. -/
theorem inside_parseIndicators (capacity : ℕ) (data : Bytes) (start : ℕ) (allowChange : Bool)
    (aggregate : ℕ) : Inside (parseIndicators capacity data start allowChange aggregate) := by
  simp only [parseIndicators, avoids_bind, inside_take, avoids_rejectIf, ne_eq, reduceCtorEq,
    not_false_eq_true, implies_true, true_and, pure_eq_ok, avoids_ok, and_true]
  intro first _ _ _
  refine ⟨?_, fun cif _ => ⟨?_, fun attributes _ => ?_⟩⟩
  · refine avoids_foldlM (fun _ => True) trivial (fun _ _ _ _ _ _ => trivial) fun i s _ _ => ?_
    simp [takeCif]
  · simp [takeAttributes]
  · refine avoids_foldlM (fun _ => True) trivial (fun _ _ _ _ _ _ => trivial) fun i s _ _ => ?_
    simp [selectField]

/-! ## The traversal -/

/-- A traversal stays inside when its extents do and its visitor does on every element whose size is
the extent of its field. -/
theorem inside_run {F σ : Type} (w : Walk F σ) (hprovider : ∀ f a o, Inside (w.provider f a o))
    (hvisitor : ∀ f a o extent v, w.extent f a o = .ok extent →
      Inside (w.visitor v { field := w.idOf f, attr := a, offset := o, bytes := extent.bytes }))
    (cif0 attributes : UInt32) (fields : List F) (work : ℕ) (visited : σ) :
    Inside (w.run cif0 attributes fields work visited) := by
  refine avoids_foldlM (fun _ => True) trivial (fun _ _ _ _ _ _ => trivial) fun field s _ _ => ?_
  unfold Walk.field
  split
  · simp
  · next d hd =>
    simp only [avoids_bind, avoids_rejectIf, ne_eq, reduceCtorEq, not_false_eq_true, implies_true,
      true_and]
    intro _ _
    refine avoids_foldlM (fun _ => True) trivial (fun _ _ _ _ _ _ => trivial) fun attr t _ _ => ?_
    simp only [Walk.element, Walk.checkLimits, Walk.visit, avoids_bind, inside_decoded, avoids_rejectIf,
      ne_eq, reduceCtorEq, not_false_eq_true, implies_true, avoids_ite, pure_eq_ok, avoids_ok, true_and,
      and_true]
    refine ⟨?_, fun extent hextent _ _ _ _ _ => hvisitor field attr t.offset extent t.visited hextent⟩
    unfold Walk.extent
    split
    · exact hprovider field attr t.offset
    · simp
    · simp

namespace BodyReader

variable (r : BodyReader)

theorem inside_provider (id : FieldId) (attr : Attribute) (offset : ℕ) :
    Inside (r.provider id attr offset) := by
  simp [provider, wireOffset, inside_wireStructureExtent]

/-- The extent of a plain value is the size its descriptor gives. -/
theorem provider_bytes {id : FieldId} {attr : Attribute} {offset : ℕ} {extent : FieldExtent}
    (hplain : ¬(attr.base ∧ structuredField id)) (h : r.provider id attr offset = .ok extent) :
    extent.bytes = if attr.base then (descriptor id).elim 0 FieldDescriptor.words * 4 else 4 := by
  simp only [provider, if_neg hplain, bind_eq_ok, pure_eq_ok, Except.ok.injEq] at h
  obtain ⟨_, -, _, -, _, -, rfl⟩ := h
  rfl

/-- A visitor that is given an extent of the walk reads within it. -/
theorem inside_visitor (limits : TraversalLimits) {id : FieldId} {attr : Attribute} {offset : ℕ}
    {extent : FieldExtent} (fields : List FieldView)
    (hextent : (r.walk limits).extent id attr offset = .ok extent) :
    Inside (r.visitor fields { field := id, attr, offset, bytes := extent.bytes }) := by
  simp only [visitor, wireOffset, avoids_bind, inside_decoded, avoids_rejectIf, ne_eq, reduceCtorEq,
    not_false_eq_true, implies_true, rejectIf_eq_ok, true_and, pure_eq_ok, avoids_ok, and_true]
  intro position _ _ hroom
  have hsub : subspan r.payload position extent.bytes =
      .ok ((r.payload.drop position).take extent.bytes) := by
    rw [subspan, if_pos (by omega), pure_eq_ok]
  have hsublen : ((r.payload.drop position).take extent.bytes).length = extent.bytes := by
    rw [List.length_take, List.length_drop]
    omega
  rw [hsub]
  refine ⟨avoids_ok _, fun bytes hbytes => ?_⟩
  obtain rfl := Except.ok.inj hbytes
  unfold checkElement
  cases hkind : r.kind with
  | selectors => exact avoids_ok ()
  | diagnostics =>
    simp only [Walk.extent, walk, hkind, pure_eq_ok, Except.ok.injEq] at hextent
    subst hextent
    simp only [avoids_bind, inside_load32, inside_decoded, implies_true, and_true]
    simp only at hroom
    omega
  | values =>
    simp only [Walk.extent, walk, hkind] at hextent
    refine inside_validateWireAttribute fun hbase hplain d hd => ?_
    rw [hsublen, r.provider_bytes (fun h => hplain h.2) hextent, if_pos hbase, hd]
    rfl

end BodyReader

theorem inside_appendFields (r : BodyReader) (limits : TraversalLimits) (plan : IndicatorPlan)
    (work : ℕ) (fields : List FieldView) : Inside (appendFields r limits plan work fields) := by
  simp only [appendFields, avoids_bind, pure_eq_ok, avoids_ok, implies_true, and_true]
  exact inside_run (r.walk limits) r.inside_provider
    (fun _ _ _ _ _ h => r.inside_visitor limits _ h) _ _ _ _ _

/-! ## Packets -/

theorem inside_decodeContext (fieldCapacity viewCapacity : ℕ) (env : EnvelopeView)
    (options : DecodeOptions) :
    Inside (decodeContext fieldCapacity viewCapacity env options) := by
  simp [decodeContext, inside_parseIndicators, inside_appendFields]

theorem inside_decodeCommand (fieldCapacity viewCapacity : ℕ) (env : EnvelopeView) (cam : UInt32)
    (options : DecodeOptions) :
    Inside (decodeCommand fieldCapacity viewCapacity env cam options) := by
  have hselectors : ∀ plan : IndicatorPlan, Inside ((selectorWalk viewCapacity options.limits).run
      (plan.cif 0) plan.attributes plan.selected 0 []) := by
    intro plan
    refine inside_run (selectorWalk viewCapacity options.limits) (fun _ _ _ => avoids_ok _)
      (fun _ _ _ _ _ _ => ?_) _ _ _ _ _
    simp [selectorWalk]
  simp [decodeCommand, inside_parseIndicators, inside_appendFields, hselectors]

/-- Diagnostics are decoded within the packet. -/
theorem inside_decodeDiagnostics (fieldCapacity viewCapacity : ℕ) (env : EnvelopeView)
    (warning error : Bool) (options : DecodeOptions) :
    Inside (decodeDiagnostics fieldCapacity viewCapacity env warning error options) := by
  have hparse : ∀ present offset selected,
      Inside (parseGroup present fieldCapacity env.payload offset selected) := by
    simp [parseGroup, inside_parseIndicators]
  have happend : ∀ group plan offset work fields,
      Inside (appendGroup env viewCapacity options.limits group plan offset work fields) := by
    intro group plan offset work fields
    cases plan <;> simp [appendGroup, inside_appendFields]
  simp [decodeDiagnostics, hparse, happend]

/-- A packet that is neither Data, Extension nor Context carries a command. -/
theorem command_isSome {e : Envelope} (hfam : familyFlags e)
    (hplainFamily : ¬(isData e.type ∨ isExtension e.type)) (hcontext : e.type ≠ .context) :
    e.command.isSome := by
  unfold familyFlags at hfam
  cases htype : e.type <;>
    simp_all [isData, isExtension, isCommand, PacketType.code, Option.isSome_iff_ne_none]

/-- No packet, however truncated or corrupted, makes the decoder read outside it. -/
theorem inside_decodePacketBounded (fieldCapacity viewCapacity : ℕ) (wire : Bytes)
    (options : DecodeOptions) :
    Inside (decodePacketBounded fieldCapacity viewCapacity wire options) := by
  simp only [decodePacketBounded, avoids_bind, inside_decodeEnvelope, avoids_rejectIf, ne_eq,
    reduceCtorEq, not_false_eq_true, implies_true, true_and]
  intro env henv _ _
  have hfam := (decodeEnvelope_eq_ok.mp henv).measured.family
  unfold decodeBody
  simp only [avoids_ite, pure_eq_ok, avoids_ok, inside_decodeContext, implies_true, true_and]
  intro hplainFamily hcontext
  obtain ⟨c, hc⟩ := Option.isSome_iff_exists.mp (command_isSome hfam hplainFamily hcontext)
  rw [hc]
  simp [decodeCommandBody, inside_decodeCommand, inside_decodeDiagnostics]

end Vita.Codec
