import Vita.Codec.StructuredTheorems
import Vita.Codec.Tiling

/-!
# Native and wire extents

`native_structure_extent` measures a stored structure, `wire_structure_extent` the bytes of a received
one. What is measured is also written, and the two extents are the same in all their parts.

* `writeStructure_of_extent`: a measured structure is written.
* `wireStructureExtent_append`: a declared extent does not depend on what follows.
* `native_wire_extent`: the extents agree, and the written bytes are the only ones accepted there.
-/

namespace Vita.Codec

open Words Checked

/-! ## Writing what was measured -/

section Write

variable {id : FieldId} {v : NativeValue} {binding : TimestampFormatBinding} {attr : Attribute}
  {extent : FieldExtent}

theorem matches_of_extent (h : nativeStructureExtent id v binding attr = .ok extent) : v.matches id := by
  simp only [nativeStructureExtent, bind_eq_ok, rejectIf_eq_ok, Decidable.not_not] at h
  exact h.choose_spec.1

/-- The second measurement of a writer agrees with the first. -/
theorem writeMeasured_of_extent (h : nativeStructureExtent id v binding attr = .ok extent)
    {write : FieldExtent → Result Bytes} {piece : Bytes} (hwrite : write extent = .ok piece) :
    writeMeasured id v extent.bytes binding attr write = .ok piece := by
  rw [writeMeasured, h, ok_bind, rejectIf_of_not (Nat.lt_irrefl _), ok_bind]
  exact hwrite

/-- A structure that has an extent is written into it. -/
theorem writeStructure_of_extent (h : nativeStructureExtent id v binding attr = .ok extent) :
    ∃ piece, writeStructure id v extent.bytes binding attr = .ok piece := by
  have hmatch := matches_of_extent h
  have hmeasured := h
  unfold nativeStructureExtent at hmeasured
  unfold writeStructure
  rw [rejectIf_of_not (Decidable.not_not.mpr hmatch), ok_bind] at hmeasured ⊢
  cases v with
  | geolocation g => exact ⟨_, rfl⟩
  | ephemeris e => exact ⟨_, rfl⟩
  | uuid u => exact ⟨_, rfl⟩
  | duration d => exact ⟨_, writeMeasured_of_extent h rfl⟩
  | indices l => exact ⟨_, writeMeasured_of_extent h rfl⟩
  | spectrum s => exact ⟨_, writeMeasured_of_extent h rfl⟩
  | gpsAscii a =>
    simp only [asciiExtent, bind_eq_ok] at hmeasured
    obtain ⟨_, hvalid, -⟩ := hmeasured
    refine ⟨writeAscii a extent.bytes, ?_⟩
    simp only [hvalid, ok_bind, pure_eq_ok]
  | associations a =>
    refine ⟨writeAssociations a, ?_⟩
    simp only at hmeasured
    simp only [hmeasured, ok_bind, pure_eq_ok]
  | pointing p =>
    simp only [pointingExtent, bind_eq_ok] at hmeasured
    obtain ⟨_, -, shape, hshape, -⟩ := hmeasured
    obtain ⟨piece, hpiece⟩ : ∃ piece, writePointing p = .ok piece := by
      rw [writePointing, hshape]
      exact ⟨_, rfl⟩
    exact ⟨piece, writeMeasured_of_extent h hpiece⟩
  | sectors s =>
    simp only [sectorsExtent, bind_eq_ok] at hmeasured
    obtain ⟨_, -, shape, hshape, -⟩ := hmeasured
    obtain ⟨piece, hpiece⟩ : ∃ piece, writeSectors s = .ok piece := by
      rw [writeSectors, hshape]
      exact ⟨_, rfl⟩
    exact ⟨piece, writeMeasured_of_extent h hpiece⟩

/-- A structure that is tied to a timestamp format is measured in a bound one. -/
theorem bound_of_extent (h : nativeStructureExtent id v binding attr = .ok extent)
    (hbound : (PacketBuilder.nativeTimestampBinding v).isSome) : binding.bound := by
  unfold nativeStructureExtent at h
  rw [rejectIf_of_not (Decidable.not_not.mpr (matches_of_extent h)), ok_bind] at h
  cases v with
  | duration d =>
    simp only [stateDurationExtent, durationExtent, bind_eq_ok, rejectIf_eq_ok] at h
    obtain ⟨_, -, _, ⟨_, -, _, hformat, -⟩, -⟩ := h
    by_contra hno
    exact hformat (.inl hno)
  | sectors s =>
    simp only [PacketBuilder.nativeTimestampBinding] at hbound
    split at hbound
    · next hstart =>
      simp only [sectorsExtent, bind_eq_ok, rejectIf_eq_ok] at h
      obtain ⟨_, -, _, -, _, hformat, -⟩ := h
      by_contra hno
      exact hformat ⟨hstart, hno⟩
    · cases hbound
  | _ => cases hbound

end Write

/-! ## Declared extents and what follows -/

section Append

variable {id : FieldId} {data : Bytes} {b : TimestampFormatBinding} {extent : FieldExtent}

theorem load32_append {offset : ℕ} {w : UInt32} (h : load32 data offset = .ok w) (rest : Bytes) :
    load32 (data ++ rest) offset = .ok w := by
  rw [load32_eq_ok] at h ⊢
  have hinside := le_length_of_wordAt h
  rw [wordAt_eq_some_iff] at h ⊢
  rw [List.drop_append_of_le_length (by omega), List.drop_append_of_le_length hinside, h,
    List.append_assoc]

/-- A check that enough bytes are there. -/
theorem rejectIf_append {n : ℕ} {e : Fault} (h : ¬data.length < n) (rest : Bytes) :
    rejectIf ((data ++ rest).length < n) e = .ok () := by
  rw [List.length_append]
  exact rejectIf_of_not (by omega)

theorem indexWireExtent_append (h : indexWireExtent data = .ok extent) (rest : Bytes) :
    indexWireExtent (data ++ rest) = .ok extent := by
  simp only [indexWireExtent, bind_eq_ok, rejectIf_eq_ok, pure_eq_ok, Except.ok.injEq] at h
  obtain ⟨_, hsize, total, htotal, header, hheader, declared, hdeclared, _, hroom, _, hvalid, rfl⟩ := h
  simp only [indexWireExtent, rejectIf_append hsize rest, load32_append htotal rest,
    load32_append hheader rest, hdeclared, rejectIf_append hroom rest, rejectIf_of_not hvalid, ok_bind,
    pure_eq_ok]

theorem wireRecordShape_append {shape : RecordShape} (h : wireRecordShape id data b = .ok shape)
    (rest : Bytes) : wireRecordShape id (data ++ rest) b = .ok shape := by
  simp only [wireRecordShape, bind_eq_ok, rejectIf_eq_ok, pure_eq_ok, Except.ok.injEq] at h
  obtain ⟨_, hsize, total, htotal, description, hdescription, selectors, hselectors, declared, hdeclared,
    _, hroom, _, hthree, shape, hshape, _, hsame, rfl⟩ := h
  simp only [wireRecordShape, rejectIf_append hsize rest, load32_append htotal rest,
    load32_append hdescription rest, load32_append hselectors rest, hdeclared,
    rejectIf_append hroom rest, rejectIf_of_not hthree, hshape, rejectIf_of_not hsame, ok_bind,
    pure_eq_ok]

/-- What follows a field does not change its extent. -/
theorem cif1WireExtent_append (h : cif1WireExtent id data b = .ok extent) (rest : Bytes) :
    cif1WireExtent id (data ++ rest) b = .ok extent := by
  unfold cif1WireExtent at h ⊢
  split at h
  · next hspectrum =>
    simp only [bind_eq_ok, rejectIf_eq_ok] at h
    obtain ⟨_, hsize, h⟩ := h
    rw [if_pos hspectrum, rejectIf_append hsize rest, ok_bind]
    exact h
  · next hspectrum =>
    rw [if_neg hspectrum]
    split at h
    · next hindex =>
      rw [if_pos hindex]
      exact indexWireExtent_append h rest
    · next hindex =>
      simp only [bind_eq_ok] at h
      obtain ⟨shape, hshape, h⟩ := h
      rw [if_neg hindex, wireRecordShape_append hshape rest, ok_bind]
      exact h

theorem variableExtent_append (h : variableExtent id data = .ok extent) (rest : Bytes) :
    variableExtent id (data ++ rest) = .ok extent := by
  simp only [variableExtent, bind_eq_ok, rejectIf_eq_ok] at h
  obtain ⟨_, hsize, first, hfirst, second, hsecond, h⟩ := h
  simp only [variableExtent, rejectIf_append hsize rest, load32_append hfirst rest,
    load32_append hsecond rest, ok_bind]
  exact h

/-- What follows a plain field does not change its extent. -/
theorem plainExtent_append (h : plainExtent id data b = .ok extent) (rest : Bytes) :
    plainExtent id (data ++ rest) b = .ok extent := by
  unfold plainExtent at h ⊢
  split
  · next hduration => rwa [if_pos hduration] at h
  · next hduration =>
    rw [if_neg hduration] at h
    split
    · next huuid => rwa [if_pos huuid] at h
    · next huuid =>
      rw [if_neg huuid] at h
      split
      · next hgps => rwa [if_pos hgps] at h
      · next hgps =>
        rw [if_neg hgps] at h
        split
        · next hephemeris => rwa [if_pos hephemeris] at h
        · next hephemeris =>
          rw [if_neg hephemeris] at h
          exact variableExtent_append h rest

/-- A declared extent lies inside the bytes and does not depend on what follows them. -/
theorem wireStructureExtent_append (h : wireStructureExtent id data b = .ok extent) (rest : Bytes) :
    wireStructureExtent id (data ++ rest) b = .ok extent := by
  unfold wireStructureExtent at h ⊢
  split
  · next hcif =>
    rw [if_pos hcif] at h
    exact cif1WireExtent_append h rest
  · next hcif =>
    rw [if_neg hcif] at h
    simp only [bind_eq_ok, rejectIf_eq_ok] at h
    obtain ⟨plain, hplain, _, hroom, h⟩ := h
    rw [plainExtent_append hplain rest, ok_bind, rejectIf_append hroom rest, ok_bind]
    exact h

end Append

/-! ## Agreement -/

/-- Among the bytes that begin or continue a structure's own, only these pass the check. -/
theorem validateStructureWire_iff {id : FieldId} {b : TimestampFormatBinding} {piece data : Bytes}
    {extent : FieldExtent} {v : NativeValue} (h : Carries id b piece extent v)
    (hdata : data <+: piece ∨ piece <+: data) :
    validateStructureWire id data b = .ok () ↔ data = piece := by
  constructor
  · intro hvalid
    obtain ⟨own, hown, hlength⟩ := wireStructureExtent_of_validate hvalid
    obtain ⟨rest, rfl⟩ | ⟨rest, rfl⟩ := hdata
    · -- a proper beginning would declare the whole length
      have hlonger := wireStructureExtent_append hown rest
      have hwhole := h.extent []
      rw [List.append_nil, hlonger] at hwhole
      obtain rfl := Except.ok.inj hwhole
      have hsame := h.length
      rw [List.length_append] at hsame
      rw [List.length_eq_zero_iff.mp (by omega : rest.length = 0), List.append_nil]
    · rw [h.extent rest] at hown
      obtain rfl := Except.ok.inj hown
      rw [List.length_append, h.length] at hlength
      rw [List.length_eq_zero_iff.mp (by omega : rest.length = 0), List.append_nil]
  · rintro rfl
    exact h.valid

/-- A sentence that the builder stores is short enough for the word that counts its words. -/
theorem smallText_of_checkNative {sentence : Bytes → Result Unit} {bound : TimestampFormatBinding}
    {id : FieldId} {attr : Attribute} {v : NativeValue}
    (h : PacketBuilder.checkNative sentence bound id attr v = .ok ()) : SmallText v := by
  rintro a rfl
  simp only [PacketBuilder.checkNative, bind_eq_ok, rejectIf_eq_ok] at h
  obtain ⟨_, -, _, htext, -⟩ := h
  omega

/-- Native and wire extents agree: a structure that the builder accepts and that has an extent is
written as exactly that many bytes; the wire declares the same extent there, whatever follows; and of
all strings that begin or continue these bytes the check accepts exactly these. -/
theorem native_wire_extent {sentence : Bytes → Result Unit} {bound binding : TimestampFormatBinding}
    {id : FieldId} {attr : Attribute} {v : NativeValue} {extent : FieldExtent}
    (hbuilder : PacketBuilder.checkNative sentence bound id attr v = .ok ())
    (hextent : nativeStructureExtent id v binding attr = .ok extent) :
    ∃ piece, writeStructure id v extent.bytes binding attr = .ok piece ∧
      piece.length = extent.bytes ∧
      (∀ rest, wireStructureExtent id (piece ++ rest) binding = .ok extent) ∧
      ∀ data, data <+: piece ∨ piece <+: data →
        (validateStructureWire id data binding = .ok () ↔ data = piece) := by
  obtain ⟨piece, hpiece⟩ := writeStructure_of_extent hextent
  have hcarries : Carries id binding piece extent v :=
    writeStructure_carries hextent (smallText_of_checkNative hbuilder) hpiece
      fun hformat => ⟨bound_of_extent hextent hformat, rfl, rfl⟩
  refine ⟨piece, hpiece, hcarries.length, hcarries.extent, ?_⟩
  intro data hdata
  exact validateStructureWire_iff hcarries hdata

/-- Three entries of two bytes: fourteen bytes and two of padding, five units, three entries. -/
theorem native_wire_extent_indices :
    ∃ piece, writeStructure Field.indexList (.indices { entryBytes := 2, entries := [1, 2, 700] }) 16 {}
        .current = .ok piece ∧ piece.length = 16 ∧
      (∀ rest, wireStructureExtent Field.indexList (piece ++ rest) {} =
        .ok { bytes := 16, units := 5, indexEntries := 3, records := 0 }) ∧
      ∀ data, data <+: piece ∨ piece <+: data →
        (validateStructureWire Field.indexList data {} = .ok () ↔ data = piece) := by
  have hextent : nativeStructureExtent Field.indexList (.indices { entryBytes := 2, entries := [1, 2, 700] })
      {} .current = .ok { bytes := 16, units := 5, indexEntries := 3, records := 0 } := by
    simp [nativeStructureExtent, NativeValue.matches, indicesExtent]
    decide
  have hagree := @native_wire_extent (fun _ => .ok ()) {} {} Field.indexList .current _ _ (by decide) hextent
  exact hagree

end Vita.Codec
