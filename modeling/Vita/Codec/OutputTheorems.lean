import Vita.Codec.Bounds
import Vita.Codec.Extents
import Vita.Codec.Output
import Vita.Codec.PacketTheorems

/-!
# Encoding writes the packet or nothing

The encoders store indicators and values before their last fallible calls. Once a body is measured,
though, nothing can fail any more: every element that has an extent is written into it
(`writeElement_of_extent`), the traversal meets the same elements again (`writeValues_of_measure`), and
the envelope around the body was measured before (`encodeEnvelopeInto_run`).

* `encodePacketInto_stores`, `encodeDiagnosticInto_stores`: the encoders store exactly the bytes of
  `encodePacket` and `encodeDiagnostic`, or nothing.
* `encode_all_or_nothing`: both encoders leave the output as it was when they fail, and write the
  measured number of bytes at its beginning when they do not.
-/

namespace Vita.Codec

open Words Checked Buffer

/-! ## Elements -/

/-- The visitor of `write_values`. -/
def elementWriter (kind : BodyKind) (s : PacketSnapshot) (written : Bytes) (e : LayoutElement) :
    Decoded Bytes := do
  let bytes ← (writeElement kind s e).decoded
  return written ++ bytes

section Elements

variable {kind : BodyKind} {s : PacketSnapshot} {entry : FieldEntry} {a : Attribute}
  {extent : FieldExtent} {offset : ℕ}

/-- What an element is measured as, whatever the traversal visits. -/
def elementExtent (kind : BodyKind) (b : TimestampFormatBinding) (entry : FieldEntry) (a : Attribute)
    (offset : ℕ) : Decoded FieldExtent :=
  (layoutWalk kind b fun () _ => return ()).extent entry a offset

/-- The limits an element has to respect. -/
def elementLimits (kind : BodyKind) (entry : FieldEntry) (a : Attribute) (extent : FieldExtent)
    (offset work : ℕ) : Decoded Unit :=
  (layoutWalk kind {} fun () _ => return ()).checkLimits entry.id a extent offset work

theorem units_of_elementLimits {work : ℕ} (h : elementLimits kind entry a extent offset work = .ok ()) :
    extent.units ≤ 4096 := by
  simp only [elementLimits, Walk.checkLimits, bind_eq_ok, rejectIf_eq_ok] at h
  obtain ⟨_, -, _, -, hwork⟩ := h
  have hlimit : (layoutWalk kind {} fun () _ => return ()).limits.workUnits = 4096 := rfl
  omega

/-- An element that has an extent is written into it. -/
theorem writeElement_of_extent (hs : s.WellFormed) (hentry : entry ∈ s.fields)
    (hd : descriptor entry.id ≠ none) (hkind : kind ≠ .selectors)
    (hextent : elementExtent kind s.layout.timestampFormat entry a offset = .ok extent)
    (hunits : extent.units ≤ 4096) :
    ∃ piece, writeElement kind s
        { field := entry.id, attr := a, offset, bytes := extent.bytes } = .ok piece ∧
      piece.length = extent.bytes := by
  obtain ⟨d, hd⟩ := Option.ne_none_iff_exists'.mp hd
  simp only [writeElement, find?_entry hs hentry]
  cases kind with
  | selectors => exact absurd rfl hkind
  | diagnostics =>
    obtain rfl := Except.ok.inj hextent
    exact ⟨be32 entry.diagnostic, rfl, rfl⟩
  | values =>
    simp only [elementExtent, Walk.extent, layoutWalk, Result.decoded_eq_ok, storedExtent] at hextent
    cases hv : entry.values a with
    | none =>
      rw [hv] at hextent
      cases hextent
    | some v =>
      simp only [hv, hd] at hextent ⊢
      by_cases hstruct : a.base ∧ structuredField entry.id
      · rw [if_pos hstruct] at hextent ⊢
        cases v with
        | native n =>
          obtain ⟨piece, hpiece⟩ := writeStructure_of_extent hextent
          have hcarries := @writeStructure_carries _ _ _ s.layout.timestampFormat _ _ _ hextent
            (smallText_of_units hextent hunits) hpiece
            fun hformat => ⟨bound_of_extent hextent hformat, rfl, rfl⟩
          exact ⟨piece, hpiece, hcarries.length⟩
        | _ => cases hextent
      · rw [if_neg hstruct] at hextent ⊢
        simp only [bind_eq_ok, pure_eq_ok, Except.ok.injEq] at hextent
        obtain ⟨_, -, rfl⟩ := hextent
        exact ⟨_, rfl, length_plainScalar hd hstruct v⟩

/-- One step of the traversal that writes. -/
theorem element_writer_iff {t t' : WalkState Bytes} :
    (layoutWalk kind s.layout.timestampFormat (elementWriter kind s)).element entry t a = .ok t' ↔
      ∃ extent next, elementExtent kind s.layout.timestampFormat entry a t.offset = .ok extent ∧
        checkedAdd t.offset extent.bytes = .ok next ∧
        elementLimits kind entry a extent t.offset t.work = .ok () ∧
        ∃ piece, t' = { offset := next, work := t.work + extent.units, visited := t.visited ++ piece } ∧
          if kind = .selectors then piece = []
          else writeElement kind s
            { field := entry.id, attr := a, offset := t.offset, bytes := extent.bytes } = .ok piece := by
  have hext : (layoutWalk kind s.layout.timestampFormat (elementWriter kind s)).extent entry a t.offset =
      elementExtent kind s.layout.timestampFormat entry a t.offset := rfl
  have hlimits : ∀ extent, (layoutWalk kind s.layout.timestampFormat (elementWriter kind s)).checkLimits
      entry.id a extent t.offset t.work = elementLimits kind entry a extent t.offset t.work :=
    fun _ => rfl
  have hid : (layoutWalk kind s.layout.timestampFormat (elementWriter kind s)).idOf entry = entry.id := rfl
  have hbody : (layoutWalk kind s.layout.timestampFormat (elementWriter kind s)).body = kind := rfl
  have hall : (layoutWalk kind s.layout.timestampFormat (elementWriter kind s)).visitSelectors = false :=
    rfl
  simp only [Walk.element, hext, hlimits, hid, Walk.visit, hbody, hall, bind_eq_ok, Result.decoded_eq_ok,
    pure_eq_ok, Except.ok.injEq, Bool.false_eq_true, or_false]
  by_cases hk : kind = .selectors
  · simp only [hk, ne_eq, not_true_eq_false, if_false, if_true, Except.ok.injEq]
    constructor
    · rintro ⟨extent, hextent, next, hnext, _, hlimits, _, rfl, rfl⟩
      exact ⟨extent, next, hextent, hnext, hlimits, [], by rw [List.append_nil], rfl⟩
    · rintro ⟨extent, next, hextent, hnext, hlimits, _, rfl, rfl⟩
      exact ⟨extent, hextent, next, hnext, (), hlimits, _, rfl, by rw [List.append_nil]⟩
  · have hvisitor : (layoutWalk kind s.layout.timestampFormat (elementWriter kind s)).visitor =
        elementWriter kind s := rfl
    simp only [hk, ne_eq, not_false_eq_true, if_true, if_false, hvisitor, elementWriter, bind_eq_ok,
      Result.decoded_eq_ok, pure_eq_ok, Except.ok.injEq]
    constructor
    · rintro ⟨extent, hextent, next, hnext, _, hlimits, _, ⟨piece, hpiece, rfl⟩, rfl⟩
      exact ⟨extent, next, hextent, hnext, hlimits, piece, rfl, hpiece⟩
    · rintro ⟨extent, next, hextent, hnext, hlimits, piece, rfl, hpiece⟩
      exact ⟨extent, hextent, next, hnext, (), hlimits, _, ⟨piece, hpiece, rfl⟩, rfl⟩

end Elements

/-! ## Bodies -/

section Bodies

variable {kind : BodyKind} {s : PacketSnapshot}

/-- The bytes written so far end where the traversal stands. -/
def Written (s : PacketSnapshot) (t : WalkState Bytes) : Prop :=
  t.offset = indicatorSize s + t.visited.length

/-- The bytes of an element have its measured length. -/
theorem Written.step (hs : s.WellFormed) {entry : FieldEntry} (hentry : entry ∈ s.fields)
    (hd : descriptor entry.id ≠ none) {a : Attribute} {t t' : WalkState Bytes} (ht : Written s t)
    (hstep : (layoutWalk kind s.layout.timestampFormat (elementWriter kind s)).element entry t a =
      .ok t') : Written s t' := by
  obtain ⟨extent, next, hextent, hnext, hlimits, piece, rfl, hpiece⟩ := element_writer_iff.mp hstep
  have hlength : piece.length = extent.bytes := by
    by_cases hk : kind = .selectors
    · rw [if_pos hk] at hpiece
      subst hk
      obtain rfl := Except.ok.inj hextent
      rw [hpiece]
      rfl
    · rw [if_neg hk] at hpiece
      obtain ⟨piece', hpiece', hlength⟩ :=
        writeElement_of_extent hs hentry hd hk hextent (units_of_elementLimits hlimits)
      obtain rfl := Except.ok.inj (hpiece.symm.trans hpiece')
      exact hlength
  have hsum := (checkedAdd_eq_ok.mp hnext).2
  simp only [Written, List.length_append, hlength]
  simp only [Written] at ht
  omega

/-- What it takes to visit a field. -/
theorem field_eq_ok {σ : Type} {visitor : σ → LayoutElement → Decoded σ} {b : TimestampFormatBinding}
    {attributes : UInt32} {entry : FieldEntry} {t t' : WalkState σ} :
    (layoutWalk kind b visitor).field attributes t entry = .ok t' ↔
      ∃ d, descriptor entry.id = some d ∧ effectiveAttributes attributes &&& ~~~d.attributes = 0 ∧
        (selectedAttributes attributes).foldlM ((layoutWalk kind b visitor).element entry) t =
          .ok t' := by
  have hid : (layoutWalk kind b visitor).idOf entry = entry.id := rfl
  rw [Walk.field, hid]
  cases descriptor entry.id with
  | none => simp
  | some d => simp

theorem descriptor_of_run {σ : Type} {visitor : σ → LayoutElement → Decoded σ} {visited : σ}
    {final : WalkState σ} (h : walkLayout kind s visitor visited = .ok final) :
    ∀ entry ∈ s.fields, descriptor entry.id ≠ none := by
  intro entry hentry
  obtain ⟨d, hd, -⟩ := (Walk.run_eq_ok.mp h).1 entry hentry
  have hd' : descriptor entry.id = some d := hd
  rw [hd']
  exact Option.some_ne_none d

/-- A body that is measured is written, in its measured length. -/
theorem writeValues_of_measure (hs : s.WellFormed) {body : ℕ} (h : measure kind s = .ok body) :
    ∃ values, writeValues kind s = .ok values ∧ indicatorSize s + values.length = body := by
  simp only [measure, bind_eq_ok, pure_eq_ok, Except.ok.injEq] at h
  obtain ⟨final, hrun, rfl⟩ := h
  have hd := descriptor_of_run hrun
  obtain ⟨hfields, hfold⟩ := Walk.run_eq_ok.mp hrun
  -- the two traversals stay at the same offset with the same work
  obtain ⟨u, hu, hoffset, -, hwritten⟩ := foldlM_simulation
    (g := fun t (x : FieldEntry × Attribute) =>
      (layoutWalk kind s.layout.timestampFormat (elementWriter kind s)).element x.1 t x.2)
    (u := { offset := indicatorCount (s.layout.cif 0) * 4, work := 0, visited := [] })
    (fun _ t u => u.offset = t.offset ∧ u.work = t.work ∧ Written s u) (fun _ => True)
    ⟨rfl, rfl, rfl⟩ trivial (fun _ _ _ _ _ => trivial)
    (fun done x rest t t' u hsplit hm hstep _ => by
      obtain ⟨hoffset, hwork, hwritten⟩ := hm
      have hentry : x.1 ∈ s.fields := by
        have hmem : x ∈ walkElements s.layout.attributes s.fields := by
          rw [hsplit]
          exact List.mem_append_right _ (List.mem_cons_self ..)
        obtain ⟨entry, hentry, hx⟩ := List.mem_flatMap.mp hmem
        obtain ⟨_, -, rfl⟩ := List.mem_map.mp hx
        exact hentry
      simp only [Walk.element, bind_eq_ok, Result.decoded_eq_ok, pure_eq_ok, Except.ok.injEq] at hstep
      obtain ⟨extent, hextent, next, hnext, _, hlimits, _, -, rfl⟩ := hstep
      have hextent' : elementExtent kind s.layout.timestampFormat x.1 x.2 u.offset = .ok extent := by
        rw [hoffset]
        exact hextent
      have hlimits' : elementLimits kind x.1 x.2 extent u.offset u.work = .ok () := by
        rw [hoffset, hwork]
        exact hlimits
      obtain ⟨piece, hpiece⟩ : ∃ piece, if kind = .selectors then piece = []
          else writeElement kind s { field := x.1.id, attr := x.2, offset := u.offset,
                                     bytes := extent.bytes } = .ok piece := by
        by_cases hk : kind = .selectors
        · exact ⟨[], by rw [if_pos hk]⟩
        · obtain ⟨piece, hpiece, -⟩ := writeElement_of_extent hs hentry (hd _ hentry) hk hextent'
            (units_of_elementLimits hlimits')
          exact ⟨piece, by rw [if_neg hk]; exact hpiece⟩
      have hnext' : checkedAdd u.offset extent.bytes = .ok next := by
        rw [hoffset]
        exact hnext
      have hstep' := element_writer_iff.mpr
        ⟨extent, next, hextent', hnext', hlimits', piece, rfl, hpiece⟩
      refine ⟨_, hstep', rfl, ?_, hwritten.step hs hentry (hd _ hentry) hstep'⟩
      rw [hwork])
    hfold
  refine ⟨u.visited, ?_, ?_⟩
  · have hrun' : walkLayout kind s (elementWriter kind s) [] = .ok u :=
      Walk.run_eq_ok.mpr ⟨hfields, hu⟩
    show (walkLayout kind s (elementWriter kind s) [] >>= _) = _
    rw [hrun']
    rfl
  · rw [← hoffset]
    exact hwritten.symm

/-- The two traversals at one point: the same place, and the bytes written so far stored from `base`
on. -/
structure Stored (s : PacketSnapshot) (output : Bytes) (base : ℕ) (t : WalkState Bytes)
    (u : WalkState Unit) (buffer : Bytes) : Prop where
  written : Written s t
  offset : u.offset = t.offset
  work : u.work = t.work
  buffer : buffer = overwrite output base t.visited

/-- The visitor that stores an element. -/
def elementStore (kind : BodyKind) (s : PacketSnapshot) (payload valuesStart ownHeader : ℕ)
    (e : LayoutElement) : Encoding Unit := do
  let bytes ← check (writeElement kind s e).decoded
  put (payload + (valuesStart + e.offset - ownHeader)) bytes

/-- A step of the traversal that writes is followed by one that stores. -/
theorem elementInto_stored (hs : s.WellFormed) {output values buffer : Bytes}
    {payload valuesStart ownHeader base : ℕ}
    (hbase : base = payload + (valuesStart + indicatorSize s - ownHeader))
    (hown : ownHeader ≤ valuesStart + indicatorSize s) (hroom : base + values.length ≤ output.length)
    {entry : FieldEntry} (hentry : entry ∈ s.fields) (hd : descriptor entry.id ≠ none) {a : Attribute}
    {t t' : WalkState Bytes} {u : WalkState Unit} (hm : Stored s output base t u buffer)
    (hstep : (layoutWalk kind s.layout.timestampFormat (elementWriter kind s)).element entry t a = .ok t')
    (hlast : t'.visited.length ≤ values.length) :
    ∃ u' buffer', ((layoutWalk kind s.layout.timestampFormat fun () _ => return ()).elementInto
        (elementStore kind s payload valuesStart ownHeader) entry u a).run buffer = .ok u' buffer' ∧
      Stored s output base t' u' buffer' := by
  have hwritten' := hm.written.step hs hentry hd hstep
  obtain ⟨extent, next, hextent, hnext, hlimits, piece, rfl, hpiece⟩ := element_writer_iff.mp hstep
  have hwritten := hm.written
  simp only [Written] at hwritten
  simp only [List.length_append] at hlast
  have hextent' : (layoutWalk kind s.layout.timestampFormat fun () _ => return ()).extent entry a
      u.offset = .ok extent := by
    rw [hm.offset]
    exact hextent
  have hnext' : (checkedAdd u.offset extent.bytes).decoded = .ok next := by
    rw [hm.offset, hnext]
    rfl
  have hlimits' : (layoutWalk kind s.layout.timestampFormat fun () _ => return ()).checkLimits
      ((layoutWalk kind s.layout.timestampFormat fun () _ => return ()).idOf entry) a extent u.offset
        u.work = .ok () := by
    rw [hm.offset, hm.work]
    exact hlimits
  refine ⟨{ offset := next, work := t.work + extent.units, visited := () },
    overwrite output base (t.visited ++ piece), ?_, hwritten', rfl, rfl, rfl⟩
  rw [Walk.elementInto, run_check_ok hextent', run_check_ok hnext', run_check_ok hlimits', hm.work,
    hm.buffer]
  by_cases hk : kind = .selectors
  · rw [if_pos hk] at hpiece
    subst hk hpiece
    rw [List.append_nil]
    rfl
  · rw [if_neg hk] at hpiece
    have hplace : payload + (valuesStart + t.offset - ownHeader) = base + t.visited.length := by omega
    have hvisit : (elementStore kind s payload valuesStart ownHeader
        { field := entry.id, attr := a, offset := u.offset, bytes := extent.bytes }).run
          (overwrite output base t.visited) = .ok () (overwrite output base (t.visited ++ piece)) := by
      have hlength : (overwrite output base t.visited).length = output.length :=
        length_overwrite (by omega)
      rw [elementStore, hm.offset, run_check_ok (by rw [hpiece]; rfl), put, hplace,
        run_store (by rw [hlength]; omega), overwrite_append (by omega)]
    have hvisits : (layoutWalk kind s.layout.timestampFormat fun () _ => return ()).body ≠ .selectors ∨
        (layoutWalk kind s.layout.timestampFormat fun () _ => return ()).visitSelectors := .inl hk
    rw [if_pos hvisits]
    exact run_bind_ok hvisit _

/-- The values of a body are stored where the traversal places them. -/
theorem writeValuesInto_run (hs : s.WellFormed) {output values : Bytes}
    {payload valuesStart ownHeader base : ℕ} (h : writeValues kind s = .ok values)
    (hbase : base = payload + (valuesStart + indicatorSize s - ownHeader))
    (hown : ownHeader ≤ valuesStart + indicatorSize s) (hroom : base + values.length ≤ output.length) :
    (writeValuesInto kind s payload valuesStart ownHeader).run output =
      .ok () (overwrite output base values) := by
  have hd := descriptor_of_writeValues h
  simp only [writeValues, bind_eq_ok, pure_eq_ok, Except.ok.injEq] at h
  obtain ⟨final, hrun, rfl⟩ := h
  have hinit : Stored s output base { offset := indicatorCount (s.layout.cif 0) * 4, work := 0,
                                      visited := [] }
      { offset := indicatorCount (s.layout.cif 0) * 4, work := 0, visited := () } output :=
    ⟨rfl, rfl, rfl, (overwrite_nil output base).symm⟩
  have hgrows : ∀ entry a (t t' : WalkState Bytes),
      (layoutWalk kind s.layout.timestampFormat (elementWriter kind s)).element entry t a = .ok t' →
        t'.visited.length ≤ final.visited.length → t.visited.length ≤ final.visited.length := by
    intro entry a t t' hstep hlast
    obtain ⟨_, _, -, -, -, piece, rfl, -⟩ := element_writer_iff.mp hstep
    simp only [List.length_append] at hlast
    omega
  have hfieldGrows : ∀ entry (t t' : WalkState Bytes),
      (layoutWalk kind s.layout.timestampFormat (elementWriter kind s)).field s.layout.attributes t
        entry = .ok t' → t'.visited.length ≤ final.visited.length →
          t.visited.length ≤ final.visited.length := by
    intro entry t t' hfield hlast
    obtain ⟨d, -, -, hfold⟩ := field_eq_ok.mp hfield
    exact foldlM_back (fun t => t.visited.length ≤ final.visited.length)
      (fun a _ t t' hstep => hgrows entry a t t' hstep) hfold hlast
  obtain ⟨u, buffer, hrunInto, hstored⟩ := foldlM_follows
    (g := (layoutWalk kind s.layout.timestampFormat fun () _ => return ()).fieldInto
      (elementStore kind s payload valuesStart ownHeader) s.layout.attributes)
    (Stored s output base) (fun t => t.visited.length ≤ final.visited.length)
    (fun entry _ t t' hfield => hfieldGrows entry t t' hfield)
    (fun entry hentry t t' u buffer hm hlast hfield => by
      obtain ⟨d, hdesc, hattributes, hfold⟩ := field_eq_ok.mp hfield
      have hfollow := foldlM_follows
        (g := (layoutWalk kind s.layout.timestampFormat fun () _ => return ()).elementInto
          (elementStore kind s payload valuesStart ownHeader) entry)
        (Stored s output base) (fun t => t.visited.length ≤ final.visited.length)
        (fun a _ t t' hstep => hgrows entry a t t' hstep)
        (fun a _ t t' u buffer hm hlast hstep =>
          elementInto_stored hs hbase hown hroom hentry (hd entry hentry) hm hstep hlast)
        hfold hlast hm
      have hdesc' : descriptor ((layoutWalk kind s.layout.timestampFormat fun () _ =>
          (return () : Decoded Unit)).idOf entry) = some d := hdesc
      simp only [Walk.fieldInto, hdesc']
      rw [run_check_ok (rejectIf_of_not (by simpa using hattributes))]
      exact hfollow)
    hrun (Nat.le_refl _) hinit
  rw [hstored.buffer] at hrunInto
  exact run_bind_ok hrunInto _

end Bodies

/-! ## Envelopes -/

theorem run_checkRoom {α : Type} (total : ℕ) (f : Unit → Encoding α) (output : Bytes) :
    (checkRoom total >>= f).run output =
      (check (rejectIf (output.length < total) (Fault.error
        { code := .shortOutput, offset := 0, requiredCapacity := total })) >>= f).run output := rfl

theorem run_put {offset : ℕ} {bytes output : Bytes} (h : offset + bytes.length ≤ output.length) :
    (put offset bytes).run output = .ok () (overwrite output offset bytes) :=
  run_store h

/-- The envelope is stored around its payload, wherever that stood before. -/
theorem encodeEnvelopeInto_run {e : Envelope} {payload output bytes : Bytes} {trailer : Option UInt32}
    (h : encodeEnvelope e payload trailer output.length = .ok bytes) :
    (encodeEnvelopeInto e payload trailer).run output = .ok bytes.length (overwrite output 0 bytes) := by
  obtain ⟨htrailer, hm, hroom, hbytes⟩ := encodeEnvelope_eq_ok.mp h
  have hsize : measureEnvelope e payload.length = .ok bytes.length := measureEnvelope_eq_ok.mpr hm
  obtain ⟨size, hlength⟩ : ∃ size, bytes.length = size := ⟨_, rfl⟩
  rw [hlength] at hm hroom hbytes hsize
  have hsum := hm.size_eq
  have hplace : size - payload.length - (if e.trailer then 4 else 0) = (prologue e size).length := by
    omega
  have hmoved : (overwrite output (prologue e size).length payload).length = output.length :=
    length_overwrite (by omega)
  rw [encodeEnvelopeInto, run_check_ok (rejectIf_of_not (by rw [htrailer]; simp)),
    run_check_ok (by rw [hsize]; rfl), run_checkRoom, run_check_ok (rejectIf_of_not (by omega)), hplace,
    run_bind_ok (run_put (by omega)), run_bind_ok (run_put (by rw [hmoved]; omega)),
    overwrite_before (by omega)]
  cases trailer with
  | none =>
    rw [Option.isSome_none] at htrailer
    rw [htrailer] at hsum
    rw [Option.elim_none, List.append_nil] at hbytes
    rw [← hbytes, hlength]
    have hoffset : (prologue e size).length + payload.length = size := by
      simpa using hsum.symm
    rw [hoffset]
    rfl
  | some t =>
    rw [Option.isSome_some] at htrailer
    rw [htrailer, if_pos rfl] at hsum
    rw [Option.elim_some, ← List.append_assoc] at hbytes
    have hoffset : (prologue e size).length + payload.length = 0 + (prologue e size ++ payload).length := by
      rw [List.length_append, Nat.zero_add]
    have hstored : (overwrite output 0 (prologue e size ++ payload)).length = output.length :=
      length_overwrite (by rw [List.length_append]; omega)
    have hfour : (be32 t).length = 4 := rfl
    have hput : (put ((prologue e size).length + payload.length) (be32 t)).run
        (overwrite output 0 (prologue e size ++ payload)) = .ok () (overwrite output 0 bytes) := by
      rw [run_put (by rw [hstored, hfour]; omega), hoffset, overwrite_append (Nat.zero_le _), ← hbytes]
    rw [run_bind_ok hput, hlength, hsum]
    rfl

/-! ## Packets -/

/-- The writer stores the bytes that `bytes` computes at the beginning of the output, and nothing when
that fails. -/
def Stores (x : Encoding ℕ) (bytes : Decoded Bytes) (output : Bytes) : Prop :=
  x.run output =
    match bytes with
    | .ok b => .ok b.length (overwrite output 0 b)
    | .error f => .error f output

section Stores

variable {α : Type} {output : Bytes}

theorem stores_check {x : Decoded α} {f : α → Encoding ℕ} {g : α → Decoded Bytes}
    (h : ∀ a, x = .ok a → Stores (f a) (g a) output) : Stores (check x >>= f) (x >>= g) output := by
  cases hx : x with
  | ok a => exact h a hx
  | error e => rfl

theorem stores_checkRoom {total : ℕ} {f : Unit → Encoding ℕ} {g : Unit → Decoded Bytes}
    (h : total ≤ output.length → Stores (f ()) (g ()) output) :
    Stores (checkRoom total >>= f) (rejectIf (output.length < total)
      (Fault.error { code := .shortOutput, offset := 0, requiredCapacity := total }) >>= g) output := by
  show (checkRoom total >>= f).run output = _
  rw [run_checkRoom]
  refine stores_check fun _ hroom => h ?_
  exact Nat.not_lt.mp (rejectIf_eq_ok.mp hroom)

/-- The end of both encoders: the body stands in the output, and the envelope is put around it. -/
theorem encodeEnvelopeInto_body {e : Envelope} {body bytes : Bytes} {total : ℕ}
    (htotal : measureEnvelope e body.length = .ok total)
    (h : encodeEnvelope e body none output.length = .ok bytes) :
    (do
      let span ← outputSpan (total - body.length) body.length
      encodeEnvelopeInto e span none : Encoding ℕ).run
        (overwrite output (total - body.length) body) = .ok bytes.length (overwrite output 0 bytes) := by
  obtain ⟨-, hm, hroom, -⟩ := encodeEnvelope_eq_ok.mp h
  obtain rfl := Except.ok.inj (htotal.symm.trans (measureEnvelope_eq_ok.mpr hm))
  have hsum := hm.size_eq
  have hfits : bytes.length - body.length + body.length = bytes.length := by omega
  have hlength : (overwrite output (bytes.length - body.length) body).length = output.length :=
    length_overwrite (by omega)
  have hspan : (outputSpan (bytes.length - body.length) body.length).run
      (overwrite output (bytes.length - body.length) body) =
        .ok body (overwrite output (bytes.length - body.length) body) := by
    have hsub : subspan (overwrite output (bytes.length - body.length) body)
        (bytes.length - body.length) body.length = .ok body := by
      rw [subspan, if_pos (by omega), slice_overwrite (by omega)]
      rfl
    show (check (subspan _ _ _)).run _ = _
    rw [hsub]
    rfl
  rw [run_bind_ok hspan, encodeEnvelopeInto_run (by rw [hlength]; exact h),
    overwrite_cover (by omega) hroom]

end Stores

/-- The checks of `encodePacket` in one. -/
theorem encodePacket_eq (kind : BodyKind) (e : Envelope) (s : PacketSnapshot) (change : Bool)
    (capacity : ℕ) : encodePacket kind e s change capacity = (do
      checkPacket kind e s change
      let body ← measure kind s
      (if kind = .values then checkScalars s else return ())
      let total ← (measureEnvelope e body).decoded
      rejectIf (capacity < total)
        (Fault.error { code := .shortOutput, offset := 0, requiredCapacity := total })
      let values ← writeValues kind s
      (encodeEnvelope e (writeIndicators s.layout change ++ values) none capacity).decoded) := by
  by_cases hk : kind = .values
  · simp only [encodePacket, checkPacket, hk, if_true, bind_assoc]
  · simp only [encodePacket, checkPacket, hk, if_false, bind_assoc, pure_bind]

/-- An envelope that was measured for a body is encoded around it. -/
theorem encodeEnvelope_of_measured {e : Envelope} {body : Bytes} {total capacity : ℕ}
    (htrailer : e.trailer = false) (h : measureEnvelope e body.length = .ok total)
    (hroom : total ≤ capacity) : ∃ bytes, encodeEnvelope e body none capacity = .ok bytes ∧
      bytes.length = total := by
  have hencode : encodeEnvelope e body none capacity =
      .ok (prologue e total ++ (body ++ (none : Option UInt32).elim [] be32)) := by
    rw [encodeEnvelope, rejectIf_of_not (by simp [htrailer]), ok_bind, h, ok_bind,
      rejectIf_of_not (by omega), ok_bind]
    rfl
  refine ⟨_, hencode, ?_⟩
  obtain ⟨-, hm, -, -⟩ := encodeEnvelope_eq_ok.mp hencode
  exact Except.ok.inj ((measureEnvelope_eq_ok.mpr hm).symm.trans h)

/-- `encode_packet` stores the bytes of `encodePacket`, or nothing. -/
theorem encodePacketInto_stores {kind : BodyKind} {s : PacketSnapshot} (hs : s.WellFormed)
    (e : Envelope) (change : Bool) (output : Bytes) :
    Stores (encodePacketInto kind e s change) (encodePacket kind e s change output.length) output := by
  rw [encodePacket_eq]
  refine stores_check fun _ hcheck => stores_check fun body hbody => stores_check fun _ _ =>
    stores_check fun total htotal => stores_checkRoom fun hroom => ?_
  rw [Result.decoded_eq_ok] at htotal
  have htrailer : e.trailer = false := by
    simp only [checkPacket, bind_eq_ok, rejectIf_eq_ok, not_or] at hcheck
    obtain ⟨_, ⟨-, -, h⟩, -⟩ := hcheck
    exact Bool.eq_false_iff.mpr h
  obtain ⟨values, hvalues, hlength⟩ := writeValues_of_measure hs hbody
  have hindicators := length_writeIndicators s.layout change
  have hbodyLength : (writeIndicators s.layout change ++ values).length = body := by
    rw [List.length_append, hindicators]
    exact hlength
  have hparts : (writeIndicators s.layout change).length + values.length = body := by
    rw [← List.length_append, hbodyLength]
  obtain ⟨bytes, hencode, hbytes⟩ := encodeEnvelope_of_measured htrailer
    (by rw [hbodyLength]; exact htotal) hroom
  have hstart : body ≤ total := by
    obtain ⟨-, hm, -, -⟩ := encodeEnvelope_eq_ok.mp hencode
    have hsum := hm.size_eq
    omega
  have hput : (put (total - body) (writeIndicators s.layout change)).run output =
      .ok () (overwrite output (total - body) (writeIndicators s.layout change)) :=
    run_put (by omega)
  have hwrite : (writeValuesInto kind s (total - body) 0 0).run
      (overwrite output (total - body) (writeIndicators s.layout change)) =
        .ok () (overwrite output (total - body) (writeIndicators s.layout change ++ values)) := by
    have hstored : (overwrite output (total - body) (writeIndicators s.layout change)).length =
        output.length := length_overwrite (by omega)
    have hbase : total - body + (writeIndicators s.layout change).length =
        total - body + (0 + indicatorSize s - 0) := by
      rw [hindicators, Nat.zero_add, Nat.sub_zero]
      rfl
    rw [writeValuesInto_run hs hvalues hbase (Nat.zero_le _) (by rw [hstored]; omega),
      overwrite_append (by omega)]
  rw [hvalues, ok_bind, hencode]
  show _ = EStateM.Result.ok bytes.length (overwrite output 0 bytes)
  rw [run_bind_ok hput, run_bind_ok hwrite, ← hbodyLength]
  exact encodeEnvelopeInto_body (by rw [hbodyLength]; exact htotal) hencode

/-! ## Diagnostics -/

section Diagnostics

variable {s : PacketSnapshot} {present : Bool} {output acc : Bytes} {payload offset : ℕ}

/-- The indicators of a group follow what the payload holds already. -/
theorem putIndicators_run (hacc : acc.length = offset)
    (hroom : payload + (acc ++ if present then writeIndicators s.layout false else []).length ≤
      output.length) :
    (putIndicators present s payload offset).run (overwrite output payload acc) =
      .ok (acc ++ if present then writeIndicators s.layout false else []).length
        (overwrite output payload (acc ++ if present then writeIndicators s.layout false else [])) := by
  cases present with
  | false =>
    simp only [Bool.false_eq_true, if_false, List.append_nil, putIndicators, hacc]
    rfl
  | true =>
    simp only [if_true, putIndicators] at hroom ⊢
    rw [List.length_append] at hroom
    have hstored : (overwrite output payload acc).length = output.length := length_overwrite (by omega)
    rw [run_bind_ok (run_put (by rw [hstored]; omega)), ← hacc, overwrite_append (by omega),
      List.length_append, length_writeIndicators]
    rfl

/-- The words of a group follow what the payload holds already. -/
theorem putWords32_run (hs : s.WellFormed) {size : ℕ} {values : Bytes}
    (hvalues : writeValues .diagnostics s = .ok values) (hsize : indicatorSize s + values.length = size)
    (hacc : acc.length = offset)
    (hroom : payload + (acc ++ if present then values else []).length ≤ output.length) :
    (putWords32 present s payload offset size).run (overwrite output payload acc) =
      .ok (acc ++ if present then values else []).length
        (overwrite output payload (acc ++ if present then values else [])) := by
  cases present with
  | false =>
    simp only [Bool.false_eq_true, if_false, List.append_nil, putWords32, hacc]
    rfl
  | true =>
    simp only [if_true, putWords32] at hroom ⊢
    rw [List.length_append] at hroom
    have hstored : (overwrite output payload acc).length = output.length := length_overwrite (by omega)
    have hbase : payload + acc.length = payload + (offset + indicatorSize s - indicatorSize s) := by
      omega
    rw [run_bind_ok (writeValuesInto_run hs hvalues hbase (by omega) (by rw [hstored]; omega)),
      overwrite_append (by omega), List.length_append, ← hacc, ← hsize, Nat.add_sub_cancel_left]
    rfl

/-- The present groups have the bytes they were measured with. -/
theorem length_groups {warnings errors : PacketSnapshot} {wv ev : Bytes} {wm em : ℕ} (w r : Bool)
    (hw : indicatorSize warnings + wv.length = wm) (he : indicatorSize errors + ev.length = em) :
    ((if w then writeIndicators warnings.layout false else []) ++
      ((if r then writeIndicators errors.layout false else []) ++
        ((if w then wv else []) ++ (if r then ev else [])))).length =
      (if w then wm else 0) + (if r then em else 0) := by
  have hgroup : ∀ (present : Bool) (s : PacketSnapshot) (values : Bytes) (size : ℕ),
      indicatorSize s + values.length = size →
        (if present then writeIndicators s.layout false else []).length +
          (if present then values else []).length = if present then size else 0 := by
    intro present s values size hsize
    cases present with
    | false => rfl
    | true =>
      simp only [if_true, length_writeIndicators]
      exact hsize
  have hwarnings := hgroup w warnings wv wm hw
  have herrors := hgroup r errors ev em he
  simp only [List.length_append]
  omega

end Diagnostics

/-- `encode_diagnostic` stores the bytes of `encodeDiagnostic`, or nothing. -/
theorem encodeDiagnosticInto_stores {warnings errors : PacketSnapshot} (hw : warnings.WellFormed)
    (he : errors.WellFormed) (e : Envelope) (original : RequestContext) (output : Bytes) :
    Stores (encodeDiagnosticInto e warnings errors original)
      (encodeDiagnostic e warnings errors original output.length) output := by
  refine stores_check fun groups hcheck => stores_check fun wm hwm => stores_check fun em hem =>
    stores_check fun _ _ => stores_check fun total htotal => stores_checkRoom fun hroom => ?_
  obtain ⟨w, r⟩ := groups
  simp only at htotal ⊢
  rw [Result.decoded_eq_ok] at htotal
  obtain ⟨wv, hwv, hwlength⟩ := writeValues_of_measure hw hwm
  obtain ⟨ev, hev, helength⟩ := writeValues_of_measure he hem
  have htrailer : e.trailer = false := by
    have hm := measureEnvelope_eq_ok.mp htotal
    have hfamily := hm.family
    simp only [checkDiagnostic] at hcheck
    cases hcommand : e.command with
    | none =>
      rw [hcommand] at hcheck
      cases hcheck
    | some c =>
      simp only [hcommand, bind_eq_ok, rejectIf_eq_ok, not_or, Decidable.not_not] at hcheck
      obtain ⟨_, ⟨htype, -⟩, -⟩ := hcheck
      have hdata : isData e.type = false := by rw [htype]; rfl
      have hcmd : isCommand e.type = true := by rw [htype]; rfl
      simp only [familyFlags, hdata, hcmd, Bool.false_eq_true, if_false, if_true, Bool.not_eq_true',
        Bool.or_eq_false_iff] at hfamily
      exact hfamily.1.1.1.1
  obtain ⟨wi, hwi⟩ : ∃ wi, (if w then writeIndicators warnings.layout false else []) = wi := ⟨_, rfl⟩
  obtain ⟨ri, hri⟩ : ∃ ri, (if r then writeIndicators errors.layout false else []) = ri := ⟨_, rfl⟩
  obtain ⟨ww, hww⟩ : ∃ ww, (if w then wv else []) = ww := ⟨_, rfl⟩
  obtain ⟨rv, hrv⟩ : ∃ rv, (if r then ev else []) = rv := ⟨_, rfl⟩
  have hlength := length_groups w r hwlength helength
  rw [hwi, hri, hww, hrv] at hlength
  rw [← hlength] at htotal ⊢
  obtain ⟨bytes, hencode, hbytes⟩ := encodeEnvelope_of_measured htrailer htotal hroom
  have hstart : (wi ++ (ri ++ (ww ++ rv))).length ≤ total := by
    obtain ⟨-, hm, -, -⟩ := encodeEnvelope_eq_ok.mp hencode
    have hsum := hm.size_eq
    omega
  obtain ⟨payload, hpayload⟩ : ∃ payload, total - (wi ++ (ri ++ (ww ++ rv))).length = payload := ⟨_, rfl⟩
  have hfits : payload + (wi.length + (ri.length + (ww.length + rv.length))) ≤ output.length := by
    simp only [List.length_append] at hstart hpayload
    omega
  have hone := @putIndicators_run warnings w output [] payload 0 rfl
    (by rw [hwi, List.nil_append]; omega)
  have htwo := @putIndicators_run errors r output wi payload wi.length rfl
    (by rw [hri, List.length_append]; omega)
  have hthree := @putWords32_run warnings w output (wi ++ ri) payload (wi ++ ri).length hw wm wv hwv
    hwlength rfl (by rw [hww]; simp only [List.length_append]; omega)
  have hfour := @putWords32_run errors r output (wi ++ ri ++ ww) payload (wi ++ ri ++ ww).length he em ev
    hev helength rfl (by rw [hrv]; simp only [List.length_append]; omega)
  rw [hwi, List.nil_append, overwrite_nil] at hone
  rw [hri] at htwo
  rw [hww] at hthree
  rw [hrv] at hfour
  rw [hwv, ok_bind, hev, ok_bind, hwi, hri, hww, hrv, hencode]
  show _ = EStateM.Result.ok bytes.length (overwrite output 0 bytes)
  rw [hpayload, run_bind_ok hone, run_bind_ok htwo, run_bind_ok hthree, run_bind_ok hfour, ← hpayload]
  have hassoc : wi ++ ri ++ ww ++ rv = wi ++ (ri ++ (ww ++ rv)) := by
    simp only [List.append_assoc]
  rw [hassoc]
  exact encodeEnvelopeInto_body htotal hencode

/-! ## Nothing outside -/

/-- Measuring and writing a body reads nothing outside of the input. -/
theorem inside_walkLayout {σ : Type} {kind : BodyKind} {s : PacketSnapshot}
    {visitor : σ → LayoutElement → Decoded σ} (hvisitor : ∀ v e, Inside (visitor v e)) (visited : σ) :
    Inside (walkLayout kind s visitor visited) :=
  inside_run (layoutWalk kind s.layout.timestampFormat visitor) (fun _ _ _ => inside_decoded _)
    (fun _ _ _ _ v _ => hvisitor v _) _ _ _ _ _

theorem inside_measure (kind : BodyKind) (s : PacketSnapshot) : Inside (measure kind s) := by
  simp only [measure, avoids_bind, pure_eq_ok, avoids_ok, implies_true, and_true]
  exact inside_walkLayout (fun _ _ => avoids_ok _) _

theorem inside_writeValues (kind : BodyKind) (s : PacketSnapshot) : Inside (writeValues kind s) := by
  simp only [writeValues, avoids_bind, pure_eq_ok, avoids_ok, implies_true, and_true]
  refine inside_walkLayout (fun written e => ?_) _
  simp only [avoids_bind, inside_decoded, avoids_ok, implies_true, and_true]

/-- The scalars are checked in spans of their own sizes. -/
theorem inside_checkScalars (s : PacketSnapshot) : Inside (checkScalars s) := by
  refine avoids_forM fun field _ => avoids_forM fun a _ => ?_
  split
  · next v d _ hd =>
    by_cases hstruct : a.base ∧ structuredField field.id
    · rw [if_pos hstruct]
      exact avoids_ok _
    · rw [if_neg hstruct]
      refine inside_validateWireAttribute fun hbase _ d' hd' => ?_
      obtain rfl := Option.some.inj (hd.symm.trans hd')
      rw [length_plainScalar hd hstruct v, if_pos hbase, Option.elim_some]
  · exact avoids_ok _

theorem inside_encodePacket (kind : BodyKind) (e : Envelope) (s : PacketSnapshot) (change : Bool)
    (capacity : ℕ) : Inside (encodePacket kind e s change capacity) := by
  rw [encodePacket_eq]
  simp only [checkPacket, avoids_bind, avoids_rejectIf, invalidWire, ne_eq, reduceCtorEq,
    not_false_eq_true, implies_true, inside_decoded, avoids_ite, pure_eq_ok, avoids_ok, and_true,
    inside_measure, inside_writeValues, inside_checkScalars]

/-- Nothing is read outside the buffers when diagnostics are encoded. -/
theorem inside_encodeDiagnostic (e : Envelope) (warnings errors : PacketSnapshot)
    (original : RequestContext) (capacity : ℕ) :
    Inside (encodeDiagnostic e warnings errors original capacity) := by
  have hcheck : Inside (checkDiagnostic e warnings errors original) := by
    unfold checkDiagnostic
    split
    · simp [invalidWire]
    · simp [invalidWire]
  have hbits : Inside ((warnings.fields ++ errors.fields).forM fun f =>
      (validateDiagnosticBits f.diagnostic e.cancel).decoded) :=
    avoids_forM fun _ _ => inside_decoded _
  simp only [encodeDiagnostic, avoids_bind, hcheck, inside_measure, hbits, inside_decoded,
    avoids_rejectIf, ne_eq, reduceCtorEq, not_false_eq_true, implies_true, inside_writeValues, and_true]

/-! ## All or nothing -/

/-- The property of an encoder on an output: an error leaves the output as it was and is no access
outside of it; a success reports the size of the envelope around the measured body, and only that many
bytes at the beginning of the output were written. -/
def AllOrNothing (x : Encoding ℕ) (e : Envelope) (body : ℕ → Prop) (output : Bytes) : Prop :=
  (∀ f output', x.run output = .error f output' → output' = output ∧ f ≠ .outside) ∧
    ∀ n output', x.run output = .ok n output' → output'.length = output.length ∧
      output'.drop n = output.drop n ∧ ∃ size, body size ∧ measureEnvelope e size = .ok n

/-- An encoder that stores its bytes last writes all of them or none. -/
theorem allOrNothing_of_stores {x : Encoding ℕ} {bytes : Decoded Bytes} {output : Bytes} {e : Envelope}
    {body : ℕ → Prop} (h : Stores x bytes output) (hinside : Inside bytes)
    (hbytes : ∀ b, bytes = .ok b → b.length ≤ output.length ∧
      ∃ size, body size ∧ measureEnvelope e size = .ok b.length) :
    AllOrNothing x e body output := by
  rw [Stores.eq_def] at h
  cases hresult : bytes with
  | error f =>
    rw [hresult] at h hinside
    refine ⟨fun f' output' herror => ?_, fun n output' hok => ?_⟩
    · rw [h] at herror
      cases herror
      exact ⟨rfl, avoids_error.mp hinside⟩
    · rw [h] at hok
      cases hok
  | ok b =>
    rw [hresult] at h
    obtain ⟨hroom, hsize⟩ := hbytes b hresult
    refine ⟨fun f' output' herror => ?_, fun n output' hok => ?_⟩
    · rw [h] at herror
      cases herror
    · rw [h] at hok
      cases hok
      exact ⟨length_overwrite (by omega), drop_overwrite (by omega) (by omega), hsize⟩

/-- The size of the envelope that was encoded around a payload. -/
theorem encodeEnvelope_measured {e : Envelope} {payload bytes : Bytes} {capacity : ℕ}
    (h : encodeEnvelope e payload none capacity = .ok bytes) :
    bytes.length ≤ capacity ∧ measureEnvelope e payload.length = .ok bytes.length := by
  obtain ⟨-, hm, hroom, -⟩ := encodeEnvelope_eq_ok.mp h
  exact ⟨hroom, measureEnvelope_eq_ok.mpr hm⟩

/-- Each body is written whole, or the output stays as it was. -/
theorem encodePacketInto_allOrNothing {kind : BodyKind} {s : PacketSnapshot} (hs : s.WellFormed)
    (e : Envelope) (change : Bool) (output : Bytes) :
    AllOrNothing (encodePacketInto kind e s change) e (fun size => measure kind s = .ok size) output := by
  refine allOrNothing_of_stores (encodePacketInto_stores hs e change output)
    (inside_encodePacket kind e s change _) fun b hb => ?_
  rw [encodePacket_eq] at hb
  simp only [bind_eq_ok, rejectIf_eq_ok, Result.decoded_eq_ok] at hb
  obtain ⟨_, -, body, hbody, _, -, total, htotal, _, -, values, hvalues, hencode⟩ := hb
  obtain ⟨hroom, hsize⟩ := encodeEnvelope_measured hencode
  obtain ⟨values', hvalues', hlength⟩ := writeValues_of_measure hs hbody
  obtain rfl := Except.ok.inj (hvalues.symm.trans hvalues')
  refine ⟨hroom, body, hbody, ?_⟩
  rw [List.length_append, length_writeIndicators] at hsize
  rw [← hlength]
  exact hsize

/-- The bodies that `encode_diagnostic` measures: the present groups. -/
def DiagnosticBody (e : Envelope) (warnings errors : PacketSnapshot) (original : RequestContext)
    (size : ℕ) : Prop :=
  ∃ w r wm em, checkDiagnostic e warnings errors original = .ok (w, r) ∧
    measure .diagnostics warnings = .ok wm ∧ measure .diagnostics errors = .ok em ∧
    size = (if w then wm else 0) + (if r then em else 0)

/-- The encoder of diagnostics writes the whole packet or nothing. -/
theorem encodeDiagnosticInto_allOrNothing {warnings errors : PacketSnapshot} (hw : warnings.WellFormed)
    (he : errors.WellFormed) (e : Envelope) (original : RequestContext) (output : Bytes) :
    AllOrNothing (encodeDiagnosticInto e warnings errors original) e
      (DiagnosticBody e warnings errors original) output := by
  refine allOrNothing_of_stores (encodeDiagnosticInto_stores hw he e original output)
    (inside_encodeDiagnostic e warnings errors original _) fun b hb => ?_
  simp only [encodeDiagnostic, bind_eq_ok, rejectIf_eq_ok, Result.decoded_eq_ok] at hb
  obtain ⟨⟨w, r⟩, hcheck, wm, hwm, em, hem, _, -, total, htotal, _, hroom, wv, hwv, ev, hev, hencode⟩ := hb
  simp only at htotal hencode
  obtain ⟨hfits, hsize⟩ := encodeEnvelope_measured hencode
  obtain ⟨wv', hwv', hwlength⟩ := writeValues_of_measure hw hwm
  obtain ⟨ev', hev', helength⟩ := writeValues_of_measure he hem
  obtain rfl := Except.ok.inj (hwv.symm.trans hwv')
  obtain rfl := Except.ok.inj (hev.symm.trans hev')
  rw [length_groups w r hwlength helength] at hsize
  exact ⟨hfits, _, ⟨w, r, wm, em, hcheck, hwm, hem, rfl⟩, hsize⟩

/-- Failed encoding leaves the output untouched, and encoding that succeeds writes the measured number
of bytes at its beginning and nothing else: for both encoders, every envelope, every snapshot of a
builder and every output. -/
theorem encode_all_or_nothing :
    (∀ (kind : BodyKind) (N : ℕ) (e : Envelope) (s : PacketSnapshot) (change : Bool) (output : Bytes),
      Built kind N s → AllOrNothing (encodePacketInto kind e s change) e
        (fun size => measure kind s = .ok size) output) ∧
    ∀ (N : ℕ) (e : Envelope) (warnings errors : PacketSnapshot) (original : RequestContext)
      (output : Bytes), Built .diagnostics N warnings → Built .diagnostics N errors →
        AllOrNothing (encodeDiagnosticInto e warnings errors original) e
          (DiagnosticBody e warnings errors original) output := by
  constructor
  · intro kind N e s change output hs
    exact encodePacketInto_allOrNothing hs.wellFormed e change output
  · intro N e warnings errors original output hw he
    exact encodeDiagnosticInto_allOrNothing hw.wellFormed he.wellFormed e original output

/-- A Context packet of 24 bytes into an output of 26 and into one of 23. -/
theorem encode_all_or_nothing_noise :
    (encodePacketInto .values { type := .context, streamId := some 1 } (noiseSnapshot 128) false).run
        (List.replicate 26 7) = .ok 24 (noiseWire 0 128 ++ [7, 7]) ∧
      AllOrNothing (encodePacketInto .values { type := .context, streamId := some 1 } (noiseSnapshot 128)
        false) { type := .context, streamId := some 1 }
        (fun size => measure .values (noiseSnapshot 128) = .ok size) (List.replicate 23 7) :=
  ⟨by rfl, encode_all_or_nothing.1 _ 16 _ _ _ _ (noiseSnapshot_built (.inr rfl))⟩

end Vita.Codec
