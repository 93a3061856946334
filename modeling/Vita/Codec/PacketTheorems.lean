import Vita.Codec.Indicators
import Vita.Codec.StructuredTheorems

/-!
# Packets are read back

A snapshot that `encodePacket` accepts is decoded again: the traversal of the decoder is simulated by
the one of the encoder, element by element (`element_simulation`). Every element is shown by a view
whose bytes are the written ones; structures come back as they were, and scalars do unless they hold a
known noise figure of zero, whose code is the one of an unknown noise figure.

Main results:
- `decode_encodePacket`: the decoded packet and the views of its fields;
- `roundTrips_iff`: exactly when all values come back.
-/

namespace Vita.Codec

open Words Checked

/-! ## The statement -/

/-- The reader of a view returns the stored value. -/
def FieldView.Yields (view : FieldView) (v : SemanticValue) : Prop :=
  match v with
  | .native n => view.YieldsNative n
  | v => view.value = .ok v

/-- Decoding `out` yields the snapshot again: the envelope as far as it is on the wire, the change flag
and the kind of body, exactly the fields and attributes of the snapshot in their order, and for a
values body the stored values. -/
def RoundTrips (kind : BodyKind) (e : Envelope) (s : PacketSnapshot) (change : Bool)
    (fieldCapacity viewCapacity : ℕ) (out : Bytes) : Prop :=
  ∃ p, decodePacketBounded fieldCapacity viewCapacity out {} = .ok p ∧ ¬p.isOpaque ∧
    p.envelope.envelope = e.onWire ∧ p.change = change ∧ p.bodyKind = kind ∧
    p.fields.map (fun v => (v.id, v.attr)) = walkElements s.layout.attributes s.ids ∧
    (kind = .values → ∀ view ∈ p.fields, ∀ entry ∈ s.fields, entry.id = view.id →
      ∃ v, entry.values view.attr = some v ∧ view.Yields v)

/-- A stored value has a known noise figure of zero. -/
def LosesNoiseFigure (s : PacketSnapshot) : Prop :=
  ∃ entry ∈ s.fields, ∃ a v, entry.values a = some v ∧ losesNoiseFigure v

/-! ## Elements -/

/-- The bytes of one element show its stored value. -/
def ShowsValue (id : FieldId) (attr : Attribute) (v : SemanticValue) (b : TimestampFormatBinding)
    (bytes : Bytes) : Prop :=
  if attr.base ∧ structuredField id then
    ∃ n extent, v = .native n ∧ Carries id b bytes extent n
  else ∃ d, descriptor id = some d ∧ bytes = writeAttributeScalar d attr v ∧
    validateAttributeValue id attr v = .ok ()

/-- A view of an element of a values body. -/
structure ShowsElement (b : TimestampFormatBinding) (element : FieldEntry × Attribute)
    (view : FieldView) : Prop where
  id : view.id = element.1.id
  attr : view.attr = element.2
  kind : view.kind = .values
  format : view.timestampFormat = b
  value : ∃ v, element.1.values element.2 = some v ∧
    ShowsValue element.1.id element.2 v b view.bytes

/-- In a well-formed snapshot the entry that is found for a field is the only one. -/
theorem find?_entry {s : PacketSnapshot} (hs : s.WellFormed) {entry : FieldEntry}
    (h : entry ∈ s.fields) : s.fields.find? (·.id = entry.id) = some entry := by
  have hordered := hs.ordered
  unfold PacketSnapshot.ids at hordered
  generalize s.fields = l at h hordered
  induction l with
  | nil => cases h
  | cons e l ih =>
    rw [List.map_cons, List.pairwise_cons] at hordered
    obtain rfl | h := List.mem_cons.mp h
    · exact List.find?_cons_of_pos (by simp)
    · have hne : e.id ≠ entry.id := by
        intro heq
        have hbefore := hordered.1 entry.id (List.mem_map_of_mem h)
        rw [heq] at hbefore
        exact not_fieldBefore_self _ hbefore
      rw [List.find?_cons_of_neg (by simpa using hne)]
      exact ih h hordered.2

/-- The binding of an envelope's timestamp format. -/
theorem envelopeBinding_onWire (e : Envelope) : envelopeBinding e.onWire = envelopeBinding e := rfl

/-- A temporal structure that passed the encoder's check is in the envelope's format. -/
theorem binding_of_checkBindings {e : Envelope} {s : PacketSnapshot}
    (h : checkBindings e s = .ok ()) {entry : FieldEntry} (hentry : entry ∈ s.fields) {a : Attribute}
    (hbase : a.base) {n : NativeValue} (hn : entry.values a = some (.native n))
    (hbound : (PacketBuilder.nativeTimestampBinding n).isSome) :
    (envelopeBinding e).bound ∧ (envelopeBinding e).tsi = s.layout.timestampFormat.tsi ∧
      (envelopeBinding e).tsf = s.layout.timestampFormat.tsf := by
  have hne : PacketBuilder.requiredBindings s.fields ≠ [] := by
    obtain ⟨b, hb⟩ := Option.isSome_iff_exists.mp hbound
    have hmem : b ∈ PacketBuilder.requiredBindings s.fields := by
      refine List.mem_flatMap.mpr ⟨entry, hentry, List.mem_filterMap.mpr ⟨a, ?_, ?_⟩⟩
      · cases a <;> decide
      · rw [if_pos hbase, hn]
        exact hb
    exact List.ne_nil_of_mem hmem
  simp only [checkBindings, bind_eq_ok, rejectIf_eq_ok] at h
  obtain ⟨_, -, hformat⟩ := h
  have hsame : s.layout.timestampFormat.tsi.toNat = e.timestamp.tsi.code ∧
      s.layout.timestampFormat.tsf.toNat = e.timestamp.tsf.code := by
    by_contra hdiff
    exact hformat ⟨hne, not_and_or.mp hdiff⟩
  refine ⟨rfl, ?_, ?_⟩
  · simp only [envelopeBinding, ← hsame.1, UInt8.ofNat_toNat]
  · simp only [envelopeBinding, ← hsame.2, UInt8.ofNat_toNat]

/-- Outside structures the check of a received value does not depend on the timestamp format. -/
theorem validateWireAttribute_binding {id : FieldId} {attr : Attribute} {bytes : Bytes}
    (h : ¬(attr.base ∧ structuredField id)) (b c : TimestampFormatBinding) :
    validateWireAttribute id attr bytes b = validateWireAttribute id attr bytes c := by
  unfold validateWireAttribute
  split
  · rfl
  · by_cases hbase : attr.base
    · have hplain : ¬structuredField id := fun hs => h ⟨hbase, hs⟩
      rw [if_pos hbase, if_pos hbase, if_neg hplain, if_neg hplain]
    · rw [if_neg hbase, if_neg hbase]

theorem checkScalars_eq_ok {s : PacketSnapshot} (h : checkScalars s = .ok ()) {entry : FieldEntry}
    (hentry : entry ∈ s.fields) {a : Attribute} {v : SemanticValue} (hv : entry.values a = some v)
    {d : FieldDescriptor} (hd : descriptor entry.id = some d)
    (hplain : ¬(a.base ∧ structuredField entry.id)) :
    validateWireAttribute entry.id a (writeAttributeScalar d a v) {} = .ok () := by
  have hall : a ∈ Attribute.all := by cases a <;> decide
  have h := forM_eq_ok.mp (forM_eq_ok.mp h entry hentry) a hall
  simp only [hv, hd, if_neg hplain] at h
  exact h

/-- A scalar is written as the words its field has, an attribute word as one. -/
theorem length_plainScalar {id : FieldId} {d : FieldDescriptor} (hd : descriptor id = some d)
    {a : Attribute} (hplain : ¬(a.base ∧ structuredField id)) (v : SemanticValue) :
    (writeAttributeScalar d a v).length =
      if a.base then (some d).elim 0 FieldDescriptor.words * 4 else 4 := by
  by_cases hbase : a.base
  · have hkind : d.kind ≠ .native := by
      have hn := descriptor_native hd
      intro hk
      rw [hk] at hn
      exact hplain ⟨hbase, by simpa using hn⟩
    have hwords : d.words = 1 ∨ d.words = 2 := by
      rw [descriptor_words hd hkind]
      cases d.kind <;> simp [kindWords]
    rw [length_writeAttributeScalar a v hwords]
    simp [hbase]
  · rw [writeAttributeScalar, if_neg hbase]
    simp [hbase]

/-- What the bytes of an element satisfy in the decoder. -/
structure Accepted (id : FieldId) (attr : Attribute) (b : TimestampFormatBinding) (extent : FieldExtent)
    (piece : Bytes) : Prop where
  length : piece.length = extent.bytes
  structured : attr.base ∧ structuredField id → ∀ rest,
    wireStructureExtent id (piece ++ rest) b = .ok extent
  plain : ¬(attr.base ∧ structuredField id) → extent =
    { bytes := if attr.base then (descriptor id).elim 0 FieldDescriptor.words * 4 else 4, units := 1 }
  valid : validateWireAttribute id attr piece b = .ok ()

/-- An element that the encoder measures and writes is accepted by the decoder and shows its value. -/
theorem writeElement_accepted {e : Envelope} {s : PacketSnapshot} (hs : s.WellFormed)
    (hbindings : checkBindings e s = .ok ()) (hscalars : checkScalars s = .ok ()) {entry : FieldEntry}
    (hentry : entry ∈ s.fields) {a : Attribute} {offset : ℕ} {extent : FieldExtent} {piece : Bytes}
    (hextent : storedExtent s.layout.timestampFormat entry a offset = .ok extent)
    (hunits : extent.units ≤ 4096)
    (hwrite : writeElement .values s
      { field := entry.id, attr := a, offset, bytes := extent.bytes } = .ok piece) :
    Accepted entry.id a (envelopeBinding e) extent piece ∧
      ∃ v, entry.values a = some v ∧ ShowsValue entry.id a v (envelopeBinding e) piece := by
  unfold storedExtent at hextent
  simp only [writeElement, find?_entry hs hentry] at hwrite
  cases hv : entry.values a with
  | none =>
    rw [hv] at hextent
    cases hextent
  | some v =>
    rw [hv] at hextent hwrite
    cases hd : descriptor entry.id with
    | none =>
      rw [hd] at hwrite
      cases hwrite
    | some d =>
      simp only [hd] at hextent hwrite
      by_cases hstruct : a.base ∧ structuredField entry.id
      · rw [if_pos hstruct] at hextent hwrite
        cases v with
        | native n =>
          have hcarries := writeStructure_carries (b := envelopeBinding e) hextent
            (smallText_of_units hextent hunits) hwrite
            (binding_of_checkBindings hbindings hentry hstruct.1 hv)
          refine ⟨⟨hcarries.length, fun _ => hcarries.extent, fun h => absurd hstruct h, ?_⟩,
            .native n, rfl, ?_⟩
          · simp only [validateWireAttribute, hd, if_pos hstruct.1, if_pos hstruct.2]
            exact hcarries.valid
          · rw [ShowsValue, if_pos hstruct]
            exact ⟨n, extent, rfl, hcarries⟩
        | _ => cases hextent
      · rw [if_neg hstruct] at hextent hwrite
        simp only [bind_eq_ok, pure_eq_ok, Except.ok.injEq] at hextent
        obtain ⟨_, hvalid, rfl⟩ := hextent
        obtain rfl := Except.ok.inj hwrite
        refine ⟨⟨?_, fun h => absurd h hstruct, fun _ => ?_, ?_⟩, v, rfl, ?_⟩
        · exact length_plainScalar hd hstruct v
        · rw [hd]
        · rw [validateWireAttribute_binding hstruct _ {}]
          exact checkScalars_eq_ok hscalars hentry hv hd hstruct
        · rw [ShowsValue, if_neg hstruct]
          exact ⟨d, hd, rfl, hvalid⟩

/-! ## The two traversals -/

/-- The decoder reads a body that the encoder wrote. -/
structure ReadsBody (r : BodyReader) (e : Envelope) (s : PacketSnapshot) (values : Bytes) : Prop where
  kind : r.kind = .values
  envelope : r.envelope = e.onWire
  header : r.ownHeader = indicatorCount (s.layout.cif 0) * 4
  start : r.valuesOffset = r.ownHeader
  payload : r.payload.drop r.ownHeader = values
  inside : r.ownHeader + values.length = r.payload.length
  small : r.payload.length ≤ 2 ^ 20

/-- The states of the two traversals after the elements `done`. -/
structure Matches (r : BodyReader) (e : Envelope) (done : List (FieldEntry × Attribute))
    (t : WalkState Bytes) (u : WalkState (List FieldView)) : Prop where
  offset : u.offset = t.offset
  work : u.work = t.work
  written : t.offset = r.ownHeader + t.visited.length
  views : List.Forall₂ (ShowsElement (envelopeBinding e)) done u.visited

/-- The writer of `write_values`. -/
def valuesWriter (s : PacketSnapshot) (written : Bytes) (e : LayoutElement) : Decoded Bytes := do
  let bytes ← (writeElement .values s e).decoded
  return written ++ bytes

/-- A step of the encoder from matching states is followed by a step of the decoder. -/
theorem element_simulation {r : BodyReader} {e : Envelope} {s : PacketSnapshot} {values : Bytes}
    (hr : ReadsBody r e s values) (hs : s.WellFormed) (hbindings : checkBindings e s = .ok ())
    (hscalars : checkScalars s = .ok ()) {done : List (FieldEntry × Attribute)} {entry : FieldEntry}
    {a : Attribute} {t t' : WalkState Bytes} {u : WalkState (List FieldView)}
    (hentry : entry ∈ s.fields) (hcap : done.length < r.viewCapacity) (hm : Matches r e done t u)
    (hstep : (layoutWalk .values s.layout.timestampFormat (valuesWriter s)).element entry t a = .ok t')
    (hpre : t'.visited <+: values) :
    ∃ u', (r.walk {}).element entry.id u a = .ok u' ∧ Matches r e (done ++ [(entry, a)]) t' u' := by
  simp only [Walk.element, Walk.extent, layoutWalk, bind_eq_ok, Result.decoded_eq_ok, Walk.visit,
    valuesWriter, ne_eq, reduceCtorEq, not_false_eq_true, true_or, if_true, pure_eq_ok,
    Except.ok.injEq] at hstep
  obtain ⟨extent, hextent, next, hnext, _, hlimits, visited, ⟨piece, hwrite, rfl⟩, rfl⟩ := hstep
  have hunits : extent.units ≤ 4096 := by
    simp only [Walk.checkLimits, bind_eq_ok, rejectIf_eq_ok] at hlimits
    obtain ⟨_, -, _, -, h⟩ := hlimits
    have : (4096 : ℕ) = ({} : TraversalLimits).workUnits := rfl
    omega
  obtain ⟨haccepted, v, hv, hshows⟩ :=
    writeElement_accepted hs hbindings hscalars hentry hextent hunits hwrite
  obtain ⟨rest, hrest⟩ := hpre
  simp only at hrest
  have hlen := congrArg List.length hrest
  simp only [List.length_append, haccepted.length] at hlen
  have hinside := hr.inside
  have hsmall := hr.small
  have hwritten := hm.written
  have hpos : r.wireOffset u.offset = .ok t.offset := by
    rw [BodyReader.wireOffset, Result.decoded_eq_ok, checkedAdd_eq_ok, hm.offset, hr.start]
    simp only [sizeMax]
    omega
  have hdrop : r.payload.drop t.offset = piece ++ rest := by
    rw [hwritten, ← List.drop_drop, hr.payload, ← hrest, List.append_assoc, List.drop_left]
  have htake : (r.payload.drop t.offset).take extent.bytes = piece := by
    rw [hdrop]
    exact List.take_left' haccepted.length
  have hbinding : envelopeBinding r.envelope = envelopeBinding e := by
    rw [hr.envelope, envelopeBinding_onWire]
  have hprovider : r.provider entry.id a u.offset = .ok extent := by
    rw [BodyReader.provider, hpos, ok_bind, rejectIf_of_not (by omega), ok_bind]
    split
    · next hstruct =>
      rw [hdrop, hbinding]
      exact haccepted.structured hstruct rest
    · next hplain =>
      have hextent' := haccepted.plain hplain
      have hroom : ¬(if a.base then (descriptor entry.id).elim 0 FieldDescriptor.words * 4 else 4) >
          r.payload.length - t.offset := by
        have hbytes : extent.bytes =
            if a.base then (descriptor entry.id).elim 0 FieldDescriptor.words * 4 else 4 := by
          rw [hextent']
        rw [← hbytes]
        omega
      dsimp only
      rw [rejectIf_of_not hroom, ok_bind, hextent']
      rfl
  obtain ⟨view, hdef⟩ : ∃ view : FieldView, view =
    { id := entry.id, attr := a, kind := r.kind, group := r.group, timestampFormat := envelopeBinding e,
      bytes := piece, position := t.offset } := ⟨_, rfl⟩
  have hview : r.visitor u.visited
      { field := entry.id, attr := a, offset := u.offset, bytes := extent.bytes } =
        .ok (u.visited ++ [view]) := by
    have hsub : subspan r.payload t.offset extent.bytes = .ok piece := by
      rw [subspan, if_pos (by omega), htake]
      rfl
    have hcheck : r.checkElement
        { field := entry.id, attr := a, offset := u.offset, bytes := extent.bytes } t.offset piece =
          .ok () := by
      simp only [BodyReader.checkElement, hr.kind, hbinding]
      exact haccepted.valid
    have hcount : u.visited.length = done.length := hm.views.length_eq.symm
    simp only [BodyReader.visitor, hpos, ok_bind, hsub, hcheck, hbinding, hdef]
    rw [rejectIf_of_not (by omega), ok_bind, rejectIf_of_not (by omega)]
    rfl
  have hlimits' : (r.walk {}).checkLimits entry.id a extent u.offset u.work = .ok () := by
    rw [hm.offset, hm.work]
    have hsame : (r.walk {}).checkLimits entry.id a extent t.offset t.work =
        (layoutWalk .values s.layout.timestampFormat (valuesWriter s)).checkLimits entry.id a extent
          t.offset t.work := by
      apply Walk.checkLimits_congr
      · exact hr.kind
      · rfl
    exact hsame.trans hlimits
  refine ⟨{ offset := next, work := t.work + extent.units, visited := u.visited ++ [view] }, ?_, ?_⟩
  · have hext : (r.walk {}).extent entry.id a u.offset = .ok extent := by
      simp only [Walk.extent, BodyReader.walk, hr.kind]
      exact hprovider
    have hvis : (r.walk {}).visit u.visited
        { field := entry.id, attr := a, offset := u.offset, bytes := extent.bytes } =
          .ok (u.visited ++ [view]) := by
      rw [Walk.visit, if_pos (.inl (by simp [BodyReader.walk, hr.kind]))]
      exact hview
    have hid : (r.walk {}).idOf entry.id = entry.id := rfl
    have hadd : (checkedAdd u.offset extent.bytes).decoded = .ok next := by
      rw [Result.decoded_eq_ok, hm.offset]
      exact hnext
    simp only [Walk.element, hext, ok_bind, hadd, hid, hlimits', hvis, pure_eq_ok]
    rw [hm.work]
  · have hnext' := (checkedAdd_eq_ok.mp hnext).2
    refine ⟨rfl, rfl, ?_, ?_⟩
    · simp only [List.length_append, haccepted.length]
      omega
    · refine List.rel_append hm.views (.cons ?_ .nil)
      rw [hdef]
      exact ⟨rfl, rfl, hr.kind, rfl, v, hv, hshows⟩

/-- The elements of the decoder are those of the encoder. -/
theorem walkElements_ids (s : PacketSnapshot) :
    walkElements s.layout.attributes s.ids =
      (walkElements s.layout.attributes s.fields).map fun x => (x.1.id, x.2) := by
  simp only [walkElements, PacketSnapshot.ids, List.flatMap_map, List.map_flatMap, List.map_map]
  rfl

/-- The decoder's traversal of a values body follows the encoder's. -/
theorem appendFields_simulation {r : BodyReader} {e : Envelope} {s : PacketSnapshot} {values : Bytes}
    {plan : IndicatorPlan} (hr : ReadsBody r e s values) (hs : s.WellFormed)
    (hbindings : checkBindings e s = .ok ()) (hscalars : checkScalars s = .ok ())
    (hplan : plan.selected = s.ids ∧ plan.attributes = s.layout.attributes ∧
      indicatorCount (plan.cif 0) = indicatorCount (s.layout.cif 0))
    (hcap : (walkElements s.layout.attributes s.fields).length ≤ r.viewCapacity)
    (hvalues : writeValues .values s = .ok values) :
    ∃ a, appendFields r {} plan 0 [] = .ok a ∧ a.size = values.length ∧
      List.Forall₂ (ShowsElement (envelopeBinding e)) (walkElements s.layout.attributes s.fields)
        a.fields := by
  simp only [writeValues, walkLayout, bind_eq_ok, pure_eq_ok, Except.ok.injEq] at hvalues
  obtain ⟨final, hrun, rfl⟩ := hvalues
  obtain ⟨hfields, hfold⟩ := Walk.run_eq_ok.mp hrun
  obtain ⟨hselected, hattributes, hcount⟩ := hplan
  have hinit : Matches r e [] { offset := indicatorCount (s.layout.cif 0) * 4, work := 0, visited := [] }
      { offset := indicatorCount (s.layout.cif 0) * 4, work := 0, visited := [] } :=
    ⟨rfl, rfl, hr.header.symm, .nil⟩
  obtain ⟨u, hu, hmatch⟩ := foldlM_simulation
    (g := fun u (x : FieldEntry × Attribute) => (r.walk {}).element x.1.id u x.2)
    (Matches r e) (fun t => t.visited <+: final.visited) hinit (List.prefix_refl _)
    (fun x t t' hstep hpre => by
      simp only [Walk.element, Walk.visit, layoutWalk, bind_eq_ok, pure_eq_ok, ne_eq, reduceCtorEq,
        not_false_eq_true, true_or, if_true, Except.ok.injEq] at hstep
      obtain ⟨_, -, _, -, _, -, _, ⟨_, -, rfl⟩, rfl⟩ := hstep
      exact (List.prefix_append _ _).trans hpre)
    (fun done x rest t t' u hsplit hm hstep hpre => by
      have hmem : x ∈ walkElements s.layout.attributes s.fields := by
        rw [hsplit]
        exact List.mem_append_right _ (List.mem_cons_self ..)
      have hlen := congrArg List.length hsplit
      rw [List.length_append, List.length_cons] at hlen
      obtain ⟨entry, hentry, hx⟩ := List.mem_flatMap.mp hmem
      obtain ⟨a, -, rfl⟩ := List.mem_map.mp hx
      exact element_simulation hr hs hbindings hscalars hentry (by omega) hm hstep hpre)
    hfold
  have hdecode : (r.walk {}).run (plan.cif 0) plan.attributes plan.selected 0 [] = .ok u := by
    rw [Walk.run_eq_ok, hselected, hattributes, hcount]
    refine ⟨fun id hid => ?_, ?_⟩
    · obtain ⟨entry, hentry, rfl⟩ := List.mem_map.mp hid
      exact hfields entry hentry
    · rw [walkElements_ids, List.foldlM_map]
      exact hu
  refine ⟨{ fields := u.visited, work := u.work, size := u.offset - r.ownHeader }, ?_, ?_, hmatch.views⟩
  · simp only [appendFields, hdecode, ok_bind, pure_eq_ok]
  · simp only [hmatch.offset, hmatch.written]
    omega

/-- The decoder's traversal of a selector body follows the encoder's. -/
theorem selectorWalk_simulation {s : PacketSnapshot} {values : Bytes} {plan : IndicatorPlan}
    {viewCapacity : ℕ} (hplan : plan.selected = s.ids ∧ plan.attributes = s.layout.attributes ∧
      indicatorCount (plan.cif 0) = indicatorCount (s.layout.cif 0))
    (hcap : (walkElements s.layout.attributes s.fields).length ≤ viewCapacity)
    (hvalues : writeValues .selectors s = .ok values) :
    values = [] ∧ ∃ u, (selectorWalk viewCapacity {}).run (plan.cif 0) plan.attributes plan.selected 0
      [] = .ok u := by
  simp only [writeValues, walkLayout, bind_eq_ok, pure_eq_ok, Except.ok.injEq] at hvalues
  obtain ⟨final, hrun, rfl⟩ := hvalues
  obtain ⟨hfields, hfold⟩ := Walk.run_eq_ok.mp hrun
  obtain ⟨hselected, hattributes, hcount⟩ := hplan
  obtain ⟨u, hu, hmatch⟩ := foldlM_simulation
    (g := fun u (x : FieldEntry × Attribute) => (selectorWalk viewCapacity {}).element x.1.id u x.2)
    (u := { offset := indicatorCount (s.layout.cif 0) * 4, work := 0, visited := [] })
    (fun done t u => u.offset = t.offset ∧ u.work = t.work ∧ t.visited = [] ∧
      u.visited.length = done.length) (fun _ => True) ⟨rfl, rfl, rfl, rfl⟩ trivial
    (fun _ _ _ _ _ => trivial)
    (fun done x rest t t' u hsplit hm hstep _ => by
      obtain ⟨hoffset, hwork, hvisited, hviews⟩ := hm
      have hlen := congrArg List.length hsplit
      rw [List.length_append, List.length_cons] at hlen
      simp only [Walk.element, Walk.visit, Walk.extent, layoutWalk, bind_eq_ok, pure_eq_ok, ne_eq,
        not_true_eq_false, Bool.false_eq_true, or_self, if_false, Except.ok.injEq,
        Result.decoded_eq_ok] at hstep
      obtain ⟨_, rfl, next, hnext, _, hlimits, _, rfl, rfl⟩ := hstep
      have hlimits' : (selectorWalk viewCapacity {}).checkLimits x.1.id x.2 { bytes := 0, units := 1 }
          t.offset t.work = .ok () := hlimits
      refine ⟨{ offset := next, work := t.work + 1
                visited := u.visited ++ [{ id := x.1.id, attr := x.2, kind := .selectors }] }, ?_, ?_⟩
      · have hext : (selectorWalk viewCapacity {}).extent x.1.id x.2 u.offset =
            .ok { bytes := 0, units := 1 } := rfl
        have hid : (selectorWalk viewCapacity {}).idOf x.1.id = x.1.id := rfl
        have hvis : ∀ el : LayoutElement, (selectorWalk viewCapacity {}).visit u.visited el =
            .ok (u.visited ++ [{ id := el.field, attr := el.attr, kind := .selectors }]) := by
          intro el
          rw [Walk.visit, if_pos (.inr rfl)]
          show (rejectIf _ _ >>= _) = _
          rw [rejectIf_of_not (by omega)]
          rfl
        simp only [Walk.element, hext, ok_bind, hid, hvis, pure_eq_ok]
        rw [hoffset, hwork, hnext, hlimits']
        rfl
      · refine ⟨rfl, rfl, hvisited, ?_⟩
        simp [hviews])
    hfold
  refine ⟨hmatch.2.2.1, u, ?_⟩
  rw [Walk.run_eq_ok, hselected, hattributes, hcount]
  refine ⟨fun id hid => ?_, ?_⟩
  · obtain ⟨entry, hentry, rfl⟩ := List.mem_map.mp hid
    exact hfields entry hentry
  · rw [walkElements_ids, List.foldlM_map]
    exact hu

/-! ## Packets -/

/-- What `encodePacket` has checked and written. -/
structure Encoded (kind : BodyKind) (e : Envelope) (s : PacketSnapshot) (change : Bool)
    (values out : Bytes) : Prop where
  family : ¬(isData e.type ∨ isExtension e.type ∨ e.trailer)
  allowed : change → e.type = .context ∨ e.type = .command ∧ ¬e.ack ∧ ¬e.cancel
  snapshot : checkSnapshot kind e s = .ok ()
  bindings : kind = .values → checkBindings e s = .ok ()
  scalars : kind = .values → checkScalars s = .ok ()
  written : writeValues kind s = .ok values
  envelope : ∃ capacity,
    encodeEnvelope e (writeIndicators s.layout change ++ values) none capacity = .ok out

/-- A packet is encoded from the values of the snapshot, in the order of the indicators. -/
theorem encodePacket_eq_ok {kind : BodyKind} {e : Envelope} {s : PacketSnapshot} {change : Bool}
    {capacity : ℕ} {out : Bytes} (h : encodePacket kind e s change capacity = .ok out) :
    ∃ values, Encoded kind e s change values out := by
  have hchange : ¬(change ∧ e.type ≠ .context ∧ ¬(e.type = .command ∧ ¬e.ack ∧ ¬e.cancel)) →
      change → e.type = .context ∨ e.type = .command ∧ ¬e.ack ∧ ¬e.cancel := by
    intro hno hc
    by_contra hneither
    exact hno ⟨hc, fun h => hneither (.inl h), fun h => hneither (.inr h)⟩
  by_cases hk : kind = .values
  · simp only [encodePacket, hk, if_true, bind_eq_ok, rejectIf_eq_ok, Result.decoded_eq_ok] at h
    obtain ⟨_, hfamily, _, hno, _, hsnapshot, _, -, _, hbindings, _, -, _, hscalars, _, -, _, -, values,
      hvalues, hout⟩ := h
    subst hk
    exact ⟨values, hfamily, hchange hno, hsnapshot, fun _ => hbindings, fun _ => hscalars, hvalues,
      capacity, hout⟩
  · simp only [encodePacket, hk, if_false, bind_eq_ok, rejectIf_eq_ok, Result.decoded_eq_ok] at h
    obtain ⟨_, hfamily, _, hno, _, hsnapshot, _, -, _, -, _, -, _, -, values, hvalues, hout⟩ := h
    exact ⟨values, hfamily, hchange hno, hsnapshot, fun h => absurd h hk, fun h => absurd h hk, hvalues,
      capacity, hout⟩

/-- An accepted snapshot has registered fields only. -/
theorem descriptor_of_writeValues {kind : BodyKind} {s : PacketSnapshot} {values : Bytes}
    (h : writeValues kind s = .ok values) : ∀ entry ∈ s.fields, descriptor entry.id ≠ none := by
  simp only [writeValues, walkLayout, bind_eq_ok] at h
  obtain ⟨final, hrun, -⟩ := h
  intro entry hentry
  obtain ⟨d, hd, -⟩ := (Walk.run_eq_ok.mp hrun).1 entry hentry
  have hd' : descriptor entry.id = some d := hd
  rw [hd']
  exact Option.some_ne_none d

/-- What decoding an encoded packet returns. -/
structure Decodes (kind : BodyKind) (e : Envelope) (s : PacketSnapshot) (change : Bool)
    (p : PacketView) : Prop where
  body : ¬p.isOpaque
  envelope : p.envelope.envelope = e.onWire
  flag : p.change = change
  bodyKind : p.bodyKind = kind
  keys : p.fields.map (fun v => (v.id, v.attr)) = walkElements s.layout.attributes s.ids
  shows : kind = .values → List.Forall₂ (ShowsElement (envelopeBinding e))
    (walkElements s.layout.attributes s.fields) p.fields

section Bodies

variable {e : Envelope} {s : PacketSnapshot} {change : Bool} {values out : Bytes} {env : EnvelopeView}
  {plan : IndicatorPlan} {fieldCapacity viewCapacity : ℕ}

theorem keys_of_shows {b : TimestampFormatBinding} {views : List FieldView}
    (h : List.Forall₂ (ShowsElement b) (walkElements s.layout.attributes s.fields) views) :
    views.map (fun v => (v.id, v.attr)) = walkElements s.layout.attributes s.ids := by
  rw [walkElements_ids]
  generalize walkElements s.layout.attributes s.fields = elements at h
  induction h with
  | nil => rfl
  | cons hx _ ih => rw [List.map_cons, List.map_cons, ih, hx.id, hx.attr]

/-- A values body that the encoder wrote is read back. -/
theorem valuesBody_decodes (henc : Encoded .values e s change values out) (hs : s.WellFormed)
    (henv : env.envelope = e.onWire) (hpayload : env.payload = writeIndicators s.layout change ++ values)
    (hsmall : env.payload.length ≤ 2 ^ 20) (hplan : PlanOf s change plan)
    (hcap : (walkElements s.layout.attributes s.fields).length ≤ viewCapacity) :
    ∃ a, appendFields (valuesReader env plan viewCapacity) {} plan 0 [] = .ok a ∧
      plan.bytes + a.size = env.payload.length ∧
      Decodes .values e s change { envelope := env, fields := a.fields, change := plan.change } := by
  have hheader : (writeIndicators s.layout change).length = plan.bytes := by
    rw [length_writeIndicators, hplan.bytes]
  have hreads : ReadsBody (valuesReader env plan viewCapacity) e s values := by
    refine ⟨rfl, henv, hplan.bytes, rfl, ?_, ?_, hsmall⟩
    · show env.payload.drop plan.bytes = values
      rw [hpayload, ← hheader, List.drop_left]
    · show plan.bytes + values.length = env.payload.length
      rw [hpayload, List.length_append, hheader]
  obtain ⟨a, ha, hsize, hshows⟩ := appendFields_simulation hreads hs (henc.bindings rfl)
    (henc.scalars rfl) ⟨hplan.selected, hplan.attributes, hplan.count⟩ hcap henc.written
  refine ⟨a, ha, ?_, by simp, henv, hplan.change, rfl, keys_of_shows hshows, fun _ => hshows⟩
  rw [hpayload, List.length_append, hheader, hsize]

/-- A selector body that the encoder wrote is read back. -/
theorem selectorsBody_decodes (henc : Encoded .selectors e s change values out)
    (henv : env.envelope = e.onWire) (hpayload : env.payload = writeIndicators s.layout change ++ values)
    (hplan : PlanOf s change plan)
    (hcap : (walkElements s.layout.attributes s.fields).length ≤ viewCapacity) :
    ∃ u, (selectorWalk viewCapacity {}).run (plan.cif 0) plan.attributes plan.selected 0 [] = .ok u ∧
      plan.bytes = env.payload.length ∧
      Decodes .selectors e s change
        { envelope := env, fields := u.visited, bodyKind := .selectors, change := plan.change } := by
  obtain ⟨rfl, u, hu⟩ := selectorWalk_simulation
    ⟨hplan.selected, hplan.attributes, hplan.count⟩ hcap henc.written
  have hkeys := (selectorWalk_views hu).1
  rw [hplan.selected, hplan.attributes] at hkeys
  refine ⟨u, hu, ?_, by simp, henv, hplan.change, rfl, hkeys, by simp⟩
  rw [hpayload, List.append_nil, length_writeIndicators, hplan.bytes]

end Bodies

/-- Every packet the encoder writes is decoded, with a view for every element. -/
theorem decode_encodePacket {kind : BodyKind} {e : Envelope} {s : PacketSnapshot} {change : Bool}
    {capacity fieldCapacity viewCapacity : ℕ} {out : Bytes} (hs : s.WellFormed)
    (h : encodePacket kind e s change capacity = .ok out) (hfields : s.fields.length ≤ fieldCapacity)
    (hviews : (walkElements s.layout.attributes s.fields).length ≤ viewCapacity) :
    ∃ p, decodePacketBounded fieldCapacity viewCapacity out {} = .ok p ∧ Decodes kind e s change p := by
  obtain ⟨values, henc⟩ := encodePacket_eq_ok h
  obtain ⟨cap, hencode⟩ := henc.envelope
  obtain ⟨env, hdecode, henv, hpayload, -⟩ := decodeEnvelope_encodeEnvelope hencode
  have hsmall : env.payload.length ≤ 2 ^ 20 := by
    obtain ⟨-, hm, -, -⟩ := encodeEnvelope_eq_ok.mp hencode
    have hsize := hm.size_eq
    have hfits := hm.fits
    rw [hpayload]
    omega
  have hplans : ∀ allow : Bool, (change → allow) → ∃ plan n,
      parseIndicators fieldCapacity env.payload 0 allow 0 = .ok (plan, n) ∧ PlanOf s change plan := by
    intro allow hallow
    have hwhole : Segment env.payload 0 (writeIndicators s.layout change ++ values)
        env.payload.length := Segment.whole_iff.mpr hpayload
    obtain ⟨stop, hwords, -⟩ := Segment.append_iff.mp hwhole
    have hcapacity : 0 + s.fields.length ≤ fieldCapacity := by omega
    obtain ⟨plan, hparse, hplan⟩ := parseIndicators_write hs
      (descriptor_of_writeValues henc.written) hcapacity hallow hwords
    exact ⟨plan, _, hparse, hplan⟩
  have hbody : ∃ p, decodeBody fieldCapacity viewCapacity env {} = .ok p ∧
      Decodes kind e s change p := by
    have htype : env.envelope.type = e.type := by rw [henv]; rfl
    have hplainFamily : ¬(isData env.envelope.type ∨ isExtension env.envelope.type) := by
      rw [htype]
      exact fun hor => henc.family (hor.elim .inl fun h => .inr (.inl h))
    have hsnapshot := henc.snapshot
    unfold decodeBody
    simp only [if_neg hplainFamily]
    by_cases hcontext : e.type = .context
    · rw [if_pos (htype.trans hcontext)]
      simp only [checkSnapshot, if_pos hcontext, bind_eq_ok, rejectIf_eq_ok, ne_eq,
        Decidable.not_not] at hsnapshot
      obtain ⟨_, rfl, -⟩ := hsnapshot
      obtain ⟨plan, n, hparse, hplan⟩ := hplans true fun _ => rfl
      obtain ⟨a, ha, hsize, hdecodes⟩ := valuesBody_decodes henc hs henv hpayload hsmall hplan hviews
      refine ⟨_, ?_, hdecodes⟩
      simp only [decodeContext, hparse, ok_bind, ha]
      rw [rejectIf_of_not (by omega)]
      rfl
    · rw [if_neg (fun h => hcontext (htype ▸ h))]
      simp only [checkSnapshot, if_neg hcontext] at hsnapshot
      cases hcommand : e.command with
      | none =>
        rw [hcommand] at hsnapshot
        cases hsnapshot
      | some c =>
        simp only [hcommand, bind_eq_ok, rejectIf_eq_ok, not_or, ne_eq, Decidable.not_not] at hsnapshot
        obtain ⟨_, ⟨hkind, hstate⟩, -⟩ := hsnapshot
        have hwire : env.envelope.command = some c.onWire := by
          rw [henv]
          simp [Envelope.onWire, hcommand]
        have hack : env.envelope.ack = e.ack := by rw [henv]; rfl
        have hcancel : env.envelope.cancel = e.cancel := by rw [henv]; rfl
        have hcam : c.onWire.cam = c.cam := rfl
        have hopen : ¬env.envelope.ack ∨ bit c.cam 18 := by
          rw [hack]
          by_contra hno
          rw [not_or, Decidable.not_not] at hno
          exact hstate ⟨hno.1, hno.2⟩
        have hallow : change → (!env.envelope.ack && !env.envelope.cancel) := by
          intro hc
          obtain hctx | ⟨-, ha, hca⟩ := henc.allowed hc
          · exact absurd hctx hcontext
          · rw [hack, hcancel]
            simp [ha, hca]
        obtain ⟨plan, n, hparse, hplan⟩ := hplans _ hallow
        have hselectors : selectorsCommand env.envelope c.cam = selectorsCommand e c.cam := by
          rw [selectorsCommand, selectorsCommand, hack, hcancel]
        rw [hwire]
        simp only [decodeCommandBody, hcam, if_pos hopen]
        by_cases hsel : selectorsCommand e c.cam
        · rw [if_pos hsel] at hkind
          subst hkind
          obtain ⟨u, hu, hsize, hdecodes⟩ := selectorsBody_decodes henc henv hpayload hplan hviews
          refine ⟨_, ?_, hdecodes⟩
          simp only [decodeCommand, hparse, ok_bind, hselectors, if_pos hsel, hu]
          rw [rejectIf_of_not (by omega)]
          rfl
        · rw [if_neg hsel] at hkind
          subst hkind
          obtain ⟨a, ha, hsize, hdecodes⟩ := valuesBody_decodes henc hs henv hpayload hsmall hplan hviews
          refine ⟨_, ?_, hdecodes⟩
          simp only [decodeCommand, hparse, ok_bind, hselectors, if_neg hsel, ha]
          rw [rejectIf_of_not (by omega)]
          rfl
  obtain ⟨p, hp, hdecodes⟩ := hbody
  refine ⟨p, ?_, hdecodes⟩
  rw [decodePacketBounded, hdecode, ok_bind, rejectIf_of_not (by simp), ok_bind, hp]

/-! ## Values -/

/-- The view of an element yields its value, noise figures of zero apart. -/
theorem ShowsElement.yields_iff {b : TimestampFormatBinding} {entry : FieldEntry} {a : Attribute}
    {view : FieldView} (h : ShowsElement b (entry, a) view) :
    ∃ v, entry.values a = some v ∧ (view.Yields v ↔ ¬losesNoiseFigure v) := by
  obtain ⟨v, hv, hshows⟩ := h.value
  refine ⟨v, hv, ?_⟩
  simp only [ShowsValue] at hshows
  split at hshows
  · next hstruct =>
    obtain ⟨n, extent, rfl, hcarries⟩ := hshows
    have hyields : view.YieldsNative n :=
      hcarries.yields view h.kind (by rw [h.attr]; exact hstruct.1) h.id rfl h.format
    refine iff_of_true hyields ?_
    rintro ⟨_, heq⟩
    cases heq
  · next hplain =>
    obtain ⟨d, hd, hbytes, hvalid⟩ := hshows
    have hnative : v.kind ≠ .native := (validateAttributeValue_eq_ok hvalid).choose_spec.2.1
    have hyields : view.Yields v ↔ view.value = .ok v := by
      cases v with
      | native n => exact absurd rfl hnative
      | _ => exact Iff.rfl
    have hid : view.id = entry.id := h.id
    have hattr : view.attr = a := h.attr
    have hvalue : view.value = readAttributeScalar d a (writeAttributeScalar d a v) := by
      rw [FieldView.value, hid, hd, hattr, hbytes, rejectIf_of_not (by simp [h.kind]), ok_bind]
      simp only
      rw [rejectIf_of_not hplain, ok_bind]
    rw [hyields, hvalue]
    exact readAttributeScalar_iff hd hvalid

section Snapshots

variable {kind : BodyKind} {e : Envelope} {s : PacketSnapshot} {change : Bool}
  {N capacity fieldCapacity viewCapacity : ℕ} {out : Bytes}

/-- A known noise figure of zero is not read back. -/
theorem not_roundTrips (hbuilt : Built kind N s)
    (h : encodePacket kind e s change capacity = .ok out) (hfields : s.fields.length ≤ fieldCapacity)
    (hviews : (walkElements s.layout.attributes s.fields).length ≤ viewCapacity)
    (hloses : LosesNoiseFigure s) : ¬RoundTrips kind e s change fieldCapacity viewCapacity out := by
  have hs := hbuilt.wellFormed
  obtain ⟨p, hp, hd⟩ := decode_encodePacket hs h hfields hviews
  rintro ⟨q, hq, -, -, -, -, -, hvalues⟩
  obtain ⟨entry, hentry, a, v, hv, hloses⟩ := hloses
  obtain rfl : p = q := Except.ok.inj (hp.symm.trans hq)
  by_cases hk : kind = .values
  · have ha : a ∈ selectedAttributes s.layout.attributes :=
      (hs.entries entry hentry).selected a (by rw [hv]; rfl)
    have hmem : (entry, a) ∈ walkElements s.layout.attributes s.fields :=
      List.mem_flatMap.mpr ⟨entry, hentry, List.mem_map_of_mem ha⟩
    obtain ⟨view, hview, hshows⟩ := exists_of_forall₂ (hd.shows hk) hmem
    obtain ⟨w, hw, hyields⟩ := hvalues hk view hview entry hentry hshows.id.symm
    obtain ⟨v', hv', hiff⟩ := hshows.yields_iff
    obtain rfl : v = v' := Option.some.inj (hv.symm.trans hv')
    obtain rfl : w = v := by
      rw [hshows.attr] at hw
      exact Option.some.inj (hw.symm.trans hv)
    exact hiff.mp hyields hloses
  · rw [hbuilt.values_none hk entry hentry a] at hv
    cases hv

/-- Without a known noise figure of zero all values are read back. -/
theorem roundTrips_of_not_loses (hbuilt : Built kind N s)
    (h : encodePacket kind e s change capacity = .ok out) (hfields : s.fields.length ≤ fieldCapacity)
    (hviews : (walkElements s.layout.attributes s.fields).length ≤ viewCapacity)
    (hno : ¬LosesNoiseFigure s) : RoundTrips kind e s change fieldCapacity viewCapacity out := by
  have hs := hbuilt.wellFormed
  obtain ⟨p, hp, hd⟩ := decode_encodePacket hs h hfields hviews
  refine ⟨p, hp, hd.body, hd.envelope, hd.flag, hd.bodyKind, hd.keys, ?_⟩
  intro hk view hview entry hentry hid
  obtain ⟨⟨entry', a⟩, hmem, hshows⟩ := exists_of_forall₂ (hd.shows hk).flip hview
  obtain ⟨x, hx, hx'⟩ := List.mem_flatMap.mp hmem
  obtain ⟨_, -, heq⟩ := List.mem_map.mp hx'
  -- the fields of a snapshot are distinct, so the view shows this very entry
  have hsame : entry' = entry := by
    obtain rfl : x = entry' := congrArg Prod.fst heq
    have hfound := find?_entry hs hx
    have hid' : x.id = entry.id := hshows.id.symm.trans hid.symm
    rw [hid', find?_entry hs hentry] at hfound
    exact (Option.some.inj hfound).symm
  subst hsame
  obtain ⟨v, hv, hiff⟩ := hshows.yields_iff
  refine ⟨v, by rw [hshows.attr]; exact hv, hiff.mpr fun hloses => ?_⟩
  exact hno ⟨entry', hentry, a, v, hv, hloses⟩

/-- The packet codec round trip: what the encoder writes is decoded to the same envelope, flag, body
kind and fields, and the stored values are read back exactly when no known noise figure of zero is
among them. -/
theorem roundTrips_iff (hbuilt : Built kind N s)
    (h : encodePacket kind e s change capacity = .ok out) (hfields : s.fields.length ≤ fieldCapacity)
    (hviews : (walkElements s.layout.attributes s.fields).length ≤ viewCapacity) :
    RoundTrips kind e s change fieldCapacity viewCapacity out ↔ ¬LosesNoiseFigure s :=
  ⟨fun hround hloses => not_roundTrips hbuilt h hfields hviews hloses hround,
    roundTrips_of_not_loses hbuilt h hfields hviews⟩

end Snapshots

/-- A Context snapshot with the average of a noise figure. -/
def noiseSnapshot (figure : Int16) : PacketSnapshot :=
  { layout := { subtype := .context, attributes := Attribute.average.bit
                cif := indicatorWords [Field.snrNoiseFigure] Attribute.average.bit }
    fields := [{ id := Field.snrNoiseFigure
                 values := fun a =>
                   [(.average, .snrNoiseFigure { noiseFigureQ7 := some figure })].lookup a }]
    generation := 1 }

/-- The builder accepts the average of a noise figure, zero included. -/
theorem noiseSnapshot_built {figure : Int16} (h : figure = 0 ∨ figure = 128) :
    Built .values 16 (noiseSnapshot figure) := by
  have hinitial : Built .values 16 (.initial .context) := .initial rfl
  have hedit : PacketBuilder.edit .values 16 (fun _ => .ok ()) (.initial .context)
      Attribute.average.bit [{ field := Field.snrNoiseFigure, attr := .average
                               value := .snrNoiseFigure { noiseFigureQ7 := some figure } }]
      (some Field.snrNoiseFigure) = .ok (noiseSnapshot figure) := by
    obtain rfl | rfl := h <;> rfl
  exact .edit hinitial hedit

/-- The wire image of `noiseSnapshot`, with the code of the figure. -/
def noiseWire (high low : UInt8) : Bytes :=
  [64, 0, 0, 6, 0, 0, 0, 1, 0, 0, 0, 130, 0, 1, 0, 0, 64, 0, 0, 0, 127, 255, high, low]

theorem roundTrips_iff_noise :
    encodePacket .values { type := .context, streamId := some 1 } (noiseSnapshot 128) false 64 =
        .ok (noiseWire 0 128) ∧
      (RoundTrips .values { type := .context, streamId := some 1 } (noiseSnapshot 128) false 1 1
        (noiseWire 0 128) ↔ ¬LosesNoiseFigure (noiseSnapshot 128)) := by
  have hencode : encodePacket .values { type := .context, streamId := some 1 } (noiseSnapshot 128) false
      64 = .ok (noiseWire 0 128) := by
    decide +kernel
  exact ⟨hencode, roundTrips_iff (noiseSnapshot_built (.inr rfl)) hencode (by decide) (by decide)⟩

/-- The builder and the encoder accept an average noise figure of zero, which is read back as
unknown. -/
theorem noise_figure_zero_not_roundTrips :
    Built .values 16 (noiseSnapshot 0) ∧
      encodePacket .values { type := .context, streamId := some 1 } (noiseSnapshot 0) false 64 =
        .ok (noiseWire 0 0) ∧
      (noiseSnapshot 0).fields.length = 1 ∧
      (walkElements (noiseSnapshot 0).layout.attributes (noiseSnapshot 0).fields).length = 1 ∧
      ¬RoundTrips .values { type := .context, streamId := some 1 } (noiseSnapshot 0) false 1 1
        (noiseWire 0 0) := by
  have hbuilt := noiseSnapshot_built (.inl rfl)
  have hencode : encodePacket .values { type := .context, streamId := some 1 } (noiseSnapshot 0) false
      64 = .ok (noiseWire 0 0) := by
    decide +kernel
  have hloses : LosesNoiseFigure (noiseSnapshot 0) :=
    ⟨_, List.mem_singleton.mpr rfl, .average, _, rfl, none, rfl⟩
  exact ⟨hbuilt, hencode, rfl, rfl,
    not_roundTrips hbuilt hencode (by decide) (by decide) hloses⟩

end Vita.Codec
