import Vita.Codec.OutputTheorems

/-!
# Diagnostic acknowledgements are read back

Both groups of indicators precede both groups of words. The encoder counts the words of a group from
the group's own header, the decoder from the end of all indicators; a group is there only when the
acknowledgement's CAM and the original one agree on it.

* `writeValues_diagnostics`: the body of a group is one word for each of its elements.
* `appendGroup_written`: the decoder reads the words of a group that stand where it expects them.
* `diagnostic_round_trip`: an encoded acknowledgement is decoded to the warnings and then the errors.
-/

namespace Vita.Codec

open Words Checked Buffer

/-! ## The statement -/

/-- The entries of a group: for every field and attribute of the snapshot, in their order, the bits of
the field. -/
def diagnosticEntries (group : DiagnosticGroup) (s : PacketSnapshot) :
    List (DiagnosticGroup × FieldId × Attribute × UInt32) :=
  (walkElements s.layout.attributes s.fields).map fun x => (group, x.1.id, x.2, x.1.diagnostic)

/-- The view shows an entry: a diagnostic of the group, field and attribute whose word holds the bits. -/
structure ShowsEntry (entry : DiagnosticGroup × FieldId × Attribute × UInt32) (view : FieldView) :
    Prop where
  kind : view.kind = .diagnostics
  group : view.group = entry.1
  id : view.id = entry.2.1
  attr : view.attr = entry.2.2.1
  bits : view.bytes = be32 entry.2.2.2

/-! ## Sizes -/

/-- A snapshot has at most one entry for every bit of the four indicator words. -/
theorem length_fields_le {s : PacketSnapshot} (hs : s.WellFormed) :
    s.fields.length ≤ 128 := by
  have hcode : (s.ids.map fun id => id.cif * 32 + (31 - id.bit)).Pairwise (· < ·) := by
    rw [List.pairwise_map]
    have hvalid : ∀ id ∈ s.ids, validFieldSelector id := by
      intro id hid
      obtain ⟨e, he, rfl⟩ := List.mem_map.mp hid
      exact (hs.entries e he).selector
    refine hs.ordered.imp_of_mem fun {a b} ha hb hbefore => ?_
    have hva := hvalid a ha
    have hvb := hvalid b hb
    simp only [validFieldSelector, fieldBefore, decide_eq_true_eq] at hva hvb hbefore
    omega
  have hsub : (s.ids.map fun id => id.cif * 32 + (31 - id.bit)) ⊆ List.range 128 := by
    intro n hn
    obtain ⟨id, hid, rfl⟩ := List.mem_map.mp hn
    obtain ⟨e, he, rfl⟩ := List.mem_map.mp hid
    have hv := (hs.entries e he).selector
    simp only [validFieldSelector, decide_eq_true_eq] at hv
    exact List.mem_range.mpr (by omega)
  have hnodup : (s.ids.map fun id => id.cif * 32 + (31 - id.bit)).Nodup :=
    hcode.imp fun h => Nat.ne_of_lt h
  have hle := (List.subperm_of_subset hnodup hsub).length_le
  simpa [PacketSnapshot.ids] using hle

/-- Both groups together are within the work of one packet. -/
theorem length_walkElements_le {s : PacketSnapshot} (hs : s.WellFormed) :
    (walkElements s.layout.attributes s.fields).length ≤ 1664 := by
  have hfields := length_fields_le hs
  have hattributes : (selectedAttributes s.layout.attributes).length ≤ 13 := List.length_filter_le ..
  have hlength : (walkElements s.layout.attributes s.fields).length =
      s.fields.length * (selectedAttributes s.layout.attributes).length := by
    unfold walkElements
    induction s.fields with
    | nil => simp
    | cons f fields ih =>
      rw [List.flatMap_cons, List.length_append, ih, List.length_map, List.length_cons, Nat.succ_mul,
        Nat.add_comm]
  rw [hlength]
  calc s.fields.length * (selectedAttributes s.layout.attributes).length
      ≤ 128 * 13 := Nat.mul_le_mul hfields hattributes
    _ = 1664 := rfl

/-! ## The body of a group -/

/-- The body of a group is one word for each of its elements. -/
theorem writeValues_diagnostics {s : PacketSnapshot} (hs : s.WellFormed) {values : Bytes}
    (h : writeValues .diagnostics s = .ok values) :
    values = (walkElements s.layout.attributes s.fields).flatMap fun x => be32 x.1.diagnostic := by
  simp only [writeValues, walkLayout, bind_eq_ok, pure_eq_ok, Except.ok.injEq] at h
  obtain ⟨final, hrun, rfl⟩ := h
  have hfold := (Walk.run_eq_ok.mp hrun).2
  refine foldlM_induction (fun done t => t.visited = done.flatMap fun x => be32 x.1.diagnostic) rfl
    (fun done x t t' hmem hdone hstep => ?_) hfold
  obtain ⟨extent, next, -, -, -, piece, rfl, hpiece⟩ := element_writer_iff.mp hstep
  rw [if_neg (by decide)] at hpiece
  have hentry : x.1 ∈ s.fields := by
    obtain ⟨entry, hentry, hx⟩ := List.mem_flatMap.mp hmem
    obtain ⟨_, -, rfl⟩ := List.mem_map.mp hx
    exact hentry
  simp only [writeElement, find?_entry hs hentry, pure_eq_ok, Except.ok.injEq] at hpiece
  rw [List.flatMap_append, ← hdone, ← hpiece]
  simp

section Group

variable {r : BodyReader} {limits : TraversalLimits}

/-- A word of a group is read as a view of its entry. -/
theorem diagnosticElement_run (hkind : r.kind = .diagnostics) (hsmall : r.payload.length ≤ 2 ^ 20)
    {entry : FieldEntry} {a : Attribute} {u : WalkState (List FieldView)} {position stop : ℕ}
    (hseg : Segment r.payload position (be32 entry.diagnostic) stop)
    (hposition : position = r.valuesOffset + (u.offset - r.ownHeader))
    (hbits : validateDiagnosticBits entry.diagnostic r.envelope.cancel = .ok ())
    (hwork : u.work + 1 ≤ limits.workUnits) (hviews : u.visited.length < r.viewCapacity)
    (hoffset : u.offset ≤ 2 ^ 21) :
    ∃ view, (r.walk limits).element entry.id u a =
        .ok { offset := u.offset + 4, work := u.work + 1, visited := u.visited ++ [view] } ∧
      ShowsEntry (r.group, entry.id, a, entry.diagnostic) view := by
  have hstop := hseg.stop_eq
  rw [length_be32] at hstop
  have hinside := hseg.inside
  have hword : load32 r.payload position = .ok entry.diagnostic := load32_of_segment hseg
  have hwire : r.wireOffset u.offset = .ok position := by
    rw [BodyReader.wireOffset, Result.decoded_eq_ok, checkedAdd_eq_ok]
    simp only [sizeMax]
    omega
  have hspan : subspan r.payload position 4 = .ok (be32 entry.diagnostic) := by
    rw [subspan, if_pos (by omega), hseg.split]
    rfl
  obtain ⟨view, hdef⟩ : ∃ view : FieldView, view =
    { id := entry.id, attr := a, kind := r.kind, group := r.group,
      timestampFormat := envelopeBinding r.envelope, bytes := be32 entry.diagnostic,
      position := position } := ⟨_, rfl⟩
  have hvisit : (r.walk limits).visit u.visited
      { field := entry.id, attr := a, offset := u.offset, bytes := 4 } = .ok (u.visited ++ [view]) := by
    have hcheck : r.checkElement { field := entry.id, attr := a, offset := u.offset, bytes := 4 } position
        (be32 entry.diagnostic) = .ok () := by
      simp only [BodyReader.checkElement, hkind, hword, ok_bind, hbits]
      rfl
    rw [Walk.visit, if_pos (.inl (by simp [BodyReader.walk, hkind]))]
    show r.visitor u.visited _ = _
    simp only [BodyReader.visitor, hwire, ok_bind, hspan, hcheck, hdef]
    rw [rejectIf_of_not (by omega), ok_bind, rejectIf_of_not (by omega)]
    rfl
  have hextent : (r.walk limits).extent entry.id a u.offset = .ok { bytes := 4, units := 1 } := by
    simp only [Walk.extent, BodyReader.walk, hkind]
    rfl
  have hadd : (checkedAdd u.offset 4).decoded = .ok (u.offset + 4) := by
    rw [Result.decoded_eq_ok, checkedAdd_eq_ok]
    simp only [sizeMax, and_true]
    omega
  have hlimits : (r.walk limits).checkLimits ((r.walk limits).idOf entry.id) a { bytes := 4, units := 1 }
      u.offset u.work = .ok () := by
    have hbody : (r.walk limits).body ≠ .values := by
      show r.kind ≠ .values
      rw [hkind]
      decide
    have hunits : (r.walk limits).limits.workUnits = limits.workUnits := rfl
    simp only [Walk.checkLimits]
    rw [rejectIf_of_not (fun h => hbody h.2.1), ok_bind, rejectIf_of_not (by simp), ok_bind, hunits,
      rejectIf_of_not (by omega)]
  refine ⟨view, ?_, ?_⟩
  · have hid : (r.walk limits).idOf entry.id = entry.id := rfl
    rw [hid] at hlimits
    simp only [Walk.element, hextent, ok_bind, hadd, hid, hlimits, hvisit, pure_eq_ok]
  · rw [hdef]
    exact ⟨hkind, rfl, rfl, rfl, rfl⟩

/-- The words of a group are read one after the other. -/
theorem diagnosticElements_run (hkind : r.kind = .diagnostics) (hsmall : r.payload.length ≤ 2 ^ 20)
    (elements : List (FieldEntry × Attribute)) {u : WalkState (List FieldView)} {position stop : ℕ}
    (hseg : Segment r.payload position (elements.flatMap fun x => be32 x.1.diagnostic) stop)
    (hposition : position = r.valuesOffset + (u.offset - r.ownHeader))
    (hheader : r.ownHeader ≤ u.offset)
    (hbits : ∀ x ∈ elements, validateDiagnosticBits x.1.diagnostic r.envelope.cancel = .ok ())
    (hwork : u.work + elements.length ≤ limits.workUnits)
    (hviews : u.visited.length + elements.length ≤ r.viewCapacity)
    (hoffset : u.offset + 4 * elements.length ≤ 2 ^ 21) :
    ∃ views, elements.foldlM (fun u x => (r.walk limits).element x.1.id u x.2) u =
        .ok { offset := u.offset + 4 * elements.length, work := u.work + elements.length
              visited := u.visited ++ views } ∧
      List.Forall₂ ShowsEntry (elements.map fun x => (r.group, x.1.id, x.2, x.1.diagnostic)) views := by
  induction elements generalizing u position with
  | nil => exact ⟨[], by simp, .nil⟩
  | cons x elements ih =>
    rw [List.length_cons] at hwork hviews hoffset
    rw [List.flatMap_cons] at hseg
    obtain ⟨mid, hword, hrest⟩ := Segment.append_iff.mp hseg
    have hmid := hword.stop_eq
    rw [length_be32] at hmid
    obtain ⟨view, hstep, hshows⟩ := @diagnosticElement_run r limits hkind hsmall x.1 x.2 u position mid
      hword hposition (hbits x (List.mem_cons_self ..)) (by omega) (by omega) (by omega)
    obtain ⟨views, hfold, hall⟩ := @ih
      { offset := u.offset + 4, work := u.work + 1, visited := u.visited ++ [view] } mid hrest
      (by simp only; omega) (by simp only; omega) (fun y hy => hbits y (List.mem_cons_of_mem _ hy))
      (by simp only; omega) (by simp only [List.length_append, List.length_singleton]; omega)
      (by simp only; omega)
    refine ⟨view :: views, ?_, .cons hshows hall⟩
    rw [List.foldlM_cons, hstep, ok_bind, hfold]
    simp only [List.length_cons, List.append_assoc, List.singleton_append, Except.ok.injEq,
      WalkState.mk.injEq, and_true]
    omega

end Group

/-! ## Groups -/

/-- The plan of a group that is present is the one of its snapshot; a group that is not has no entries. -/
def GroupPlan (present : Bool) (s : PacketSnapshot) (plan : Option IndicatorPlan) : Prop :=
  if present then ∃ p, plan = some p ∧ PlanOf s false p else plan = none ∧ s.fields = []

/-- The indicators of a group are parsed where they stand. -/
theorem parseGroup_written {s : PacketSnapshot} (hs : s.WellFormed) {present : Bool}
    {capacity offset selected stop : ℕ} {payload : Bytes}
    (hd : ∀ e ∈ s.fields, descriptor e.id ≠ none) (hcap : selected + s.fields.length ≤ capacity)
    (habsent : ¬present → s.fields = [])
    (hseg : Segment payload offset (if present then writeIndicators s.layout false else []) stop) :
    ∃ plan, parseGroup present capacity payload offset selected =
      .ok (plan, stop, selected + s.fields.length) ∧ GroupPlan present s plan := by
  cases present with
  | false =>
    have hempty : s.fields = [] := habsent (by decide)
    obtain ⟨rfl, -⟩ := Segment.nil_iff.mp hseg
    refine ⟨none, ?_, rfl, hempty⟩
    rw [hempty]
    rfl
  | true =>
    rw [if_pos rfl] at hseg
    obtain ⟨plan, hparse, hplan⟩ := @parseIndicators_write s hs capacity selected hd hcap false false id
      payload offset stop hseg
    have hstop : offset + plan.bytes = stop := by
      rw [hplan.bytes, hseg.stop_eq, length_writeIndicators]
    refine ⟨some plan, ?_, plan, rfl, hplan⟩
    simp only [parseGroup, if_true, hparse, ok_bind, hstop, pure_eq_ok]

/-- The words of a group are read where they stand, after whatever was read before. -/
theorem appendGroup_written {s : PacketSnapshot} (hs : s.WellFormed) {present : Bool}
    {env : EnvelopeView} {group : DiagnosticGroup} {plan : Option IndicatorPlan} {limits : TraversalLimits}
    {viewCapacity offset work stop : ℕ} {fields : List FieldView} {values : Bytes}
    (hplan : GroupPlan present s plan) (hvalues : writeValues .diagnostics s = .ok values)
    (hseg : Segment env.payload offset (if present then values else []) stop)
    (hsmall : env.payload.length ≤ 2 ^ 20)
    (hbits : ∀ f ∈ s.fields, validateDiagnosticBits f.diagnostic env.envelope.cancel = .ok ())
    (hwork : work + (diagnosticEntries group s).length ≤ limits.workUnits)
    (hviews : fields.length + (diagnosticEntries group s).length ≤ viewCapacity) :
    ∃ views, appendGroup env viewCapacity limits group plan offset work fields =
        .ok (fields ++ views, stop, work + (diagnosticEntries group s).length) ∧
      List.Forall₂ ShowsEntry (diagnosticEntries group s) views := by
  cases present with
  | false =>
    obtain ⟨rfl, hempty⟩ : plan = none ∧ s.fields = [] := hplan
    obtain ⟨rfl, -⟩ := Segment.nil_iff.mp hseg
    have hentries : diagnosticEntries group s = [] := by
      rw [diagnosticEntries, hempty]
      rfl
    rw [hentries]
    exact ⟨[], by simp [appendGroup], .nil⟩
  | true =>
    obtain ⟨p, rfl, hp⟩ : ∃ p, plan = some p ∧ PlanOf s false p := hplan
    have hentries : (diagnosticEntries group s).length =
        (walkElements s.layout.attributes s.fields).length := List.length_map ..
    rw [hentries] at hwork hviews ⊢
    rw [if_pos rfl] at hseg
    have hlength := hseg.stop_eq
    have hbody := writeValues_diagnostics hs hvalues
    have hcount : (walkElements s.layout.attributes s.fields).length ≤ 1664 := length_walkElements_le hs
    have hwords : values.length = 4 * (walkElements s.layout.attributes s.fields).length := by
      rw [hbody]
      generalize walkElements s.layout.attributes s.fields = elements
      induction elements with
      | nil => rfl
      | cons x elements ih =>
        rw [List.flatMap_cons, List.length_append, ih, length_be32, List.length_cons]
        omega
    have hheaderLe : indicatorCount (s.layout.cif 0) ≤ 8 := by
      have hfilter := List.length_filter_le (bit (s.layout.cif 0) ·) (List.range' 1 7)
      rw [List.length_range'] at hfilter
      unfold indicatorCount
      omega
    rw [hbody] at hseg
    obtain ⟨views, hfold, hshows⟩ := @diagnosticElements_run
      (diagnosticReader env group p offset viewCapacity) limits rfl hsmall
      (walkElements s.layout.attributes s.fields)
      { offset := indicatorCount (s.layout.cif 0) * 4, work := work, visited := fields } offset stop hseg
      (by simp only [diagnosticReader, hp.bytes]; omega) (by simp only [diagnosticReader, hp.bytes]; omega)
      (fun x hx => by
        obtain ⟨entry, hentry, hx⟩ := List.mem_flatMap.mp hx
        obtain ⟨_, -, rfl⟩ := List.mem_map.mp hx
        exact hbits entry hentry)
      hwork hviews (by simp only; omega)
    have hdescriptors : ∀ id ∈ s.ids, ∃ d, descriptor id = some d ∧
        effectiveAttributes s.layout.attributes &&& ~~~d.attributes = 0 := by
      simp only [writeValues, walkLayout, bind_eq_ok] at hvalues
      obtain ⟨final, hrun, -⟩ := hvalues
      intro id hid
      obtain ⟨entry, hentry, rfl⟩ := List.mem_map.mp hid
      exact (Walk.run_eq_ok.mp hrun).1 entry hentry
    have hrun : ((diagnosticReader env group p offset viewCapacity).walk limits).run (p.cif 0)
        p.attributes p.selected work fields =
          .ok { offset := indicatorCount (s.layout.cif 0) * 4 +
                  4 * (walkElements s.layout.attributes s.fields).length
                work := work + (walkElements s.layout.attributes s.fields).length
                visited := fields ++ views } := by
      rw [Walk.run_eq_ok, hp.selected, hp.attributes, hp.count]
      refine ⟨hdescriptors, ?_⟩
      rw [walkElements_ids, List.foldlM_map]
      exact hfold
    have hstop : offset + (indicatorCount (s.layout.cif 0) * 4 +
        4 * (walkElements s.layout.attributes s.fields).length - indicatorCount (s.layout.cif 0) * 4) =
          stop := by
      omega
    have hheader : (diagnosticReader env group p offset viewCapacity).ownHeader =
        indicatorCount (s.layout.cif 0) * 4 := hp.bytes
    refine ⟨views, ?_, hshows⟩
    simp only [appendGroup, appendFields, hrun, ok_bind, pure_eq_ok, hheader, hstop]

/-! ## Acknowledgements -/

/-- A diagnostic acknowledgement is no state acknowledgement. -/
theorem not_state_of_measured {e : Envelope} {c : Command} {n size : ℕ} (hm : Measured e n size)
    (hc : e.command = some c) (hack : e.ack) (hdiagnostic : bit c.cam 20 ∨ bit c.cam 19) :
    bit c.cam 18 = false := by
  obtain ⟨hcam, -⟩ := hm.command c hc
  simp only [validateCam, bind_eq_ok, rejectIf_eq_ok] at hcam
  obtain ⟨_, -, _, -, _, -, _, -, _, hbits, -⟩ := hcam
  have hone : ackBits c.cam = 1 := by
    by_contra hne
    exact hbits ⟨hack, hne⟩
  cases h18 : bit c.cam 18 with
  | false => rfl
  | true =>
    rw [ackBits, h18] at hone
    obtain h | h := hdiagnostic <;> rw [h] at hone <;> simp only [Bool.toNat_true] at hone <;> omega

/-- What decoding an acknowledgement returns. -/
structure DecodesDiagnostics (e : Envelope) (warnings errors : PacketSnapshot) (p : PacketView) :
    Prop where
  body : ¬p.isOpaque
  context : ¬p.requiresRequestContext
  envelope : p.envelope.envelope = e.onWire
  bodyKind : p.bodyKind = .diagnostics
  entries : List.Forall₂ ShowsEntry
    (diagnosticEntries .warning warnings ++ diagnosticEntries .error errors) p.fields

/-- Both groups of diagnostics, encoded and decoded again. -/
theorem decode_encodeDiagnostic {e : Envelope} {warnings errors : PacketSnapshot}
    {original : RequestContext} {capacity fieldCapacity viewCapacity : ℕ} {bytes : Bytes}
    (hw : warnings.WellFormed) (he : errors.WellFormed)
    (h : encodeDiagnostic e warnings errors original capacity = .ok bytes)
    (hfields : warnings.fields.length + errors.fields.length ≤ fieldCapacity)
    (hviews : (diagnosticEntries .warning warnings).length + (diagnosticEntries .error errors).length ≤
      viewCapacity) :
    ∃ p, decodePacketBounded fieldCapacity viewCapacity bytes { request := some original } = .ok p ∧
      DecodesDiagnostics e warnings errors p := by
  simp only [encodeDiagnostic, bind_eq_ok, rejectIf_eq_ok, Result.decoded_eq_ok] at h
  obtain ⟨⟨w, r⟩, hcheck, wm, hwm, em, hem, _, hbits, total, -, _, -, wv, hwv, ev, hev, hencode⟩ := h
  simp only at hencode
  have hbits' := forM_eq_ok.mp hbits
  simp only [Result.decoded_eq_ok, List.mem_append] at hbits'
  obtain ⟨-, hm, -, -⟩ := encodeEnvelope_eq_ok.mp hencode
  obtain ⟨env, hdecode, henv, hpayload, -⟩ := decodeEnvelope_encodeEnvelope hencode
  have hsmall : env.payload.length ≤ 2 ^ 20 := by
    have hsize := hm.size_eq
    have hfits := hm.fits
    rw [hpayload]
    omega
  -- the envelope and the groups that both CAM words announce
  simp only [checkDiagnostic] at hcheck
  cases hcommand : e.command with
  | none =>
    rw [hcommand] at hcheck
    cases hcheck
  | some c =>
    simp only [hcommand, bind_eq_ok, rejectIf_eq_ok, not_or, Decidable.not_not, not_and, pure_eq_ok,
      Except.ok.injEq, Prod.mk.injEq] at hcheck
    obtain ⟨_, ⟨htype, hack, hdiagnostic⟩, _, ⟨hwempty, hrempty⟩, hwdef, hrdef⟩ := hcheck
    have hstate := not_state_of_measured hm hcommand hack (by simpa [or_iff_not_imp_left] using hdiagnostic)
    -- the four pieces of the payload
    have hwhole := Segment.whole_iff.mpr hpayload
    obtain ⟨o₁, hseg₁, hrest₁⟩ := Segment.append_iff.mp hwhole
    obtain ⟨o₂, hseg₂, hrest₂⟩ := Segment.append_iff.mp hrest₁
    obtain ⟨o₃, hseg₃, hseg₄⟩ := Segment.append_iff.mp hrest₂
    have hcancel : env.envelope.cancel = e.cancel := by rw [henv]; rfl
    obtain ⟨wplan, hparse₁, hplan₁⟩ := @parseGroup_written warnings hw w fieldCapacity 0 0 o₁ env.payload
      (descriptor_of_writeValues hwv) (by omega) (by rw [← hwdef]; exact hwempty) hseg₁
    obtain ⟨rplan, hparse₂, hplan₂⟩ := @parseGroup_written errors he r fieldCapacity o₁
      (0 + warnings.fields.length) o₂ env.payload (descriptor_of_writeValues hev) (by omega)
      (by rw [← hrdef]; exact hrempty) hseg₂
    have hlengths : ∀ group s, (diagnosticEntries group s).length =
        (walkElements s.layout.attributes s.fields).length := fun group s => List.length_map ..
    have hwcount : (diagnosticEntries .warning warnings).length ≤ 1664 := by
      rw [hlengths]
      exact length_walkElements_le hw
    have hrcount : (diagnosticEntries .error errors).length ≤ 1664 := by
      rw [hlengths]
      exact length_walkElements_le he
    have hlimit : ({} : TraversalLimits).workUnits = 4096 := rfl
    obtain ⟨views₁, happend₁, hshows₁⟩ := @appendGroup_written warnings hw w env .warning wplan {}
      viewCapacity o₂ 0 o₃ [] wv hplan₁ hwv hseg₃ hsmall
      (fun f hf => by rw [hcancel]; exact hbits' f (.inl hf)) (by omega) (by simp only [List.length_nil]; omega)
    obtain ⟨views₂, happend₂, hshows₂⟩ := @appendGroup_written errors he r env .error rplan {}
      viewCapacity o₃ (0 + (diagnosticEntries .warning warnings).length) env.payload.length ([] ++ views₁)
      ev hplan₂ hev hseg₄ hsmall (fun f hf => by rw [hcancel]; exact hbits' f (.inr hf)) (by omega)
      (by rw [List.nil_append, ← hshows₁.length_eq]; exact hviews)
    refine ⟨{ envelope := env, fields := [] ++ views₁ ++ views₂, bodyKind := .diagnostics }, ?_, ?_⟩
    · have hwire : env.envelope.command = some c.onWire := by
        rw [henv]
        simp [Envelope.onWire, hcommand]
      have hcam : c.onWire.cam = c.cam := rfl
      have htype' : env.envelope.type = .command := by rw [henv]; exact htype
      have hack' : env.envelope.ack = true := by rw [henv]; exact hack
      have hwpresent : groupPresent c.cam (some original) 17 = w := hwdef
      have hrpresent : groupPresent c.cam (some original) 16 = r := hrdef
      have hbody : decodeDiagnostics fieldCapacity viewCapacity env w r { request := some original } =
          .ok { envelope := env, fields := [] ++ views₁ ++ views₂, bodyKind := .diagnostics } := by
        simp only [decodeDiagnostics, hparse₁, hparse₂, ok_bind, happend₁, happend₂]
        rw [rejectIf_of_not (by simp)]
        rfl
      rw [decodePacketBounded, hdecode, ok_bind, rejectIf_of_not (by simp), ok_bind]
      unfold decodeBody
      simp only [htype', hwire]
      rw [if_neg (by decide), if_neg (by decide), decodeCommandBody, hcam, if_neg (by simp [hack', hstate]),
        if_neg (by simp), hwpresent, hrpresent]
      exact hbody
    · exact ⟨by simp, by simp, henv, rfl, by
        rw [List.nil_append]
        exact List.rel_append hshows₁ hshows₂⟩

/-- Diagnostic acknowledgements round trip: whatever `encode_diagnostic` writes is decoded, with the
original CAM as its context and room for the entries, to exactly the warning entries and then the error
entries. -/
theorem diagnostic_round_trip {N : ℕ} {e : Envelope} {warnings errors : PacketSnapshot}
    {original : RequestContext} {output output' : Bytes} {n fieldCapacity viewCapacity : ℕ}
    (hw : Built .diagnostics N warnings) (he : Built .diagnostics N errors)
    (h : (encodeDiagnosticInto e warnings errors original).run output = .ok n output')
    (hfields : warnings.fields.length + errors.fields.length ≤ fieldCapacity)
    (hviews : (diagnosticEntries .warning warnings).length + (diagnosticEntries .error errors).length ≤
      viewCapacity) :
    ∃ p, decodePacketBounded fieldCapacity viewCapacity (output'.take n) { request := some original } =
        .ok p ∧ DecodesDiagnostics e warnings errors p := by
  have hstores := encodeDiagnosticInto_stores hw.wellFormed he.wellFormed e original output
  rw [Stores.eq_def, h] at hstores
  cases hbytes : encodeDiagnostic e warnings errors original output.length with
  | error f =>
    rw [hbytes] at hstores
    cases hstores
  | ok bytes =>
    rw [hbytes] at hstores
    cases hstores
    have htake : (overwrite output 0 bytes).take bytes.length = bytes := by
      rw [overwrite, List.take_zero, List.nil_append]
      exact List.take_left
    rw [htake]
    exact decode_encodeDiagnostic hw.wellFormed he.wellFormed hbytes hfields hviews

/-- A snapshot with one diagnostic of the bandwidth. -/
def bandwidthDiagnostic (bits : UInt32) : PacketSnapshot :=
  { layout := { subtype := .diagnosticAck, cif := indicatorWords [Field.bandwidth] 0 }
    fields := [{ id := Field.bandwidth, diagnostic := bits }]
    generation := 1 }

theorem bandwidthDiagnostic_built (bits : UInt32) :
    Built .diagnostics 16 (bandwidthDiagnostic bits) := by
  have hinitial : Built .diagnostics 16 (.initial .diagnosticAck) := .initial rfl
  have hinsert : PacketBuilder.diagnostic 16 (.initial .diagnosticAck) Field.bandwidth bits =
      .ok (bandwidthDiagnostic bits) := rfl
  exact .diagnostic hinitial rfl hinsert

/-- An acknowledgement with one warning and one error about the same field. -/
theorem diagnostic_round_trip_bandwidth :
    ∃ p, decodePacketBounded 2 2
        ([100, 0, 0, 8, 0, 0, 0, 1, 0, 11, 0, 0, 0, 0, 0, 7, 32, 0, 0, 0, 32, 0, 0, 0, 128, 0, 0, 0,
          64, 0, 0, 0, 9].take 32) { request := some { cam := 0x00030000 } } = .ok p ∧
      DecodesDiagnostics { type := .command, streamId := some 1, ack := true
                           command := some { cam := 0x000b0000, messageId := 7 } }
        (bandwidthDiagnostic 0x80000000) (bandwidthDiagnostic 0x40000000) p :=
  @diagnostic_round_trip 16 _ _ _ { cam := 0x00030000 } (List.replicate 33 9) _ 32 2 2
    (bandwidthDiagnostic_built _) (bandwidthDiagnostic_built _) (by rfl) (by decide) (by decide)

end Vita.Codec
