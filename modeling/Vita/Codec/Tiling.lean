import Vita.Codec.Bounds
import Vita.Common.Tiling

/-!
# Decoded fields tile the payload

The spans of the fields of a decoded packet start right after the indicator words, stand one after the
other in the order of the indicators and end with the payload. The invariant `BodyReader.Progress` of
the traversal says this of the elements visited so far; `parseIndicators_eq_ok` gives the order of the
elements and the place where they begin.

Main results:
- `BodyReader.appendFields_progress`: what one group of fields adds to a packet;
- `decodePacketBounded_tiles`: packets of every kind.
-/

namespace Vita.Codec

open Words Checked Tiling

/-! ## The statement -/

def DiagnosticGroup.rank : DiagnosticGroup → ℕ
  | .none => 0
  | .warning => 1
  | .error => 2

/-- Warnings stand before errors, then fields by CIF ascending and bit descending, then attributes
ascending. -/
def FieldView.precedes (a b : FieldView) : Prop :=
  a.group.rank < b.group.rank ∨ a.group = b.group ∧
    (fieldBefore a.id b.id ∨ a.id = b.id ∧ a.attr.index < b.attr.index)

/-- The span has the extent its field and attribute require. A structure declares its own extent. -/
def FieldView.HasExtent (v : FieldView) : Prop :=
  match v.kind with
  | .selectors => v.bytes = []
  | .diagnostics => v.bytes.length = 4
  | .values =>
    if v.attr.base ∧ structuredField v.id then
      ∃ extent, wireStructureExtent v.id v.bytes v.timestampFormat = .ok extent ∧
        v.bytes.length = extent.bytes
    else v.bytes.length =
      if v.attr.base then (descriptor v.id).elim 0 FieldDescriptor.words * 4 else 4

/-- Where a number of groups of indicator words ends that stand one after the other from `offset`. -/
def indicatorsEnd (payload : Bytes) : ℕ → ℕ → Option ℕ
  | 0, offset => some offset
  | groups + 1, offset => (wordAt payload offset).bind fun first =>
      indicatorsEnd payload groups (offset + indicatorCount first * 4)

/-- The groups of indicators of a body: those of a diagnostic acknowledgement are the requested ones. -/
def PacketView.groups (p : PacketView) (options : DecodeOptions) : ℕ :=
  match p.bodyKind, p.envelope.envelope.command with
  | .diagnostics, some c => (groupPresent c.cam options.request 17).toNat +
      (groupPresent c.cam options.request 16).toNat
  | _, _ => 1

/-- The value and diagnostic fields, which have spans. -/
def PacketView.spans (p : PacketView) : List FieldView := p.fields.filter (·.kind ≠ .selectors)

/-- The fields of a packet tile its payload. -/
structure PacketView.Tiled (p : PacketView) (options : DecodeOptions) : Prop where
  kinds : ∀ v ∈ p.fields, v.kind = p.bodyKind
  ordered : p.fields.Pairwise FieldView.precedes
  consecutive : ∃ start, indicatorsEnd p.envelope.payload (p.groups options) 0 = some start ∧
    Tiles FieldView.position (fun v => v.bytes.length) start p.spans p.envelope.payload.length
  disjoint : p.spans.Pairwise fun v v' => v.position + v.bytes.length ≤ v'.position
  bytes : ∀ v ∈ p.spans,
    v.bytes = (p.envelope.payload.drop v.position).take v.bytes.length
  extents : ∀ v ∈ p.fields, v.HasExtent

/-! ## Visited elements -/

/-- A structure that passes its check declares its own length. -/
theorem wireStructureExtent_of_validate {id : FieldId} {bytes : Bytes}
    {binding : TimestampFormatBinding} (h : validateStructureWire id bytes binding = .ok ()) :
    ∃ extent, wireStructureExtent id bytes binding = .ok extent ∧ bytes.length = extent.bytes := by
  unfold validateStructureWire at h
  split at h
  · next hcif =>
    simp only [validateCif1Wire, bind_eq_ok, rejectIf_eq_ok] at h
    obtain ⟨extent, hextent, _, hsize, -⟩ := h
    refine ⟨extent, ?_, by omega⟩
    rw [wireStructureExtent, if_pos hcif]
    exact hextent
  · simp only [bind_eq_ok, rejectIf_eq_ok] at h
    obtain ⟨extent, hextent, _, hsize, -⟩ := h
    exact ⟨extent, hextent, by omega⟩

namespace BodyReader

variable (r : BodyReader)

/-- A view of the body: a span of the payload of the required extent. -/
structure Shows (v : FieldView) : Prop where
  kind : v.kind = r.kind
  group : v.group = r.group
  bytes : v.bytes = (r.payload.drop v.position).take v.bytes.length
  extent : v.HasExtent

/-- The state of a traversal after the elements `done`, from the views `fields`. -/
structure Progress (fields : List FieldView) (done : List (FieldId × Attribute))
    (s : WalkState (List FieldView)) : Prop where
  own : r.ownHeader ≤ s.offset
  inside : r.valuesOffset + (s.offset - r.ownHeader) ≤ r.payload.length
  visited : ∃ new, s.visited = fields ++ new ∧ new.map (fun v => (v.id, v.attr)) = done ∧
    Tiles FieldView.position (fun v => v.bytes.length) r.valuesOffset new
      (r.valuesOffset + (s.offset - r.ownHeader)) ∧ ∀ v ∈ new, r.Shows v

variable {r}

/-- A visited element becomes a view of its bytes. -/
theorem visitor_eq_ok {limits : TraversalLimits} (hkind : r.kind ≠ .selectors) {id : FieldId}
    {attr : Attribute} {offset : ℕ} {extent : FieldExtent} {fields fields' : List FieldView}
    (hextent : (r.walk limits).extent id attr offset = .ok extent)
    (h : r.visitor fields { field := id, attr, offset, bytes := extent.bytes } = .ok fields') :
    ∃ v, fields' = fields ++ [v] ∧ v.id = id ∧ v.attr = attr ∧ r.Shows v ∧
      v.position = r.valuesOffset + (offset - r.ownHeader) ∧ v.bytes.length = extent.bytes ∧
      v.position + extent.bytes ≤ r.payload.length := by
  simp only [visitor, wireOffset, bind_eq_ok, Result.decoded_eq_ok, checkedAdd_eq_ok, rejectIf_eq_ok,
    pure_eq_ok, Except.ok.injEq, subspan] at h
  obtain ⟨position, ⟨-, rfl⟩, _, hroom, bytes, hbytes, _, hcheck, _, -, rfl⟩ := h
  rw [if_pos (by omega)] at hbytes
  obtain rfl := Except.ok.inj hbytes
  have hlen : ((r.payload.drop (r.valuesOffset + (offset - r.ownHeader))).take extent.bytes).length =
      extent.bytes := by
    rw [List.length_take, List.length_drop]
    omega
  refine ⟨_, rfl, rfl, rfl, ⟨rfl, rfl, ?_, ?_⟩, rfl, hlen, by simp only; omega⟩
  · simp only [hlen]
  · unfold FieldView.HasExtent
    cases hk : r.kind with
    | selectors => exact absurd hk hkind
    | diagnostics =>
      simp only [Walk.extent, walk, hk, pure_eq_ok, Except.ok.injEq] at hextent
      exact hlen.trans (by rw [← hextent])
    | values =>
      simp only [Walk.extent, walk, hk] at hextent
      simp only [checkElement, hk, validateWireAttribute] at hcheck
      simp only
      split
      · next hbase =>
        split at hcheck
        · cases hcheck
        · rw [if_pos hbase.1, if_pos hbase.2] at hcheck
          exact wireStructureExtent_of_validate hcheck
      · next hplain => rw [hlen, r.provider_bytes hplain hextent]

/-- One step of the traversal adds one view after the ones before. -/
theorem Progress.element {limits : TraversalLimits} (hkind : r.kind ≠ .selectors)
    {fields : List FieldView} {done : List (FieldId × Attribute)} {s s' : WalkState (List FieldView)}
    {id : FieldId} {attr : Attribute} (hp : r.Progress fields done s)
    (h : (r.walk limits).element id s attr = .ok s') : r.Progress fields (done ++ [(id, attr)]) s' := by
  simp only [Walk.element, bind_eq_ok, pure_eq_ok, Except.ok.injEq, Result.decoded_eq_ok,
    checkedAdd_eq_ok] at h
  obtain ⟨extent, hextent, next, ⟨-, rfl⟩, _, -, visited, hvisit, rfl⟩ := h
  rw [Walk.visit, if_pos (.inl hkind)] at hvisit
  obtain ⟨v, rfl, rfl, rfl, hshows, hpos, hlen, hin⟩ := visitor_eq_ok hkind hextent hvisit
  obtain ⟨hown, hinside, new, hvisited, hkeys, htiles, hall⟩ := hp
  have hnext : r.valuesOffset + (s.offset + extent.bytes - r.ownHeader) =
      v.position + v.bytes.length := by omega
  refine ⟨by simp only; omega, by simp only; omega, new ++ [v], ?_, ?_, ?_, ?_⟩
  · rw [hvisited, List.append_assoc]
  · rw [List.map_append, hkeys]
    rfl
  · simp only [hnext]
    exact htiles.append (hpos ▸ Tiles.singleton rfl)
  · intro u hu
    obtain hu | hu := List.mem_append.mp hu
    · exact hall u hu
    · rw [List.mem_singleton.mp hu]
      exact hshows

/-- One group of fields: its views stand from its start on, in the order of the indicators. -/
theorem appendFields_progress {limits : TraversalLimits} (hkind : r.kind ≠ .selectors)
    {plan : IndicatorPlan} {work : ℕ} {fields : List FieldView} {a : Appended}
    (hown : r.ownHeader = indicatorCount (plan.cif 0) * 4) (hstart : r.valuesOffset ≤ r.payload.length)
    (h : appendFields r limits plan work fields = .ok a) :
    ∃ new, a.fields = fields ++ new ∧
      new.map (fun v => (v.id, v.attr)) = walkElements plan.attributes plan.selected ∧
      Tiles FieldView.position (fun v => v.bytes.length) r.valuesOffset new (r.valuesOffset + a.size) ∧
      r.valuesOffset + a.size ≤ r.payload.length ∧ ∀ v ∈ new, r.Shows v := by
  simp only [appendFields, bind_eq_ok, pure_eq_ok, Except.ok.injEq] at h
  obtain ⟨s, hrun, rfl⟩ := h
  have hprogress : r.Progress fields (walkElements plan.attributes plan.selected) s := by
    refine Walk.run_induction (r.Progress fields) ?_ (fun _ _ _ _ _ hp => hp.element hkind) hrun
    refine ⟨Nat.le_of_eq hown, ?_, [], (List.append_nil _).symm, rfl, ?_, by simp⟩
    · simp only [← hown]
      omega
    · simp only [← hown]
      show r.valuesOffset = _
      omega
  obtain ⟨hown, hinside, new, hvisited, hkeys, htiles, hall⟩ := hprogress
  exact ⟨new, hvisited, hkeys, htiles, hinside, hall⟩

end BodyReader

/-! ## The order of the indicators -/

theorem indicated_pairwise (cif : ℕ → UInt32) (i : ℕ) :
    (indicated cif i).Pairwise fun a b => fieldBefore a b := by
  unfold indicated
  rw [List.pairwise_map]
  refine List.Pairwise.filter _ ?_
  rw [List.pairwise_reverse]
  refine List.pairwise_lt_range.imp fun h => ?_
  simpa [fieldBefore] using h

theorem cif_of_mem_indicated {cif : ℕ → UInt32} {i : ℕ} {id : FieldId} (h : id ∈ indicated cif i) :
    id.cif = i := by
  unfold indicated at h
  obtain ⟨b, -, rfl⟩ := List.mem_map.mp h
  rfl

/-- The selected fields: CIF ascending, bit descending. -/
theorem selected_pairwise (cif : ℕ → UInt32) :
    ((List.range 4).flatMap (indicated cif)).Pairwise fun a b => fieldBefore a b := by
  rw [List.pairwise_flatMap]
  refine ⟨fun i _ => indicated_pairwise cif i, List.pairwise_lt_range.imp fun hij a ha b hb => ?_⟩
  simp only [fieldBefore, decide_eq_true_eq]
  left
  rw [cif_of_mem_indicated ha, cif_of_mem_indicated hb]
  exact hij

theorem selectedAttributes_pairwise (attributes : UInt32) :
    (selectedAttributes attributes).Pairwise fun a b => a.index < b.index := by
  have hall : Attribute.all.Pairwise fun a b => a.index < b.index := by decide
  exact hall.filter _

/-- The elements of a traversal of ordered fields are ordered. -/
theorem walkElements_pairwise (attributes : UInt32) {fields : List FieldId}
    (h : fields.Pairwise fun a b => fieldBefore a b) :
    (walkElements attributes fields).Pairwise fun a b =>
      fieldBefore a.1 b.1 ∨ a.1 = b.1 ∧ a.2.index < b.2.index := by
  unfold walkElements
  rw [List.pairwise_flatMap]
  refine ⟨fun id _ => ?_, h.imp fun hab a ha b hb => ?_⟩
  · rw [List.pairwise_map]
    exact (selectedAttributes_pairwise attributes).imp fun hlt => .inr ⟨rfl, hlt⟩
  · obtain ⟨_, -, rfl⟩ := List.mem_map.mp ha
    obtain ⟨_, -, rfl⟩ := List.mem_map.mp hb
    exact .inl hab

/-- Views of one group with ordered elements are ordered. -/
theorem views_pairwise {attributes : UInt32} {fields : List FieldId} {group : DiagnosticGroup}
    {views : List FieldView} (h : fields.Pairwise fun a b => fieldBefore a b)
    (hkeys : views.map (fun v => (v.id, v.attr)) = walkElements attributes fields)
    (hgroup : ∀ v ∈ views, v.group = group) : views.Pairwise FieldView.precedes := by
  have hpairs := walkElements_pairwise attributes h
  rw [← hkeys, List.pairwise_map] at hpairs
  refine hpairs.imp_of_mem fun {a b} ha hb hab => .inr ⟨?_, hab⟩
  rw [hgroup a ha, hgroup b hb]

/-! ## Indicator words -/

/-- What `parse_indicators` has read of the announced words. -/
structure CifProgress (data : Bytes) (start : ℕ) (first : UInt32) (done : List ℕ)
    (s : (ℕ → UInt32) × ℕ) : Prop where
  offset : s.2 = start + 4 + (done.filter (bit first ·)).length * 4
  inside : s.2 ≤ data.length
  first : s.1 0 = first

/-- One more indicator word is taken, or is absent. -/
theorem CifProgress.takeCif {data : Bytes} {start : ℕ} {first : UInt32} {done : List ℕ}
    {s s' : (ℕ → UInt32) × ℕ} {i : ℕ} (hi : i ≠ 0) (hp : CifProgress data start first done s)
    (h : takeCif data first s i = .ok s') : CifProgress data start first (done ++ [i]) s' := by
  unfold Codec.takeCif at h
  split at h
  · next hbit =>
    simp only [bind_eq_ok, Prod.exists, take_iff, pure_eq_ok, Except.ok.injEq] at h
    obtain ⟨v, offset, hseg, rfl⟩ := h
    have hstop := hseg.stop_eq
    refine ⟨?_, hseg.inside, ?_⟩
    · simp only [List.filter_append, List.length_append, List.filter_cons, hbit, if_true,
        List.filter_nil, List.length_singleton]
      rw [length_be32, hp.offset] at hstop
      omega
    · simp only [Function.update_of_ne hi.symm]
      exact hp.first
  · next hbit =>
    obtain rfl := Except.ok.inj h
    refine ⟨?_, hp.inside, hp.first⟩
    simp only [List.filter_append, List.filter_cons, hbit, Bool.false_eq_true, if_false,
      List.filter_nil, List.append_nil]
    exact hp.offset

/-- An accepted group of indicators: its words, and the fields they select in order. -/
structure Indicates (data : Bytes) (start : ℕ) (plan : IndicatorPlan) : Prop where
  first : wordAt data start = some (plan.cif 0)
  bytes : plan.bytes = indicatorCount (plan.cif 0) * 4
  inside : start + plan.bytes ≤ data.length
  selected : plan.selected.Pairwise fun a b => fieldBefore a b

theorem selectField_fold {capacity start : ℕ} {ids selected : List FieldId}
    (h : ids.foldlM (selectField capacity start) [] = .ok selected) : selected = ids := by
  refine foldlM_induction (fun done s => s = done) rfl ?_ h
  intro done id s s' _ hs hstep
  simp only [selectField, bind_eq_ok, pure_eq_ok, Except.ok.injEq] at hstep
  obtain ⟨_, -, _, -, rfl⟩ := hstep
  rw [hs]

/-- The plan that is parsed names the fields of the indicator words. -/
theorem parseIndicators_indicates {capacity : ℕ} {data : Bytes} {start : ℕ} {allowChange : Bool}
    {aggregate aggregate' : ℕ} {plan : IndicatorPlan}
    (h : parseIndicators capacity data start allowChange aggregate = .ok (plan, aggregate')) :
    Indicates data start plan := by
  simp only [parseIndicators, bind_eq_ok, Prod.exists, take_iff, pure_eq_ok, Except.ok.injEq,
    Prod.mk.injEq] at h
  obtain ⟨first, offset, hseg, _, -, cif, stop, hcif, attributes, -, selected, hselected, _, -, _, -,
    rfl, -⟩ := h
  have hprogress : CifProgress data start first (List.range' 1 7) (cif, stop) := by
    refine foldlM_induction (CifProgress data start first) ⟨?_, hseg.inside, ?_⟩ ?_ hcif
    · have := hseg.stop_eq
      simpa using this
    · simp
    · intro done i t t' hi hp
      refine hp.takeCif ?_
      have := List.mem_range'_1.mp hi
      omega
  have hword := (Segment.word_iff.mp hseg).1
  have hoffset := hprogress.offset
  have hfirst := hprogress.first
  simp only at hoffset hfirst
  refine ⟨?_, ?_, ?_, ?_⟩
  · simp only [hfirst, hword]
  · simp only [hfirst, indicatorCount]
    omega
  · have := hprogress.inside
    simp only at this ⊢
    omega
  · simp only [selectField_fold hselected]
    exact selected_pairwise cif

theorem Indicates.indicatorsEnd {data : Bytes} {start : ℕ} {plan : IndicatorPlan}
    (h : Indicates data start plan) (groups : ℕ) :
    indicatorsEnd data (groups + 1) start = indicatorsEnd data groups (start + plan.bytes) := by
  rw [Codec.indicatorsEnd, h.first, h.bytes]
  rfl

/-! ## Bodies -/

/-- A body with spans is tiled as soon as its views are. -/
theorem PacketView.tiled_of_spans {p : PacketView} {options : DecodeOptions} (start : ℕ)
    (hspans : p.bodyKind ≠ .selectors) (hkinds : ∀ v ∈ p.fields, v.kind = p.bodyKind)
    (hordered : p.fields.Pairwise FieldView.precedes)
    (hend : indicatorsEnd p.envelope.payload (p.groups options) 0 = some start)
    (htiles : Tiles FieldView.position (fun v => v.bytes.length) start p.fields
      p.envelope.payload.length)
    (hbytes : ∀ v ∈ p.fields, v.bytes = (p.envelope.payload.drop v.position).take v.bytes.length)
    (hextents : ∀ v ∈ p.fields, v.HasExtent) : p.Tiled options := by
  have hall : p.spans = p.fields := by
    refine List.filter_eq_self.mpr fun v hv => ?_
    simpa [hkinds v hv] using hspans
  exact ⟨hkinds, hordered, ⟨start, hend, hall ▸ htiles⟩, (hall ▸ htiles).pairwise, hall ▸ hbytes,
    hextents⟩

theorem groups_of_ne_diagnostics {p : PacketView} (options : DecodeOptions)
    (h : p.bodyKind ≠ .diagnostics) : p.groups options = 1 := by
  unfold PacketView.groups
  split <;> simp_all

/-- A values body fills the payload after its indicators. -/
theorem valuesBody_tiled {env : EnvelopeView} {plan : IndicatorPlan} {viewCapacity : ℕ}
    {options : DecodeOptions} {body : Appended} (hplan : Indicates env.payload 0 plan)
    (h : appendFields (valuesReader env plan viewCapacity) options.limits plan 0 [] = .ok body)
    (hsize : plan.bytes + body.size = env.payload.length) (change : Bool) :
    PacketView.Tiled { envelope := env, fields := body.fields, change := change } options := by
  have hinside := hplan.inside
  rw [Nat.zero_add] at hinside
  obtain ⟨new, hfields, hkeys, htiles, -, hshows⟩ := BodyReader.appendFields_progress
    (r := valuesReader env plan viewCapacity) (by simp [valuesReader]) hplan.bytes hinside h
  rw [List.nil_append] at hfields
  rw [hfields]
  refine PacketView.tiled_of_spans plan.bytes (by simp) (fun v hv => (hshows v hv).kind)
    (views_pairwise hplan.selected hkeys fun v hv => (hshows v hv).group) ?_ ?_
    (fun v hv => (hshows v hv).bytes) (fun v hv => (hshows v hv).extent)
  · rw [groups_of_ne_diagnostics options (by simp), hplan.indicatorsEnd, Nat.zero_add]
    rfl
  · simp only [← hsize]
    exact htiles

/-- The views of a selector body: no spans, in the order of the indicators. -/
theorem selectorWalk_views {viewCapacity : ℕ} {limits : TraversalLimits} {cif0 attributes : UInt32}
    {fields : List FieldId} {s : WalkState (List FieldView)}
    (h : (selectorWalk viewCapacity limits).run cif0 attributes fields 0 [] = .ok s) :
    s.visited.map (fun v => (v.id, v.attr)) = walkElements attributes fields ∧
      ∀ v ∈ s.visited, v.kind = .selectors ∧ v.group = .none ∧ v.bytes = [] := by
  refine Walk.run_induction (fun done t => t.visited.map (fun v => (v.id, v.attr)) = done ∧
    ∀ v ∈ t.visited, v.kind = .selectors ∧ v.group = .none ∧ v.bytes = []) (by simp) ?_ h
  intro done id attr t t' ⟨hkeys, hall⟩ helement
  simp only [Walk.element, Walk.visit, selectorWalk, bind_eq_ok, pure_eq_ok, Except.ok.injEq,
    if_true, or_true] at helement
  obtain ⟨extent, -, next, -, _, -, visited, ⟨_, -, rfl⟩, rfl⟩ := helement
  refine ⟨by simp [hkeys], fun v hv => ?_⟩
  obtain hv | hv := List.mem_append.mp hv
  · exact hall v hv
  · rw [List.mem_singleton.mp hv]
    exact ⟨rfl, rfl, rfl⟩

/-- The views of a body of selectors tile it. -/
theorem selectorsBody_tiled {env : EnvelopeView} {plan : IndicatorPlan} {viewCapacity : ℕ}
    {options : DecodeOptions} {s : WalkState (List FieldView)}
    (hplan : Indicates env.payload 0 plan)
    (h : (selectorWalk viewCapacity options.limits).run (plan.cif 0) plan.attributes plan.selected 0
      [] = .ok s) (hsize : plan.bytes = env.payload.length) (change : Bool) :
    PacketView.Tiled
      { envelope := env, fields := s.visited, bodyKind := .selectors, change := change } options := by
  obtain ⟨hkeys, hall⟩ := selectorWalk_views h
  have hnone : s.visited.filter (·.kind ≠ .selectors) = [] := by
    refine List.filter_eq_nil_iff.mpr fun v hv => ?_
    simp [(hall v hv).1]
  refine ⟨fun v hv => (hall v hv).1,
    views_pairwise hplan.selected hkeys fun v hv => (hall v hv).2.1, ⟨plan.bytes, ?_, ?_⟩, ?_, ?_,
    fun v hv => ?_⟩
  · rw [groups_of_ne_diagnostics options (by simp), hplan.indicatorsEnd, Nat.zero_add]
    rfl
  · simp only [PacketView.spans, hnone]
    exact hsize
  · simp only [PacketView.spans, hnone]
    exact .nil
  · simp only [PacketView.spans, hnone]
    simp
  · simp only [FieldView.HasExtent, (hall v hv).1]
    exact (hall v hv).2.2

/-! ## Diagnostic bodies -/

/-- The indicators of a group, when it is there, begin at `offset` and end at `stop`. -/
structure GroupIndicates (data : Bytes) (present : Bool) (plan : Option IndicatorPlan)
    (offset stop : ℕ) : Prop where
  plans : ∀ p ∈ plan, p.bytes = indicatorCount (p.cif 0) * 4 ∧
    p.selected.Pairwise fun a b => fieldBefore a b
  inside : stop ≤ data.length
  indicatorsEnd : ∀ groups, indicatorsEnd data (present.toNat + groups) offset =
    indicatorsEnd data groups stop

/-- The plan of a group names the fields of its own indicator words. -/
theorem parseGroup_indicates {present : Bool} {capacity : ℕ} {data : Bytes} {offset selected : ℕ}
    {plan : Option IndicatorPlan} {stop selected' : ℕ} (hoff : offset ≤ data.length)
    (h : parseGroup present capacity data offset selected = .ok (plan, stop, selected')) :
    GroupIndicates data present plan offset stop := by
  unfold parseGroup at h
  split at h
  · next hpresent =>
    simp only [bind_eq_ok, Prod.exists, pure_eq_ok, Except.ok.injEq, Prod.mk.injEq] at h
    obtain ⟨p, _, hparse, rfl, rfl, -⟩ := h
    have hp := parseIndicators_indicates hparse
    refine ⟨fun q hq => ?_, hp.inside, fun groups => ?_⟩
    · obtain rfl := Option.some.inj hq
      exact ⟨hp.bytes, hp.selected⟩
    · rw [hpresent, Bool.toNat_true, Nat.add_comm, hp.indicatorsEnd]
  · next habsent =>
    simp only [pure_eq_ok, Except.ok.injEq, Prod.mk.injEq] at h
    obtain ⟨rfl, rfl, -⟩ := h
    refine ⟨by simp, hoff, fun groups => ?_⟩
    rw [Bool.eq_false_iff.mpr habsent, Bool.toNat_false, Nat.zero_add]

/-- The words of a group, when it is there, stand from `offset` to `stop`. -/
structure GroupViews (env : EnvelopeView) (group : DiagnosticGroup) (views : List FieldView)
    (offset stop : ℕ) : Prop where
  tiles : Tiles FieldView.position (fun v => v.bytes.length) offset views stop
  inside : stop ≤ env.payload.length
  ordered : views.Pairwise FieldView.precedes
  kind : ∀ v ∈ views, v.kind = .diagnostics
  group : ∀ v ∈ views, v.group = group
  bytes : ∀ v ∈ views, v.bytes = (env.payload.drop v.position).take v.bytes.length
  extent : ∀ v ∈ views, v.HasExtent

/-- The views of a group follow those before it. -/
theorem appendGroup_views {env : EnvelopeView} {viewCapacity : ℕ} {limits : TraversalLimits}
    {group : DiagnosticGroup} {plan : Option IndicatorPlan} {offset work : ℕ}
    {fields fields' : List FieldView} {stop work' : ℕ} (hoff : offset ≤ env.payload.length)
    (hplans : ∀ p ∈ plan, p.bytes = indicatorCount (p.cif 0) * 4 ∧
      p.selected.Pairwise fun a b => fieldBefore a b)
    (h : appendGroup env viewCapacity limits group plan offset work fields =
      .ok (fields', stop, work')) :
    ∃ new, fields' = fields ++ new ∧ GroupViews env group new offset stop := by
  cases plan with
  | none =>
    simp only [appendGroup, pure_eq_ok, Except.ok.injEq, Prod.mk.injEq] at h
    obtain ⟨rfl, rfl, -⟩ := h
    exact ⟨[], (List.append_nil _).symm, rfl, hoff, .nil, by simp, by simp, by simp, by simp⟩
  | some p =>
    simp only [appendGroup, bind_eq_ok, pure_eq_ok, Except.ok.injEq, Prod.mk.injEq] at h
    obtain ⟨body, hbody, rfl, rfl, -⟩ := h
    obtain ⟨hbytes, hsorted⟩ := hplans p rfl
    obtain ⟨new, hfields, hkeys, htiles, hin, hshows⟩ := BodyReader.appendFields_progress
      (r := diagnosticReader env group p offset viewCapacity) (by simp [diagnosticReader]) hbytes hoff
      hbody
    exact ⟨new, hfields, htiles, hin,
      views_pairwise hsorted hkeys fun v hv => (hshows v hv).group, fun v hv => (hshows v hv).kind,
      fun v hv => (hshows v hv).group, fun v hv => (hshows v hv).bytes,
      fun v hv => (hshows v hv).extent⟩

/-- The views of both groups of diagnostics tile the payload. -/
theorem decodeDiagnostics_tiled {fieldCapacity viewCapacity : ℕ} {env : EnvelopeView} {c : Command}
    {options : DecodeOptions} {p : PacketView} (hc : env.envelope.command = some c)
    (h : decodeDiagnostics fieldCapacity viewCapacity env (groupPresent c.cam options.request 17)
      (groupPresent c.cam options.request 16) options = .ok p) :
    p.envelope = env ∧ p.Tiled options := by
  simp only [decodeDiagnostics, bind_eq_ok, Prod.exists, rejectIf_eq_ok, ne_eq, Decidable.not_not,
    pure_eq_ok, Except.ok.injEq] at h
  obtain ⟨warnings, o₁, n₁, hwarnings, errors, o₂, n₂, herrors, f₁, o₃, w₁, hf₁, f₂, o₄, w₂, hf₂, _,
    hsize, rfl⟩ := h
  have hw := parseGroup_indicates (Nat.zero_le _) hwarnings
  have he := parseGroup_indicates hw.inside herrors
  obtain ⟨new₁, hnew₁, hv₁⟩ := appendGroup_views he.inside hw.plans hf₁
  obtain ⟨new₂, hnew₂, hv₂⟩ := appendGroup_views hv₁.inside he.plans hf₂
  subst hsize
  have hfields : f₂ = new₁ ++ new₂ := by rw [hnew₂, hnew₁, List.nil_append]
  subst hfields
  have hboth : ∀ (P : FieldView → Prop), (∀ v ∈ new₁, P v) → (∀ v ∈ new₂, P v) →
      ∀ v ∈ new₁ ++ new₂, P v := by
    intro P h₁ h₂ v hv
    obtain hv | hv := List.mem_append.mp hv
    · exact h₁ v hv
    · exact h₂ v hv
  refine ⟨rfl, PacketView.tiled_of_spans o₂ (by simp) (hboth _ hv₁.kind hv₂.kind) ?_ ?_
    (hv₁.tiles.append hv₂.tiles) (hboth _ hv₁.bytes hv₂.bytes) (hboth _ hv₁.extent hv₂.extent)⟩
  · refine List.pairwise_append.mpr ⟨hv₁.ordered, hv₂.ordered, fun a ha b hb => .inl ?_⟩
    rw [hv₁.group a ha, hv₂.group b hb]
    decide
  · simp only [PacketView.groups, hc]
    rw [hw.indicatorsEnd, ← Nat.add_zero (Bool.toNat _), he.indicatorsEnd]
    rfl

/-! ## Packets -/

/-- The views of a body that is decoded tile it. -/
theorem decodeBody_tiled {fieldCapacity viewCapacity : ℕ} {env : EnvelopeView}
    {options : DecodeOptions} {p : PacketView}
    (h : decodeBody fieldCapacity viewCapacity env options = .ok p) (hopen : ¬p.isOpaque) :
    p.envelope = env ∧ p.Tiled options := by
  unfold decodeBody at h
  simp only at h
  split at h
  · obtain rfl := Except.ok.inj h
    exact absurd rfl hopen
  · split at h
    · simp only [decodeContext, bind_eq_ok, Prod.exists, rejectIf_eq_ok, ne_eq, Decidable.not_not,
        pure_eq_ok, Except.ok.injEq] at h
      obtain ⟨plan, _, hplan, body, hbody, _, hsize, rfl⟩ := h
      exact ⟨rfl, valuesBody_tiled (parseIndicators_indicates hplan) hbody hsize plan.change⟩
    · split at h
      · cases h
      · next c hc =>
        unfold decodeCommandBody at h
        split at h
        · unfold decodeCommand at h
          simp only [bind_eq_ok, Prod.exists] at h
          obtain ⟨plan, _, hplan, h⟩ := h
          split at h
          · simp only [bind_eq_ok, rejectIf_eq_ok, ne_eq, Decidable.not_not, pure_eq_ok,
              Except.ok.injEq] at h
            obtain ⟨s, hrun, _, hsize, rfl⟩ := h
            exact ⟨rfl, selectorsBody_tiled (parseIndicators_indicates hplan) hrun hsize plan.change⟩
          · simp only [bind_eq_ok, rejectIf_eq_ok, ne_eq, Decidable.not_not, pure_eq_ok,
              Except.ok.injEq] at h
            obtain ⟨body, hbody, _, hsize, rfl⟩ := h
            exact ⟨rfl, valuesBody_tiled (parseIndicators_indicates hplan) hbody hsize plan.change⟩
        · split at h
          · obtain rfl := Except.ok.inj h
            exact absurd rfl hopen
          · exact decodeDiagnostics_tiled hc h

/-- Decoding never reads outside the input, and the fields of every packet it accepts with a body
tile the payload. -/
theorem decodePacketBounded_tiles (fieldCapacity viewCapacity : ℕ) (wire : Bytes)
    (options : DecodeOptions) :
    decodePacketBounded fieldCapacity viewCapacity wire options ≠ .error .outside ∧
    ∀ p, decodePacketBounded fieldCapacity viewCapacity wire options = .ok p → ¬p.isOpaque →
      decodeEnvelope wire = .ok p.envelope ∧ p.Tiled options := by
  refine ⟨inside_decodePacketBounded fieldCapacity viewCapacity wire options, fun p h hopen => ?_⟩
  simp only [decodePacketBounded, bind_eq_ok] at h
  obtain ⟨env, henv, _, -, h⟩ := h
  obtain ⟨rfl, htiled⟩ := decodeBody_tiled h hopen
  exact ⟨henv, htiled⟩

/-- A Context packet with an over-range count and a Sample Rate. -/
def contextWire : Bytes :=
  putWords [0x40000006, 1, 0x00600000, 7, 0, 0x00100000]

/-- A Context packet of two fields. -/
theorem decodePacketBounded_tiles_contextWire :
    ∃ p, decodePacketBounded 16 64 contextWire {} = .ok p ∧ ¬p.isOpaque ∧ p.fields.length = 2 ∧
      p.Tiled {} := by
  have hrun : ∃ p, decodePacketBounded 16 64 contextWire {} = .ok p ∧
      (¬p.isOpaque ∧ p.fields.length = 2) := by
    have hdec : (match decodePacketBounded 16 64 contextWire {} with
        | .ok p => decide (¬p.isOpaque ∧ p.fields.length = 2)
        | .error _ => false) = true := by decide +kernel
    split at hdec
    · next p hp => exact ⟨p, hp, of_decide_eq_true hdec⟩
    · cases hdec
  obtain ⟨p, hp, hopen, hlen⟩ := hrun
  exact ⟨p, hp, hopen, hlen, ((decodePacketBounded_tiles 16 64 contextWire {}).2 p hp hopen).2⟩

end Vita.Codec
