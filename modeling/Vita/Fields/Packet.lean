import Vita.Fields.Structured

/-!
# Packet snapshots and their builder (`fields/packet.hpp`)

A snapshot holds the selected fields in indicator order, their values by attribute, and the indicator
words computed from them. `PacketBuilder` edits a snapshot as a whole: an operation either returns the
new snapshot or leaves the old one. The native arena is not modelled as storage: a slice is the object
it holds (`SemanticValue.native`), so the arena's own capacity never refuses a value here.

* `Built.wellFormed`: the fields of every snapshot the builder can produce are in strict indicator
  order, their native values belong to their fields, and the indicator words are the ones computed
  from the fields and the attribute mask.
-/

namespace Vita

open Checked

inductive BodyKind where
  | values | selectors | diagnostics
deriving DecidableEq, Repr

inductive PacketSubtype where
  | signal | context | control | query | cancel | diagnosticAck | stateAck
deriving DecidableEq, Repr

/-- `LayoutContext`; its packet family is not read by any modelled function. -/
structure LayoutContext where
  timestampFormat : TimestampFormatBinding := {}
  subtype : PacketSubtype := .context
  action : ℕ := 0
  packetClass : UInt16 := 0
  cif : ℕ → UInt32 := fun _ => 0
  attributes : UInt32 := 0

structure FieldEntry where
  id : FieldId
  values : Attribute → Option SemanticValue := fun _ => none
  diagnostic : UInt32 := 0

structure PacketSnapshot where
  layout : LayoutContext := {}
  fields : List FieldEntry := []
  generation : ℕ := 0

/-- The last generation of a builder. -/
def generationMax : ℕ := 2 ^ 64 - 1

/-! ## Indicator words -/

/-- One field's contribution: its own bit, and the presence bit of its CIF word. -/
def markIndicator (cif : ℕ → UInt32) (id : FieldId) : ℕ → UInt32 := fun i =>
  (if i = id.cif then cif i ||| (1 : UInt32) <<< UInt32.ofNat id.bit else cif i) |||
    (if i = 0 ∧ id.cif ≠ 0 then (1 : UInt32) <<< UInt32.ofNat id.cif else 0)

/-- `indicators`: the words for a list of fields and an attribute mask. -/
def indicatorWords (ids : List FieldId) (attributes : UInt32) : ℕ → UInt32 :=
  let cif := ids.foldl markIndicator fun _ => 0
  if attributes ≠ 0 then
    fun i => if i = 0 then cif 0 ||| (1 : UInt32) <<< 7 else if i = 7 then attributes else cif i
  else cif

def PacketSnapshot.ids (s : PacketSnapshot) : List FieldId := s.fields.map FieldEntry.id

/-- The snapshot with its indicator words computed again. -/
def PacketSnapshot.reindex (s : PacketSnapshot) : PacketSnapshot :=
  { s with layout := { s.layout with cif := indicatorWords s.ids s.layout.attributes } }

/-! ## Editing -/

/-- Put an entry at its place in indicator order, over an entry of the same field if there is one. -/
def placeEntry (entry : FieldEntry) : List FieldEntry → List FieldEntry
  | [] => [entry]
  | e :: rest =>
    if fieldBefore e.id entry.id then e :: placeEntry entry rest
    else if e.id = entry.id then entry :: rest
    else entry :: e :: rest

def hasField (fields : List FieldEntry) (id : FieldId) : Bool := fields.any (·.id = id)

/-- The entry at the place of a field in indicator order is an entry of that field. -/
def foundAt (fields : List FieldEntry) (id : FieldId) : Bool :=
  match fields.dropWhile fun e => fieldBefore e.id id with
  | e :: _ => e.id = id
  | [] => false

namespace PacketBuilder

/-- `insert`, for a builder of `capacity` fields. -/
def insert (capacity : ℕ) (s : PacketSnapshot) (entry : FieldEntry) (replace : Bool) :
    Result PacketSnapshot := do
  rejectIf (¬validFieldSelector entry.id) (failure .invalidArgument)
  let found := foundAt s.fields entry.id
  rejectIf (replace ∧ ¬found) (failure .invalidArgument)
  rejectIf (¬found ∧ s.fields.length = capacity) (failure .capacityExhausted)
  rejectIf (s.generation = generationMax) (failure .overflow)
  return { s with fields := placeEntry entry s.fields, generation := s.generation + 1 }.reindex

/-- `set_value`, for builders of values. -/
def setValue (capacity : ℕ) (s : PacketSnapshot) (id : FieldId) (value : SemanticValue)
    (replace : Bool) : Result PacketSnapshot := do
  validateValue id value true
  rejectIf (s.layout.attributes ≠ 0 ∧ s.layout.attributes ≠ Attribute.current.bit)
    (failure .invalidArgument)
  insert capacity s { id, values := fun a => if a = .current then some value else none } replace

/-- `select`, for builders of selectors. -/
def select (capacity : ℕ) (s : PacketSnapshot) (id : FieldId) : Result PacketSnapshot :=
  insert capacity s { id } false

/-- `diagnostic`, for builders of diagnostics. -/
def diagnostic (capacity : ℕ) (s : PacketSnapshot) (id : FieldId) (bits : UInt32) :
    Result PacketSnapshot :=
  insert capacity s { id, diagnostic := bits } false

def remove (s : PacketSnapshot) (id : FieldId) : Result PacketSnapshot := do
  rejectIf (¬hasField s.fields id) (failure .invalidArgument)
  rejectIf (s.generation = generationMax) (failure .overflow)
  return { s with fields := s.fields.eraseP (·.id = id), generation := s.generation + 1 }.reindex

/-- An input of `with_attributes` and its variants: a scalar or a structure to be copied. -/
structure AttributeInput where
  field : FieldId
  attr : Attribute
  value : SemanticValue

/-- `append_native`: the checks on a structure before it is copied into the arena. -/
def checkNative (sentence : Bytes → Result Unit) (binding : TimestampFormatBinding) (id : FieldId)
    (attr : Attribute) (v : NativeValue) : Result Unit := do
  rejectIf (¬(v.matches id ∧ attr.base)) (failure .invalidArgument)
  match v with
  | .gpsAscii a => rejectIf (a.text.length > 2 ^ 32 - 1) (failure .overflow)
  | _ => return ()
  validateNativeAttribute sentence v (attr = .current)
  match v with
  | .duration d =>
    rejectIf (binding.bound ∧ (binding.tsi ≠ d.tsi ∨ binding.tsf ≠ d.tsf)) (failure .invalidArgument)
  | .sectors v =>
    rejectIf (Words.bit v.selectors 22 ∧ binding.bound ∧
      (binding.tsi ≠ v.startFormat.tsi ∨ binding.tsf ≠ v.startFormat.tsf)) (failure .invalidArgument)
  | _ => return ()

/-- The value an edit stores for one selected attribute of a field: the supplied one, or the one the
field had before. -/
def editValue (sentence : Bytes → Result Unit) (binding : TimestampFormatBinding)
    (supplied : List AttributeInput) (old : Option FieldEntry) (id : FieldId) (attr : Attribute) :
    Result SemanticValue := do
  match supplied.find? fun i => i.field = id ∧ i.attr = attr with
  | some input =>
    match input.value with
    | .native v => checkNative sentence binding id attr v
    | v => validateAttributeValue id attr v
    return input.value
  | none =>
    match old.bind (·.values attr) with
    | none => throw (failure .invalidArgument)
    | some value =>
      match value with
      | .native _ => return value
      | v => validateAttributeValue id attr v
      return value

/-- The entry an edit stores for one field. -/
def editEntry (kind : BodyKind) (sentence : Bytes → Result Unit) (binding : TimestampFormatBinding)
    (mask : UInt32) (supplied : List AttributeInput) (old : Option FieldEntry) (entry : FieldEntry) :
    Result FieldEntry := do
  rejectIf (descriptor entry.id = none) (failure .unsupportedLayout)
  if kind = .values then
    let stored ← (selectedAttributes mask).mapM fun a => do
      let v ← editValue sentence binding supplied old entry.id a
      return (a, v)
    return { entry with values := fun a => stored.lookup a }
  else return { entry with values := fun _ => none }

/-- The fields of an edit, with the added one at its place. -/
def addField (capacity : ℕ) (kept : List FieldEntry) : Option FieldId → Result (List FieldEntry)
  | none => return kept
  | some id => do
    rejectIf (descriptor id = none) (failure .unsupportedLayout)
    rejectIf (¬foundAt kept id ∧ kept.length = capacity) (failure .capacityExhausted)
    return if foundAt kept id then kept else placeEntry { id } kept

/-- `edit`: replace the attribute mask and the values of all fields, adding `added` if it is new. -/
def edit (kind : BodyKind) (capacity : ℕ) (sentence : Bytes → Result Unit) (s : PacketSnapshot)
    (mask : UInt32) (supplied : List AttributeInput) (added : Option FieldId) :
    Result PacketSnapshot := do
  rejectIf (mask &&& ~~~allAttributes ≠ 0 ∨ supplied.length > capacity * 13) (failure .invalidArgument)
  rejectIf (s.generation = generationMax) (failure .overflow)
  rejectIf (kind ≠ .values ∧ supplied ≠ []) (failure .invalidArgument)
  let kept := s.fields.map fun e => { id := e.id, diagnostic := e.diagnostic : FieldEntry }
  let fields ← addField capacity kept added
  rejectIf (∃ i ∈ supplied, ¬i.attr.selectedBy (effectiveAttributes mask) ∨
    ¬hasField fields i.field) (failure .invalidArgument)
  rejectIf (¬(supplied.map fun i => (i.field, i.attr)).Nodup) (failure .invalidArgument)
  let entries ← fields.mapM fun e =>
    editEntry kind sentence s.layout.timestampFormat mask supplied
      (s.fields.find? (·.id = e.id)) e
  return { s with layout := { s.layout with attributes := mask }, fields := entries,
                  generation := s.generation + 1 }.reindex

def configure (s : PacketSnapshot) (packetClass : UInt16) (action : ℕ) : Result PacketSnapshot := do
  let subtype := s.layout.subtype
  rejectIf (action > 2 ∨ subtype = .query ∧ action ≠ 0 ∨ subtype = .cancel ∧ action ≠ 2 ∨
    subtype = .control ∧ action = 0 ∨ (subtype = .context ∨ subtype = .signal) ∧ action ≠ 0)
    (failure .invalidArgument)
  rejectIf (s.generation = generationMax) (failure .overflow)
  return { s with layout := { s.layout with packetClass, action }, generation := s.generation + 1 }

/-- `native_timestamp_binding`: the timestamp format a structure is tied to. -/
def nativeTimestampBinding : NativeValue → Option TimestampFormatBinding
  | .duration v => some { tsi := v.tsi, tsf := v.tsf, bound := true }
  | .sectors v => if Words.bit v.selectors 22 then some v.startFormat else none
  | _ => none

/-- The formats the base values of the temporal fields are tied to. -/
def requiredBindings (fields : List FieldEntry) : List TimestampFormatBinding :=
  fields.flatMap fun e => Attribute.all.filterMap fun a =>
    if a.base then
      match e.values a with
      | some (.native v) => nativeTimestampBinding v
      | _ => none
    else none

def bindTimestampFormat (s : PacketSnapshot) (tsi tsf : UInt8) : Result PacketSnapshot := do
  rejectIf (tsi > 3 ∨ tsf > 3) (failure .invalidArgument)
  rejectIf (∃ b ∈ requiredBindings s.fields, b.tsi ≠ tsi ∨ b.tsf ≠ tsf) (failure .invalidArgument)
  rejectIf (s.generation = generationMax) (failure .overflow)
  return { s with layout := { s.layout with timestampFormat := { tsi, tsf, bound := true } }
                  generation := s.generation + 1 }

end PacketBuilder

/-! ## Snapshots the builder produces -/

/-- A new builder of a kind of body. -/
def PacketSnapshot.initial (subtype : PacketSubtype) : PacketSnapshot :=
  { layout := { subtype, action := if subtype = .control ∨ subtype = .cancel then 2 else 0 } }

/-- `compatible_body`. -/
def compatibleBody (kind : BodyKind) (subtype : PacketSubtype) : Bool :=
  match subtype with
  | .query | .cancel => kind = .selectors
  | .diagnosticAck => kind = .diagnostics
  | _ => kind = .values

/-- The frozen snapshots of a builder: reached from a new builder by successful operations. Every
other editing function of the builder is one of these with particular arguments. -/
inductive Built (kind : BodyKind) (capacity : ℕ) : PacketSnapshot → Prop where
  | initial {subtype : PacketSubtype} (h : compatibleBody kind subtype) :
    Built kind capacity (.initial subtype)
  | setValue {s s' : PacketSnapshot} {id : FieldId} {v : SemanticValue} {replace : Bool}
    (hs : Built kind capacity s) (hk : kind = .values)
    (h : PacketBuilder.setValue capacity s id v replace = .ok s') : Built kind capacity s'
  | select {s s' : PacketSnapshot} {id : FieldId} (hs : Built kind capacity s)
    (hk : kind = .selectors) (h : PacketBuilder.select capacity s id = .ok s') :
    Built kind capacity s'
  | diagnostic {s s' : PacketSnapshot} {id : FieldId} {bits : UInt32} (hs : Built kind capacity s)
    (hk : kind = .diagnostics) (h : PacketBuilder.diagnostic capacity s id bits = .ok s') :
    Built kind capacity s'
  | remove {s s' : PacketSnapshot} {id : FieldId} (hs : Built kind capacity s)
    (h : PacketBuilder.remove s id = .ok s') : Built kind capacity s'
  | edit {s s' : PacketSnapshot} {sentence : Bytes → Result Unit} {mask : UInt32}
    {supplied : List PacketBuilder.AttributeInput} {added : Option FieldId}
    (hs : Built kind capacity s)
    (h : PacketBuilder.edit kind capacity sentence s mask supplied added = .ok s') :
    Built kind capacity s'
  | configure {s s' : PacketSnapshot} {packetClass : UInt16} {action : ℕ} (hs : Built kind capacity s)
    (h : PacketBuilder.configure s packetClass action = .ok s') : Built kind capacity s'
  | bindTimestampFormat {s s' : PacketSnapshot} {tsi tsf : UInt8} (hs : Built kind capacity s)
    (h : PacketBuilder.bindTimestampFormat s tsi tsf = .ok s') : Built kind capacity s'

/-- What holds of every entry of a snapshot with an attribute mask. -/
structure FieldEntry.Valid (e : FieldEntry) (attributes : UInt32) : Prop where
  selector : validFieldSelector e.id
  native : ∀ a v, e.values a = some (.native v) → v.matches e.id
  selected : ∀ a, (e.values a).isSome → a ∈ selectedAttributes attributes

/-- The invariant of a builder's snapshot. -/
structure PacketSnapshot.WellFormed (s : PacketSnapshot) : Prop where
  ordered : s.ids.Pairwise fun a b => fieldBefore a b
  entries : ∀ e ∈ s.fields, e.Valid s.layout.attributes
  attributes : s.layout.attributes &&& ~~~allAttributes = 0
  indicators : s.layout.cif = indicatorWords s.ids s.layout.attributes

/-! ### Order -/

theorem fieldBefore_trans {a b c : FieldId} (h₁ : fieldBefore a b) (h₂ : fieldBefore b c) :
    fieldBefore a c := by
  simp only [fieldBefore, decide_eq_true_eq] at *
  omega

theorem fieldBefore_of_not {a b : FieldId} (h₁ : ¬fieldBefore a b) (h₂ : a ≠ b) :
    fieldBefore b a := by
  obtain ⟨ac, ab⟩ := a
  obtain ⟨bc, bb⟩ := b
  simp only [fieldBefore, decide_eq_true_eq, ne_eq, FieldId.mk.injEq] at *
  omega

/-- An entry is placed among the others. -/
theorem mem_placeEntry {entry e : FieldEntry} {l : List FieldEntry} (h : e ∈ placeEntry entry l) :
    e = entry ∨ e ∈ l := by
  induction l with
  | nil => exact Or.inl (by simpa [placeEntry] using h)
  | cons x rest ih =>
    unfold placeEntry at h
    split at h
    · obtain rfl | h := List.mem_cons.mp h
      · exact Or.inr (List.mem_cons_self ..)
      · exact (ih h).imp_right (List.mem_cons_of_mem _)
    · split at h
      · exact (List.mem_cons.mp h).imp_right (List.mem_cons_of_mem _)
      · exact List.mem_cons.mp h

/-- An entry is placed in the order of the indicators. -/
theorem placeEntry_ordered (entry : FieldEntry) {l : List FieldEntry}
    (h : (l.map FieldEntry.id).Pairwise fun a b => fieldBefore a b) :
    ((placeEntry entry l).map FieldEntry.id).Pairwise fun a b => fieldBefore a b := by
  induction l with
  | nil => simp [placeEntry]
  | cons x rest ih =>
    simp only [List.map_cons, List.pairwise_cons] at h
    unfold placeEntry
    split
    · next hbefore =>
      simp only [List.map_cons, List.pairwise_cons]
      refine ⟨?_, ih h.2⟩
      intro id hid
      obtain ⟨e, he, rfl⟩ := List.mem_map.mp hid
      obtain rfl | he := mem_placeEntry he
      · exact hbefore
      · exact h.1 _ (List.mem_map_of_mem he)
    · next hbefore =>
      split
      · next heq =>
        simp only [List.map_cons, List.pairwise_cons]
        exact ⟨heq ▸ h.1, h.2⟩
      · next hne =>
        have hx : fieldBefore entry.id x.id := fieldBefore_of_not hbefore hne
        simp only [List.map_cons, List.pairwise_cons]
        refine ⟨?_, h⟩
        intro id hid
        obtain rfl | hid := List.mem_cons.mp hid
        · exact hx
        · exact fieldBefore_trans hx (h.1 id hid)

/-! ### Preservation -/

theorem PacketSnapshot.reindex_wellFormed {s : PacketSnapshot}
    (hord : s.ids.Pairwise fun a b => fieldBefore a b)
    (hent : ∀ e ∈ s.fields, e.Valid s.layout.attributes)
    (hattr : s.layout.attributes &&& ~~~allAttributes = 0) : s.reindex.WellFormed :=
  ⟨hord, hent, hattr, rfl⟩

/-- An insertion of the builder keeps the snapshot well formed. -/
theorem insert_wellFormed {capacity : ℕ} {s s' : PacketSnapshot} {entry : FieldEntry}
    {replace : Bool} (hs : s.WellFormed) (he : validFieldSelector entry.id →
      entry.Valid s.layout.attributes)
    (h : PacketBuilder.insert capacity s entry replace = .ok s') : s'.WellFormed := by
  simp only [PacketBuilder.insert, bind_eq_ok, rejectIf_eq_ok, pure_eq_ok, Except.ok.injEq,
    not_not] at h
  obtain ⟨-, hsel, -, -, -, -, -, -, rfl⟩ := h
  apply PacketSnapshot.reindex_wellFormed
  · exact placeEntry_ordered entry hs.ordered
  · intro e hmem
    obtain rfl | hmem := mem_placeEntry hmem
    · exact he hsel
    · exact hs.entries e hmem
  · exact hs.attributes

/-- A value that is set leaves the snapshot well formed. -/
theorem setValue_wellFormed {capacity : ℕ} {s s' : PacketSnapshot} {id : FieldId}
    {v : SemanticValue} {replace : Bool} (hs : s.WellFormed)
    (h : PacketBuilder.setValue capacity s id v replace = .ok s') : s'.WellFormed := by
  simp only [PacketBuilder.setValue, bind_eq_ok, rejectIf_eq_ok] at h
  obtain ⟨_, hv, _, hattr, h⟩ := h
  have hcurrent : .current ∈ selectedAttributes s.layout.attributes := by
    have hcases : s.layout.attributes = 0 ∨ s.layout.attributes = Attribute.current.bit := by
      simpa only [ne_eq, not_and_or, not_not] using hattr
    obtain h | h := hcases <;> rw [h] <;> decide
  refine insert_wellFormed hs (fun hsel => ⟨hsel, ?_, ?_⟩) h
  · intro a w hw
    have hw' : v = .native w := by
      by_cases ha : a = .current <;> simp [ha] at hw
      exact hw
    simp only [validateValue, bind_eq_ok, rejectIf_eq_ok] at hv
    exact absurd (congrArg SemanticValue.kind hw') hv.choose_spec.1
  · intro a ha
    by_cases hc : a = .current
    · exact hc ▸ hcurrent
    · simp [hc] at ha

theorem remove_wellFormed {s s' : PacketSnapshot} {id : FieldId} (hs : s.WellFormed)
    (h : PacketBuilder.remove s id = .ok s') : s'.WellFormed := by
  simp only [PacketBuilder.remove, bind_eq_ok, rejectIf_eq_ok, pure_eq_ok, Except.ok.injEq] at h
  obtain ⟨-, -, -, -, rfl⟩ := h
  have hsub : (s.fields.eraseP (·.id = id)).Sublist s.fields := List.eraseP_sublist
  apply PacketSnapshot.reindex_wellFormed
  · exact hs.ordered.sublist (hsub.map _)
  · exact fun e he => hs.entries e (hsub.subset he)
  · exact hs.attributes

/-- A value an edit stores belongs to its field. -/
theorem editValue_native {sentence : Bytes → Result Unit} {binding : TimestampFormatBinding}
    {supplied : List PacketBuilder.AttributeInput} {old : Option FieldEntry} {id : FieldId}
    {attr : Attribute} {value : SemanticValue} (hold : ∀ e ∈ old, ∀ a v,
      e.values a = some (.native v) → v.matches id)
    (h : PacketBuilder.editValue sentence binding supplied old id attr = .ok value) :
    ∀ v, value = .native v → v.matches id := by
  rintro v rfl
  unfold PacketBuilder.editValue at h
  split at h
  · next input _ =>
    split at h
    · next w hw =>
      simp only [bind_eq_ok, pure_eq_ok, Except.ok.injEq] at h
      obtain ⟨_, hcheck, heq⟩ := h
      rw [hw] at heq
      cases heq
      simp only [PacketBuilder.checkNative, bind_eq_ok, rejectIf_eq_ok, not_not] at hcheck
      obtain ⟨_, hm, -⟩ := hcheck
      exact hm.1
    · next hne =>
      simp only [bind_eq_ok, pure_eq_ok, Except.ok.injEq] at h
      exact absurd h.choose_spec.2 (hne v)
  · split at h
    · cases h
    · next stored hstored =>
      have hv : stored = .native v := by
        split at h
        · simpa using h
        · simp only [bind_eq_ok, pure_eq_ok, Except.ok.injEq] at h
          exact h.choose_spec.2
      obtain ⟨e, he, hval⟩ := Option.bind_eq_some_iff.mp hstored
      exact hold e he attr v (hv ▸ hval)

/-- What `editEntry` keeps and stores. -/
theorem editEntry_valid {kind : BodyKind} {sentence : Bytes → Result Unit}
    {binding : TimestampFormatBinding} {mask : UInt32}
    {supplied : List PacketBuilder.AttributeInput} {old : Option FieldEntry} {e e' : FieldEntry}
    (hold : ∀ o ∈ old, ∀ a v, o.values a = some (.native v) → v.matches e.id)
    (h : PacketBuilder.editEntry kind sentence binding mask supplied old e = .ok e') :
    e'.id = e.id ∧ e'.Valid mask := by
  simp only [PacketBuilder.editEntry, bind_eq_ok, rejectIf_eq_ok] at h
  obtain ⟨_, hd, h⟩ := h
  obtain ⟨d, hd⟩ := Option.ne_none_iff_exists'.mp hd
  have hsel := validFieldSelector_of_descriptor hd
  split at h
  · simp only [bind_eq_ok, pure_eq_ok, Except.ok.injEq] at h
    obtain ⟨stored, hstored, rfl⟩ := h
    have hmem : ∀ a v, stored.lookup a = some v → a ∈ selectedAttributes mask ∧
        PacketBuilder.editValue sentence binding supplied old e.id a = .ok v := by
      intro a v hlookup
      obtain ⟨pre, post, hsplit, -⟩ := List.lookup_eq_some_iff.mp hlookup
      have hin : (a, v) ∈ stored := by
        rw [hsplit]
        exact List.mem_append_right _ (List.mem_cons_self ..)
      obtain ⟨a', ha', h'⟩ := exists_of_mem_mapM hstored hin
      simp only [bind_eq_ok, Except.ok.injEq] at h'
      obtain ⟨v', hv', heq⟩ := h'
      cases heq
      exact ⟨ha', hv'⟩
    refine ⟨rfl, hsel, ?_, ?_⟩
    · intro a v hv
      exact editValue_native hold (hmem a _ hv).2 v rfl
    · intro a ha
      obtain ⟨v, hv⟩ := Option.isSome_iff_exists.mp ha
      exact (hmem a v hv).1
  · simp only [pure_eq_ok, Except.ok.injEq] at h
    subst h
    exact ⟨rfl, hsel, by simp, by simp⟩

/-- An edit that is accepted leaves the snapshot well formed. -/
theorem edit_wellFormed {kind : BodyKind} {capacity : ℕ} {sentence : Bytes → Result Unit}
    {s s' : PacketSnapshot} {mask : UInt32} {supplied : List PacketBuilder.AttributeInput}
    {added : Option FieldId} (hs : s.WellFormed)
    (h : PacketBuilder.edit kind capacity sentence s mask supplied added = .ok s') :
    s'.WellFormed := by
  simp only [PacketBuilder.edit, bind_eq_ok, rejectIf_eq_ok, pure_eq_ok, Except.ok.injEq] at h
  obtain ⟨_, hmask, _, -, _, -, fields, hfields, _, -, _, -, entries, hentries, rfl⟩ := h
  have hkept : ((s.fields.map fun e => ({ id := e.id, diagnostic := e.diagnostic } : FieldEntry)).map
      FieldEntry.id).Pairwise fun a b => fieldBefore a b := by
    rw [List.map_map]
    exact hs.ordered
  have hord : (fields.map FieldEntry.id).Pairwise fun a b => fieldBefore a b := by
    cases added with
    | none =>
      simp only [PacketBuilder.addField, pure_eq_ok, Except.ok.injEq] at hfields
      exact hfields ▸ hkept
    | some id =>
      simp only [PacketBuilder.addField, bind_eq_ok, rejectIf_eq_ok, pure_eq_ok,
        Except.ok.injEq] at hfields
      obtain ⟨_, -, _, -, rfl⟩ := hfields
      split
      · exact hkept
      · exact placeEntry_ordered _ hkept
  -- an edited entry keeps its field, and its native values come from that field's old entry
  have hold : ∀ e : FieldEntry, ∀ o ∈ s.fields.find? (·.id = e.id), ∀ a v,
      o.values a = some (.native v) → v.matches e.id := by
    intro e o ho a v hv
    have hid : o.id = e.id := by simpa using List.find?_some ho
    rw [← hid]
    exact (hs.entries o (List.mem_of_find?_eq_some ho)).native a v hv
  have hids : entries.map FieldEntry.id = fields.map FieldEntry.id := by
    have hall := mapM_eq_ok.mp hentries
    clear hentries hord hfields
    induction hall with
    | nil => rfl
    | cons hab _ ih =>
      rw [List.map_cons, List.map_cons, ih, (editEntry_valid (hold _) hab).1]
  apply PacketSnapshot.reindex_wellFormed
  · show (entries.map FieldEntry.id).Pairwise _
    rw [hids]
    exact hord
  · intro e he
    obtain ⟨a, -, ha⟩ := exists_of_mem_mapM hentries he
    exact (editEntry_valid (hold a) ha).2
  · have hparts := not_or.mp hmask
    exact not_not.mp hparts.1

/-- Every snapshot of a builder is well formed. -/
theorem Built.wellFormed {kind : BodyKind} {capacity : ℕ} {s : PacketSnapshot}
    (h : Built kind capacity s) : s.WellFormed := by
  induction h with
  | initial =>
    exact ⟨List.Pairwise.nil, by simp [PacketSnapshot.initial], UInt32.zero_and, rfl⟩
  | setValue _ _ h ih => exact setValue_wellFormed ih h
  | select _ _ h ih => exact insert_wellFormed ih (fun hsel => ⟨hsel, by simp, by simp⟩) h
  | diagnostic _ _ h ih => exact insert_wellFormed ih (fun hsel => ⟨hsel, by simp, by simp⟩) h
  | remove _ h ih => exact remove_wellFormed ih h
  | edit _ h ih => exact edit_wellFormed ih h
  | configure _ h ih =>
    simp only [PacketBuilder.configure, bind_eq_ok, rejectIf_eq_ok, pure_eq_ok, Except.ok.injEq] at h
    obtain ⟨_, -, _, -, rfl⟩ := h
    exact ⟨ih.ordered, ih.entries, ih.attributes, ih.indicators⟩
  | bindTimestampFormat _ h ih =>
    simp only [PacketBuilder.bindTimestampFormat, bind_eq_ok, rejectIf_eq_ok, pure_eq_ok,
      Except.ok.injEq] at h
    obtain ⟨_, -, _, -, _, -, rfl⟩ := h
    exact ⟨ih.ordered, ih.entries, ih.attributes, ih.indicators⟩

/-- Only builders of values store values. -/
theorem Built.values_none {kind : BodyKind} {capacity : ℕ} {s : PacketSnapshot}
    (h : Built kind capacity s) (hkind : kind ≠ .values) :
    ∀ e ∈ s.fields, ∀ a, e.values a = none := by
  have hinsert : ∀ {s s' : PacketSnapshot} {id : FieldId} {d : UInt32},
      (∀ e ∈ s.fields, ∀ a, e.values a = none) →
        PacketBuilder.insert capacity s { id, diagnostic := d } false = .ok s' →
          ∀ e ∈ s'.fields, ∀ a, e.values a = none := by
    intro s s' id d ih h e he a
    simp only [PacketBuilder.insert, bind_eq_ok, rejectIf_eq_ok, pure_eq_ok, Except.ok.injEq] at h
    obtain ⟨_, -, _, -, _, -, _, -, rfl⟩ := h
    obtain rfl | he := mem_placeEntry he
    · rfl
    · exact ih e he a
  induction h with
  | initial =>
    intro e he
    cases he
  | setValue _ hk _ _ => exact absurd hk hkind
  | select _ _ h ih => exact hinsert ih h
  | diagnostic _ _ h ih => exact hinsert ih h
  | remove _ h ih =>
    simp only [PacketBuilder.remove, bind_eq_ok, rejectIf_eq_ok, pure_eq_ok, Except.ok.injEq] at h
    obtain ⟨-, -, -, -, rfl⟩ := h
    exact fun e he => ih e (List.mem_of_mem_eraseP he)
  | edit _ h ih =>
    simp only [PacketBuilder.edit, bind_eq_ok, rejectIf_eq_ok, pure_eq_ok, Except.ok.injEq] at h
    obtain ⟨_, -, _, -, _, -, fields, -, _, -, _, -, entries, hentries, rfl⟩ := h
    intro e he a
    obtain ⟨x, -, hx⟩ := exists_of_mem_mapM hentries he
    simp only [PacketBuilder.editEntry, if_neg hkind, bind_eq_ok, pure_eq_ok, Except.ok.injEq] at hx
    obtain ⟨_, -, rfl⟩ := hx
    rfl
  | configure _ h ih =>
    simp only [PacketBuilder.configure, bind_eq_ok, rejectIf_eq_ok, pure_eq_ok, Except.ok.injEq] at h
    obtain ⟨_, -, _, -, rfl⟩ := h
    exact ih
  | bindTimestampFormat _ h ih =>
    simp only [PacketBuilder.bindTimestampFormat, bind_eq_ok, rejectIf_eq_ok, pure_eq_ok,
      Except.ok.injEq] at h
    obtain ⟨_, -, _, -, _, -, rfl⟩ := h
    exact ih

end Vita
