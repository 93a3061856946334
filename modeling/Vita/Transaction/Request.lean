import Vita.Codec.Packet
import Vita.Transaction.Cam

/-!
# Requests and acknowledgements (`transaction/engine.hpp`, `transaction/outcomes.hpp`)

A request lists the fields of a decoded command, each once, with the requested value and whether an
attribute of it is not supported. `requestFrom` refuses fields outside the state and more fields than
a plan can hold.
-/

namespace Vita.Transaction

open Checked Timing State Codec

structure RequestField where
  id : FieldId
  value : SemanticValue := .word 0
  unsupportedAttributes : Bool := false
  attributes : UInt32 := 0

structure Request where
  envelope : Envelope := {}
  cam : Cam := {}
  fields : List RequestField := []
  capabilityQuery : Bool := false

namespace Request

def count (r : Request) : ℕ := r.fields.length

/-- The field at a position of the request's arrays. -/
def field (r : Request) (i : ℕ) : RequestField := r.fields.getD i { id := ⟨0, 0⟩ }

def has (r : Request) (id : FieldId) : Bool := ∃ f ∈ r.fields, f.id = id

/-- The frequency requested for a field. -/
def hertz (r : Request) (id : FieldId) : Option ℤ :=
  (r.fields.find? (·.id = id)).bind fun f => asHertz f.value

/-- The request is for the one field `id` with the value `v`. -/
def isOnly (r : Request) (id : FieldId) (v : UInt32) : Bool :=
  r.fields.length = 1 ∧ (r.field 0).id = id ∧ (r.field 0).value = .word v

/-- Change the entry of a field. -/
def modify (r : Request) (id : FieldId) (f : RequestField → RequestField) : Request :=
  { r with fields := r.fields.map fun x => if x.id = id then f x else x }

end Request

/-- A reader's result, for values that were checked when their packet was decoded. -/
def readResult {α : Type} : Decoded α → Result α
  | .ok a => .ok a
  | .error (.error e) => .error e
  | .error .outside => .error (failure .shortInput)

/-- `placeholder`: the value with all bits clear. -/
def placeholder (id : FieldId) : SemanticValue :=
  match descriptor id with
  | none => .word 0
  | some d =>
    if structuredField id then .word 0
    else match readScalar d (List.replicate (d.words * 4) 0) with
      | .ok v => v
      | .error _ => .word 0

/-- The number of fields a request may have. -/
def fieldLimit (profile : Profile) (cam : Cam) : ℕ :=
  if profile = .sdrRadio ∧ cam.action = 0 then 5 else 4

/-- The entry of a field, new if the request does not have it yet. -/
def addField (profile : Profile) (r : Request) (id : FieldId) : Result Request :=
  if r.has id then return r
  else do
    rejectIf (r.count = fieldLimit profile r.cam) (failure .resourceLimit)
    return { r with fields := r.fields ++ [{ id, value := placeholder id }] }

/-- One view of the packet. -/
def addView (profile : Profile) (r : Request) (view : FieldView) : Result Request := do
  rejectIf (fieldIndex view.id = none) (failure .unsupportedCapability)
  let r ← addField profile r view.id
  let r := r.modify view.id fun f =>
    { f with attributes := f.attributes ||| view.attr.bit
             unsupportedAttributes := f.unsupportedAttributes ∨ profile = .sdrRadio ∧
               ¬sdrCapabilityField view.id ∧ view.id ≠ Field.discreteIO32 }
  if profile = .sdrRadio ∧ r.cam.action = 0 ∧ view.kind = .selectors ∧
      (view.attr = .minimum ∨ view.attr = .maximum) then
    return { r.modify view.id fun f =>
        { f with unsupportedAttributes := f.unsupportedAttributes ∨ ¬sdrCapabilityField view.id } with
      capabilityQuery := true }
  else if view.attr ≠ .current ∨ view.id = Field.rfReferenceFrequency ∧
      profile ≠ .iqFrequencyTunable ∧ profile ≠ .sdrRadio then
    return r.modify view.id fun f => { f with unsupportedAttributes := true }
  else if view.kind = .values then
    let value ← readResult view.value
    return r.modify view.id fun f => { f with value }
  else return r

/-- What a radio requires of the envelope of a command. -/
def sdrEnvelope (packet : PacketView) : Bool :=
  let e := packet.envelope.envelope
  e.classId.isNone ∧ (∃ sid ∈ e.streamId, 1 ≤ sid ∧ sid ≤ 4) ∧ e.timestamp.tsi = .utc ∧
    e.timestamp.tsf = .picoseconds ∧ (∃ c ∈ e.command, c.messageId ≠ 0) ∧
    packet.envelope.wire.length ≤ 1024

def requestFrom (packet : PacketView) (profile : Profile) : Result Request := do
  let cam ← Cam.parse packet.envelope.envelope profile
  rejectIf (profile = .sdrRadio ∧ ¬sdrEnvelope packet) (failure .unsupportedCapability)
  let r ← packet.fields.foldlM (addView profile) { envelope := packet.envelope.envelope, cam }
  rejectIf (profile = .sdrRadio ∧ r.count = 0) (failure .invalidArgument)
  let required := Attribute.minimum.bit ||| Attribute.maximum.bit
  if r.capabilityQuery then
    return { r with fields := r.fields.map fun f =>
      { f with unsupportedAttributes := f.unsupportedAttributes ∨ f.attributes ≠ required } }
  else return r

/-! ## Acknowledgements -/

structure AckRecord where
  request : Envelope := {}
  cam : Cam := {}
  kind : AckKind := .validation
  diagnostics : Fin 8 → Diagnostics := fun _ => {}
  state : StateSnapshot := {}
  selectedMask : Fin 8 → Bool := fun _ => false
  partialResult : Bool := false
  scheduledOrExecuted : Bool := false
  hypothetical : Bool := false
  timeKnown : Bool := false
  timing : ℕ := 0
  time : ProtocolTime := {}
  epoch : Tsi := .none
  cancellation : Bool := false
  sdrCapabilities : Option SdrCapabilities := none

def AckRecord.summary (ack : AckRecord) : Diagnostics :=
  (List.finRange 8).foldl
    (fun d i => { warnings := d.warnings ||| (ack.diagnostics i).warnings
                  errors := d.errors ||| (ack.diagnostics i).errors }) {}

/-- The time system of a clock, as an envelope names it. -/
def epochTsi : Epoch → Tsi
  | .gps => .gps
  | .utc => .utc
  | .other => .other

/-! ## Fields of a request -/

/-- The fields of a request are distinct state fields, and a plan can hold them. -/
structure Request.WellFormed (profile : Profile) (r : Request) : Prop where
  nodup : (r.fields.map RequestField.id).Nodup
  state : ∀ f ∈ r.fields, (fieldIndex f.id).isSome
  count_le : r.count ≤ fieldLimit profile r.cam

section WellFormed

variable {profile : Profile} {r r' : Request}

/-- A field that is added leaves the request well formed. -/
theorem addField_wellFormed {id : FieldId} (hr : r.WellFormed profile)
    (hid : (fieldIndex id).isSome) (h : addField profile r id = .ok r') : r'.WellFormed profile := by
  unfold addField at h
  split at h
  · obtain rfl := Except.ok.inj h
    exact hr
  · next hnew =>
    simp only [bind_eq_ok, rejectIf_eq_ok, pure_eq_ok, Except.ok.injEq] at h
    obtain ⟨_, hlimit, rfl⟩ := h
    simp only [Request.has, decide_eq_true_eq, not_exists, not_and] at hnew
    refine ⟨?_, ?_, ?_⟩
    · rw [List.map_append, List.nodup_append]
      refine ⟨hr.nodup, by simp, ?_⟩
      intro a ha b hb
      obtain ⟨f, hf, rfl⟩ := List.mem_map.mp ha
      obtain rfl : b = id := by simpa using hb
      exact hnew f hf
    · intro f hf
      obtain hf | hf := List.mem_append.mp hf
      · exact hr.state f hf
      · obtain rfl := List.mem_singleton.mp hf
        exact hid
    · have hle := hr.count_le
      simp only [Request.count, List.length_append, List.length_singleton] at hle hlimit ⊢
      omega

theorem map_id_modify (r : Request) (id : FieldId) {f : RequestField → RequestField}
    (hf : ∀ x, (f x).id = x.id) :
    (r.modify id f).fields.map RequestField.id = r.fields.map RequestField.id := by
  simp only [Request.modify, List.map_map]
  refine List.map_congr_left fun x _ => ?_
  simp only [Function.comp]
  split
  · exact hf x
  · rfl

/-- The form of a request is decided by its ids. -/
theorem Request.WellFormed.of_ids (hr : r.WellFormed profile) (hcam : r'.cam = r.cam)
    (h : r'.fields.map RequestField.id = r.fields.map RequestField.id) : r'.WellFormed profile := by
  refine ⟨h ▸ hr.nodup, fun f hf => ?_, ?_⟩
  · have hmem : f.id ∈ r.fields.map RequestField.id := h ▸ List.mem_map_of_mem hf
    obtain ⟨g, hg, hid⟩ := List.mem_map.mp hmem
    rw [← hid]
    exact hr.state g hg
  · have hlen := congrArg List.length h
    rw [List.length_map, List.length_map] at hlen
    rw [hcam, Request.count, hlen]
    exact hr.count_le

/-- A view that is added keeps a request well formed. -/
theorem addView_wellFormed {view : FieldView} (hr : r.WellFormed profile)
    (h : addView profile r view = .ok r') : r'.WellFormed profile := by
  simp only [addView, bind_eq_ok, rejectIf_eq_ok] at h
  obtain ⟨_, hid, r₁, hadd, h⟩ := h
  have hadded := addField_wellFormed hr (Option.isSome_iff_ne_none.mpr hid) hadd
  split at h
  · simp only [pure_eq_ok, Except.ok.injEq] at h
    subst h
    refine hadded.of_ids rfl ?_
    rw [map_id_modify, map_id_modify] <;> exact fun _ => rfl
  · split at h
    · simp only [pure_eq_ok, Except.ok.injEq] at h
      subst h
      refine hadded.of_ids rfl ?_
      rw [map_id_modify, map_id_modify] <;> exact fun _ => rfl
    · split at h
      · simp only [bind_eq_ok, pure_eq_ok, Except.ok.injEq] at h
        obtain ⟨_, -, rfl⟩ := h
        refine hadded.of_ids rfl ?_
        rw [map_id_modify, map_id_modify] <;> exact fun _ => rfl
      · simp only [pure_eq_ok, Except.ok.injEq] at h
        subst h
        refine hadded.of_ids rfl ?_
        rw [map_id_modify]
        exact fun _ => rfl

/-- The fields of an accepted request are distinct state fields. -/
theorem requestFrom_wellFormed {packet : PacketView} (h : requestFrom packet profile = .ok r) :
    r.WellFormed profile := by
  simp only [requestFrom, bind_eq_ok] at h
  obtain ⟨cam, -, _, -, r₁, hfold, _, -, h⟩ := h
  have hr : r₁.WellFormed profile := by
    refine foldlM_induction (fun _ r => r.WellFormed profile) ⟨List.nodup_nil, by simp, Nat.zero_le _⟩
      ?_ hfold
    intro _ view _ _ _ hr hstep
    exact addView_wellFormed hr hstep
  split at h
  · simp only [pure_eq_ok, Except.ok.injEq] at h
    subst h
    refine hr.of_ids rfl ?_
    rw [List.map_map]
    rfl
  · simp only [pure_eq_ok, Except.ok.injEq] at h
    exact h ▸ hr

/-- The fields of a request are told apart by their identifiers. -/
theorem Request.WellFormed.field_injective (hr : r.WellFormed profile) {i j : ℕ} (hi : i < r.count)
    (hj : j < r.count) (h : (r.field i).id = (r.field j).id) : i = j := by
  have hget : ∀ k < r.count, (r.fields.map RequestField.id)[k]? = some (r.field k).id := by
    intro k hk
    rw [List.getElem?_map, Request.field, List.getD_eq_getElem?_getD, List.getElem?_eq_getElem hk]
    rfl
  have hlen : i < (r.fields.map RequestField.id).length := by
    rw [List.length_map]
    exact hi
  exact (List.getElem?_inj hlen hr.nodup).mp (by rw [hget i hi, hget j hj, h])

end WellFormed

end Vita.Transaction
