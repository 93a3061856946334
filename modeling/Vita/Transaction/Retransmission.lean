import Vita.Codec.Tiling
import Vita.Transaction.ControllerTheorems

/-!
# Answers that come again

An answer that was taken in once may come again, before the deadline or behind it. What it says has not
changed, but whether it is late may have: a state answer is compared without that, a capability answer
with it, and an observation of a late answer has a slot of its own.

Main results:
- `Record.Answered.receive_again`: what the second copy of an answer does to the record;
- `Registry.Sound.run_keeps`: a record that is retained keeps what was learnt of its command;
- `Registry.retransmission_iff`: when the second copy changes nothing.
-/

namespace Vita.Transaction.Controller

open Checked Timing State Codec ControllerObserver

/-! ## Captured answers -/

/-- The observation of an answer that was late, or was not. -/
def StateObservation.withLate (late : Bool) (x : StateObservation) : StateObservation := { x with late }

def CapabilityObservation.withLate (late : Bool) (x : CapabilityObservation) : CapabilityObservation :=
  { x with late }

/-- A loop that carries a change along. -/
theorem foldlM_map {α β : Type} {f : β → α → Result β} {g : β → β}
    (h : ∀ b a, f (g b) a = g <$> f b a) (xs : List α) (b : β) :
    xs.foldlM f (g b) = g <$> xs.foldlM f b := by
  induction xs generalizing b with
  | nil => rfl
  | cons a rest ih =>
    rw [List.foldlM_cons, List.foldlM_cons, h]
    rcases f b a with err | b'
    · rfl
    · exact ih b'

namespace Record

variable {r r' : Record} {c : Bool} {now : ℕ}

/-- The late mark does not change what is captured. -/
theorem captureField_withLate (mask : Fin 8 → Bool) (late : Bool) (out : StateObservation)
    (field : FieldView) :
    captureField mask (out.withLate late) field =
      StateObservation.withLate late <$> captureField mask out field := by
  unfold captureField
  rcases fieldIndex field.id with _ | index
  · rfl
  · dsimp only
    rw [map_bind]
    refine bind_congr fun _ => ?_
    rw [map_bind]
    refine bind_congr fun _ => ?_
    rfl

/-- A state answer says the same of a record later on, but for how late it is. -/
theorem captureState_kept (h : Kept r r') (hc : c → r.cancelRegistered) (packet : PacketView) :
    captureState packet r' c =
      StateObservation.withLate (r'.observer.isLate c) <$> captureState packet r c := by
  have hmask : r'.fieldMask c = r.fieldMask c := by
    cases c with
    | false => exact h.requestedFields
    | true => exact (h.cancellation (hc rfl)).2.2
  have hprofile : r'.profile = r.profile := by
    unfold profile
    rw [h.sdrProfile, h.request]
  unfold captureState
  dsimp only
  rw [map_bind, hmask, hprofile]
  refine bind_congr fun _ => ?_
  rw [← foldlM_map (captureField_withLate (r.fieldMask c) (r'.observer.isLate c))]
  rfl

theorem sameState_withLate (late : Bool) (a b : StateObservation) :
    sameState a (b.withLate late) = sameState a b := rfl

theorem sameState_refl (a : StateObservation) : sameState a a := by
  simp [sameState]

/-- The ranges so far of an answer that is late, or is not. -/
def Ranges.withLate (late : Bool) (s : Ranges) : Ranges := { s with out := s.out.withLate late }

theorem assign_withLate (late : Bool) (out : CapabilityObservation) (id : FieldId) (isMinimum : Bool)
    (value : SemanticValue) :
    assign (out.withLate late) id isMinimum value =
      (assign out id isMinimum value).map (CapabilityObservation.withLate late) := by
  unfold assign
  repeat' split
  all_goals rfl

/-- The late mark does not change what is captured. -/
theorem captureRange_withLate (mask : Fin 8 → Bool) (late : Bool) (s : Ranges) (field : FieldView) :
    captureRange mask (s.withLate late) field = Ranges.withLate late <$> captureRange mask s field := by
  unfold captureRange
  rcases fieldIndex field.id with _ | index
  · rfl
  · dsimp only
    rw [map_bind]
    refine bind_congr fun _ => ?_
    rw [map_bind]
    refine bind_congr fun value => ?_
    have hassign := assign_withLate late s.out field.id (field.attr = .minimum) value
    simp only [Ranges.withLate, hassign]
    rcases assign s.out field.id (field.attr = .minimum) value with _ | out
    · rfl
    · dsimp only [Option.map_some]
      split <;> rfl

/-- A capability answer says the same of a record later on, but for how late it is. -/
theorem captureCapabilities_kept (h : Kept r r') (packet : PacketView) :
    captureCapabilities packet r' =
      CapabilityObservation.withLate r'.observer.timedOut <$> captureCapabilities packet r := by
  have hfold := foldlM_map (captureRange_withLate r.requestedFields r'.observer.timedOut) packet.fields
    { out := { timestamp := packet.envelope.envelope.timestamp, late := r.observer.timedOut } }
  unfold captureCapabilities
  rw [h.requestedFields, map_bind]
  refine Eq.trans (congrArg (· >>= _) hfold) ?_
  rcases packet.fields.foldlM (captureRange r.requestedFields)
    { out := { timestamp := packet.envelope.envelope.timestamp, late := r.observer.timedOut } } with err | s
  · rfl
  · show (do
      rejectIf _ _
      pure _ : Result CapabilityObservation) = _ <$> (do
      rejectIf _ _
      pure _ : Result CapabilityObservation)
    rw [map_bind]
    rfl

/-- What two capability answers agree on, but for how late they were. -/
def sameRanges (a b : CapabilityObservation) : Bool := sameCapabilities (a.withLate b.late) b

theorem sameCapabilities_iff {a b : CapabilityObservation} :
    sameCapabilities a b ↔ sameRanges a b ∧ a.late = b.late := by
  simp only [sameRanges, sameCapabilities, CapabilityObservation.withLate, decide_eq_true_eq]
  tauto

theorem sameRanges_withLate (late : Bool) (a b : CapabilityObservation) :
    sameRanges a (b.withLate late) = sameRanges a b := by
  simp [sameRanges, sameCapabilities, CapabilityObservation.withLate]

theorem sameRanges_refl (a : CapabilityObservation) : sameRanges a a := by
  simp [sameRanges, sameCapabilities, CapabilityObservation.withLate]

/-! ## Answers that were taken in -/

/-- A phase is late once a deadline that has passed is noted. -/
def lateAt (r : Record) (cancellation : Bool) (now : ℕ) : Bool :=
  r.observer.isLate cancellation ∨ r.active cancellation ∧ now ≥ r.limit cancellation

theorem isLate_afterDeadline (r : Record) (c : Bool) (now : ℕ) :
    (r.afterDeadline c now).observer.isLate c = r.lateAt c now := by
  unfold afterDeadline lateAt
  by_cases hdue : r.active c ∧ now ≥ r.limit c
  · rw [if_pos hdue]
    simp [hdue]
  · rw [if_neg hdue]
    simp [hdue]

/-- The answer is one to a capability query. -/
def AsksCapabilities (r : Record) (cancel : Bool) (cam : UInt32) : Prop :=
  Words.bit cam 18 ∧ r.capabilityQuery ∧ ¬cancel

/-- The record has taken the answer in: it is stored what it says, and how it was recorded. -/
structure Answered (r : Record) (wire : Bytes) (e : Envelope) (cam : UInt32) (parsed : PacketView)
    (event : Observation) : Prop where
  matched : r.matchAnswer wire e cam = .ok parsed
  envelope : parsed.envelope.envelope = e
  registered : e.cancel → r.cancelRegistered
  observed : observe false r.observer.messageId parsed = .ok event
  recorded : ∃ late : Bool, (late → r.observer.isLate e.cancel) ∧
    ∃ o, entry (behind late event) r.observer.history = some o ∧
      (o = behind late event ∨ o.contradictory)
  capabilities : r.AsksCapabilities e.cancel cam → ∃ known captured, r.ordinaryCapabilities = some known ∧
    captureCapabilities parsed r = .ok captured ∧ sameRanges known captured
  state : Words.bit cam 18 → ¬r.AsksCapabilities e.cancel cam → ∃ known captured,
    r.stateOf e.cancel = some known ∧ captureState parsed r e.cancel = .ok captured ∧
      sameState known captured

theorem Kept.original (h : Kept r r') (hc : c → r.cancelRegistered) : r'.original c = r.original c := by
  cases c with
  | false =>
    show (r'.request.command.getD {}).cam = _
    rw [h.request]
    rfl
  | true => exact (h.cancellation (hc rfl)).2.1

theorem Kept.stateOf (h : Kept r r') {x : StateObservation} (hx : r.stateOf c = some x) :
    r'.stateOf c = some x := by
  cases c with
  | false => exact h.ordinaryState x hx
  | true => exact h.cancelState x hx

theorem Kept.matchAnswer (h : Kept r r') {wire : Bytes} {e : Envelope} {cam : UInt32}
    (hregistered : e.cancel → r.cancelRegistered) :
    r'.matchAnswer wire e cam = r.matchAnswer wire e cam := by
  have hregistered' : (e.cancel ∧ ¬r'.cancelRegistered) = (e.cancel ∧ ¬r.cancelRegistered) := by
    refine propext ⟨fun hc => ?_, fun hc => ?_⟩
    · exact absurd (h.cancellation (hregistered hc.1)).1 hc.2
    · exact absurd (hregistered hc.1) hc.2
  unfold Record.matchAnswer
  simp only [h.request, hregistered', h.original hregistered]

theorem Kept.asksCapabilities (h : Kept r r') {cam : UInt32} :
    r'.AsksCapabilities c cam ↔ r.AsksCapabilities c cam := by
  unfold AsksCapabilities
  rw [h.capabilityQuery]

/-- What was answered stays so while the record is kept. -/
theorem Answered.kept {wire : Bytes} {e : Envelope} {cam : UInt32} {parsed : PacketView}
    {event : Observation} (ha : r.Answered wire e cam parsed event) (h : Kept r r') :
    r'.Answered wire e cam parsed event where
  matched := (h.matchAnswer ha.registered).trans ha.matched
  envelope := ha.envelope
  registered hc := (h.cancellation (ha.registered hc)).1
  observed := by
    rw [h.observer.messageId]
    exact ha.observed
  recorded := by
    obtain ⟨late, hlate, o, ho, heq⟩ := ha.recorded
    obtain ⟨o', ho', heq'⟩ := h.observer.kept _ o ho
    refine ⟨late, fun hl => h.observer.late _ (hlate hl), o', ho', ?_⟩
    rcases heq' with rfl | hcontradictory
    · exact heq
    · exact .inr hcontradictory
  capabilities hasks := by
    obtain ⟨known, captured, hknown, hcaptured, hsame⟩ :=
      ha.capabilities (h.asksCapabilities.mp hasks)
    refine ⟨known, captured.withLate r'.observer.timedOut, h.capabilities known hknown, ?_, ?_⟩
    · rw [captureCapabilities_kept h, hcaptured]
      rfl
    · rw [sameRanges_withLate]
      exact hsame
  state hbit hasks := by
    obtain ⟨known, captured, hknown, hcaptured, hsame⟩ :=
      ha.state hbit fun hc => hasks (h.asksCapabilities.mpr hc)
    refine ⟨known, captured.withLate (r'.observer.isLate e.cancel), h.stateOf hknown, ?_, ?_⟩
    · rw [captureState_kept h ha.registered, hcaptured]
      rfl
    · rw [sameState_withLate]
      exact hsame

/-! ## The first copy -/

theorem concluded_fields (r : Record) (c : Bool) (now : ℕ) :
    (r.concluded c now).observer = r.observer ∧ (r.concluded c now).ordinaryState = r.ordinaryState ∧
      (r.concluded c now).cancelState = r.cancelState ∧
      (r.concluded c now).ordinaryCapabilities = r.ordinaryCapabilities := by
  unfold concluded
  dsimp only
  split
  · cases c <;> exact ⟨rfl, rfl, rfl, rfl⟩
  · exact ⟨rfl, rfl, rfl, rfl⟩

/-- What an answer that is taken in stores. -/
theorem accepted_fields (r : Record) (c : Bool) (cam : UInt32) (now : ℕ)
    (captured : Option StateObservation × Option CapabilityObservation) (observer : ControllerObserver) :
    (r.accepted c cam now captured observer).observer = observer ∧
      (r.accepted c cam now captured observer).stateOf c = (r.stateOf c).or captured.1 ∧
      (r.accepted c cam now captured observer).stateOf (!c) = r.stateOf (!c) ∧
      (r.accepted c cam now captured observer).ordinaryCapabilities =
        r.ordinaryCapabilities.or captured.2 := by
  obtain ⟨hobserver, hordinary, hcancel, hcapabilities⟩ :=
    concluded_fields (({ r with observer }.store c captured).markSeen c cam) c now
  refine ⟨?_, ?_, ?_, ?_⟩
  · refine hobserver.trans ?_
    cases c <;> rfl
  · cases c
    · exact hordinary
    · exact hcancel
  · cases c
    · exact hcancel
    · exact hordinary
  · refine hcapabilities.trans ?_
    cases c <;> rfl

/-- What is known after an answer was captured is what it says. -/
theorem capture_known {cam : UInt32} {parsed : PacketView}
    {captured : Option StateObservation × Option CapabilityObservation}
    (h : r.capture c cam parsed = .ok captured) :
    (r.AsksCapabilities c cam → ∃ known x, captureCapabilities parsed r = .ok x ∧
      r.ordinaryCapabilities.or captured.2 = some known ∧ sameRanges known x) ∧
    (Words.bit cam 18 → ¬r.AsksCapabilities c cam → ∃ known x, captureState parsed r c = .ok x ∧
      (r.stateOf c).or captured.1 = some known ∧ sameState known x) := by
  unfold capture at h
  by_cases hasks : r.AsksCapabilities c cam
  · rw [if_pos (show Words.bit cam 18 ∧ r.capabilityQuery ∧ ¬c from hasks)] at h
    simp only [bind_eq_ok, rejectIf_eq_ok, pure_eq_ok, Except.ok.injEq] at h
    obtain ⟨x, hx, _, hagree, rfl⟩ := h
    refine ⟨fun _ => ?_, fun _ hnot => absurd hasks hnot⟩
    rcases hknown : r.ordinaryCapabilities with _ | known
    · exact ⟨x, x, hx, rfl, sameRanges_refl x⟩
    · refine ⟨known, x, hx, rfl, ?_⟩
      by_contra hdiffer
      refine hagree ⟨known, hknown, fun hsame => hdiffer ?_⟩
      exact (sameCapabilities_iff.mp hsame).1
  · rw [if_neg (show ¬(Words.bit cam 18 ∧ r.capabilityQuery ∧ ¬c) from hasks)] at h
    refine ⟨fun hc => absurd hc hasks, fun hbit _ => ?_⟩
    rw [if_pos hbit] at h
    simp only [bind_eq_ok, rejectIf_eq_ok, pure_eq_ok, Except.ok.injEq] at h
    obtain ⟨x, hx, _, hagree, rfl⟩ := h
    rcases hknown : r.stateOf c with _ | known
    · exact ⟨x, x, hx, rfl, sameState_refl x⟩
    · refine ⟨known, x, hx, rfl, ?_⟩
      by_contra hdiffer
      exact hagree ⟨known, hknown, hdiffer⟩

/-- An answer that is matched has the frame of its wire. -/
theorem matchAnswer_eq_ok {wire : Bytes} {framing : EnvelopeView} {cam : UInt32} {parsed : PacketView}
    (hframing : decodeEnvelope wire = .ok framing)
    (h : r.matchAnswer wire framing.envelope cam = .ok parsed) (hopen : ¬parsed.isOpaque) :
    (framing.envelope.cancel → r.cancelRegistered) ∧ parsed.envelope = framing := by
  unfold matchAnswer at h
  simp only [bind_eq_ok, rejectIf_eq_ok, readResult_eq_ok] at h
  obtain ⟨_, -, _, hregistered, _, -, _, -, hdecode⟩ := h
  refine ⟨fun hc => ?_, ?_⟩
  · by_contra hnot
    exact hregistered ⟨hc, hnot⟩
  · simp only [decodePacketBounded, bind_eq_ok, hframing, Except.ok.injEq] at hdecode
    obtain ⟨_, rfl, _, -, hbody⟩ := hdecode
    exact (decodeBody_tiled hbody hopen).1

theorem observe_open {messageId : UInt32} {response : PacketView} {event : Observation}
    (h : observe false messageId response = .ok event) : ¬response.isOpaque := by
  unfold observe at h
  dsimp only at h
  split at h
  · cases h
  · simp only [bind_eq_ok, rejectIf_eq_ok, pure_eq_ok, Except.ok.injEq] at h
    obtain ⟨_, hcheck, -⟩ := h
    tauto

/-- An answer that is taken in. -/
theorem Sound.answered (h : r.Sound) {wire : Bytes} {framing : EnvelopeView} {cam : UInt32}
    (hframing : decodeEnvelope wire = .ok framing)
    (hok : (r.receive wire framing.envelope cam now).1 = .ok ()) :
    ∃ parsed event,
      (r.receive wire framing.envelope cam now).2.Answered wire framing.envelope cam parsed event := by
  have hkept := (h.receive wire framing.envelope cam now).kept
  rcases receive_cases h wire framing.envelope cam now with ⟨err, heq⟩ | ⟨err, heq⟩ |
    ⟨parsed, captured, observer, hmatch, hcapture, hobserver, heq⟩
  · rw [heq] at hok
    cases hok
  · rw [heq] at hok
    cases hok
  · rw [heq] at hkept ⊢
    dsimp only at hkept ⊢
    have hreceive := readResult_eq_ok.mp hobserver
    obtain ⟨event, hevent, hrecord⟩ := receive_eq_ok.mp hreceive
    obtain ⟨hregistered, rfl⟩ := matchAnswer_eq_ok hframing hmatch (observe_open hevent)
    have hdue := afterDeadline_kept r parsed.envelope.envelope.cancel now
    have hextends := ((h.afterDeadline parsed.envelope.envelope.cancel now).observer.receive hreceive).2
    have hlater := accepted_kept (r.afterDeadline parsed.envelope.envelope.cancel now)
      parsed.envelope.envelope.cancel cam now captured hextends
    obtain ⟨hstored, hstate, -, hcapabilities⟩ := accepted_fields
      (r.afterDeadline parsed.envelope.envelope.cancel now) parsed.envelope.envelope.cancel cam now
      captured observer
    obtain ⟨hranges, hstates⟩ := capture_known hcapture
    have hregistered' (hc : parsed.envelope.envelope.cancel) :
        (r.afterDeadline parsed.envelope.envelope.cancel now).cancelRegistered :=
      (hdue.cancellation (hregistered hc)).1
    generalize r.afterDeadline parsed.envelope.envelope.cancel now = due at *
    generalize due.accepted parsed.envelope.envelope.cancel cam now captured observer = r' at *
    refine ⟨parsed, event, ?_⟩
    constructor
    case matched => exact (hkept.matchAnswer hregistered).trans hmatch
    case envelope => rfl
    case registered => exact fun hc => (hkept.cancellation (hregistered hc)).1
    case observed =>
      rw [hlater.observer.messageId]
      exact hevent
    case recorded =>
      refine ⟨due.observer.isLate parsed.envelope.envelope.cancel,
        hlater.observer.late parsed.envelope.envelope.cancel, ?_⟩
      rw [hstored, hrecord]
      exact entry_record due.observer _
    case capabilities =>
      intro hasks
      obtain ⟨known, x, hx, hknown, hsame⟩ := hranges (hlater.asksCapabilities.mp hasks)
      refine ⟨known, x.withLate r'.observer.timedOut, hcapabilities.trans hknown, ?_, ?_⟩
      · rw [captureCapabilities_kept hlater, hx]
        rfl
      · rw [sameRanges_withLate]
        exact hsame
    case state =>
      intro hbit hasks
      obtain ⟨known, x, hx, hknown, hsame⟩ :=
        hstates hbit fun hc => hasks (hlater.asksCapabilities.mpr hc)
      refine ⟨known, x.withLate (r'.observer.isLate parsed.envelope.envelope.cancel),
        hstate.trans hknown, ?_, ?_⟩
      · rw [captureState_kept hlater hregistered', hx]
        rfl
      · rw [sameState_withLate]
        exact hsame

/-! ## The second copy -/

/-- A capability answer that was not late then and is late now, or the other way round. -/
def Stale (r : Record) (cancel : Bool) (cam : UInt32) (now : ℕ) : Prop :=
  r.AsksCapabilities cancel cam ∧ ∃ known ∈ r.ordinaryCapabilities, known.late ≠ r.lateAt cancel now

theorem captured_late {packet : PacketView} {x : CapabilityObservation}
    (h : captureCapabilities packet r = .ok x) : x.late = r.observer.timedOut := by
  have hkept := captureCapabilities_kept (Kept.refl r) packet
  rw [h] at hkept
  exact congrArg CapabilityObservation.late (Except.ok.inj hkept)

/-- What was captured before is captured again, unless it is a capability answer whose lateness has
changed. -/
theorem Answered.capture_again {wire : Bytes} {e : Envelope} {cam : UInt32} {parsed : PacketView}
    {event : Observation} (ha : r.Answered wire e cam parsed event) :
    ((r.AsksCapabilities e.cancel cam ∧
        ∃ known ∈ r.ordinaryCapabilities, known.late ≠ r.observer.isLate e.cancel) ∧
      ∃ err, r.capture e.cancel cam parsed = .error err) ∨
    (¬(r.AsksCapabilities e.cancel cam ∧
        ∃ known ∈ r.ordinaryCapabilities, known.late ≠ r.observer.isLate e.cancel) ∧
      ∃ captured, r.capture e.cancel cam parsed = .ok captured ∧
        (r.stateOf e.cancel).or captured.1 = r.stateOf e.cancel ∧
        r.ordinaryCapabilities.or captured.2 = r.ordinaryCapabilities) := by
  unfold capture
  by_cases hasks : r.AsksCapabilities e.cancel cam
  · obtain ⟨known, x, hknown, hx, hsame⟩ := ha.capabilities hasks
    have hcancel : e.cancel = false := by simpa using hasks.2.2
    have hlate : x.late = r.observer.isLate e.cancel := by
      rw [captured_late hx, hcancel]
      rfl
    rw [if_pos (show Words.bit cam 18 ∧ r.capabilityQuery ∧ ¬e.cancel from hasks), hx, ok_bind]
    by_cases hstale : known.late = x.late
    · refine .inr ⟨?_, (none, some x), ?_, ?_, ?_⟩
      · rintro ⟨-, other, hother, hne⟩
        rw [hknown] at hother
        cases hother
        exact hne (hstale.trans hlate)
      · rw [rejectIf_of_not]
        · rfl
        · rintro ⟨other, hother, hne⟩
          rw [hknown] at hother
          cases hother
          exact hne (sameCapabilities_iff.mpr ⟨hsame, hstale⟩)
      · exact Option.or_none
      · rw [hknown]
        rfl
    · refine .inl ⟨⟨hasks, known, hknown, fun hc => hstale (hc.trans hlate.symm)⟩, ?_⟩
      rw [rejectIf_eq_error.mpr ⟨?_, rfl⟩]
      · exact ⟨_, rfl⟩
      · exact ⟨known, hknown, fun hc => hstale (sameCapabilities_iff.mp hc).2⟩
  · refine .inr ⟨fun hc => hasks hc.1, ?_⟩
    rw [if_neg (show ¬(Words.bit cam 18 ∧ r.capabilityQuery ∧ ¬e.cancel) from hasks)]
    by_cases hbit : Words.bit cam 18
    · obtain ⟨known, x, hknown, hx, hsame⟩ := ha.state hbit hasks
      rw [if_pos hbit, hx, ok_bind]
      refine ⟨(some x, none), ?_, ?_, ?_⟩
      · rw [rejectIf_of_not]
        · rfl
        · rintro ⟨other, hother, hne⟩
          rw [hknown] at hother
          cases hother
          exact hne hsame
      · rw [hknown]
        rfl
      · exact Option.or_none
    · rw [if_neg hbit]
      exact ⟨(none, none), rfl, Option.or_none, Option.or_none⟩

theorem afterDeadline_known (r : Record) (c : Bool) (now : ℕ) :
    (r.afterDeadline c now).ordinaryState = r.ordinaryState ∧
      (r.afterDeadline c now).cancelState = r.cancelState ∧
      (r.afterDeadline c now).ordinaryCapabilities = r.ordinaryCapabilities := by
  unfold afterDeadline
  split
  · cases c <;> exact ⟨rfl, rfl, rfl⟩
  · exact ⟨rfl, rfl, rfl⟩

/-- The second copy of an answer is refused if it is stale; otherwise it is recorded, and nothing else is
learnt from it. -/
theorem Answered.receive_again {wire : Bytes} {e : Envelope} {cam : UInt32} {parsed : PacketView}
    {event : Observation} (ha : r.Answered wire e cam parsed event) (h : r.Sound) (now : ℕ) :
    (r.Stale e.cancel cam now ∧ ∃ err r', r.receive wire e cam now = (.error err, r')) ∨
    (¬r.Stale e.cancel cam now ∧ ∃ r', r.receive wire e cam now = (.ok (), r') ∧
      r'.ordinaryState = r.ordinaryState ∧ r'.cancelState = r.cancelState ∧
      r'.ordinaryCapabilities = r.ordinaryCapabilities ∧
      r'.observer.history = merge (behind (r.lateAt e.cancel now) event)
        (r.afterDeadline e.cancel now).observer.history) := by
  have hkept := afterDeadline_kept r e.cancel now
  have hdue := ha.kept hkept
  have hlate := isLate_afterDeadline r e.cancel now
  have hsame := afterDeadline_known r e.cancel now
  have hobserver : readResult ((r.afterDeadline e.cancel now).observer.receive parsed) =
      .ok ((r.afterDeadline e.cancel now).observer.record (behind (r.lateAt e.cancel now) event)) := by
    rw [readResult_eq_ok, receive_eq_ok, hdue.envelope, hlate]
    exact ⟨event, hdue.observed, rfl⟩
  have hstale : r.Stale e.cancel cam now ↔ (r.afterDeadline e.cancel now).AsksCapabilities e.cancel cam ∧
      ∃ known ∈ (r.afterDeadline e.cancel now).ordinaryCapabilities,
        known.late ≠ (r.afterDeadline e.cancel now).observer.isLate e.cancel := by
    rw [Stale, hlate, hsame.2.2, hkept.asksCapabilities]
  rw [hstale]
  rw [receive_matched h ha.matched, hobserver]
  rcases hdue.capture_again with ⟨hcond, err, hcapture⟩ | ⟨hcond, captured, hcapture, hstate, hranges⟩
  · rw [hcapture]
    exact .inl ⟨hcond, err, _, rfl⟩
  · rw [hcapture]
    obtain ⟨hstored, hthis, hother, hcapabilities⟩ := accepted_fields (r.afterDeadline e.cancel now)
      e.cancel cam now captured
      ((r.afterDeadline e.cancel now).observer.record (behind (r.lateAt e.cancel now) event))
    rw [hstate] at hthis
    rw [hranges] at hcapabilities
    refine .inr ⟨hcond, _, rfl, ?_, ?_, hcapabilities.trans hsame.2.2, ?_⟩
    · refine Eq.trans ?_ hsame.1
      cases hcancel : e.cancel
      · rw [hcancel] at hthis
        exact hthis
      · rw [hcancel] at hother
        exact hother
    · refine Eq.trans ?_ hsame.2.1
      cases hcancel : e.cancel
      · rw [hcancel] at hother
        exact hother
      · rw [hcancel] at hthis
        exact hthis
    · rw [hstored]
      rfl

theorem afterDeadline_observer (r : Record) (c : Bool) (now : ℕ) :
    (r.afterDeadline c now).observer = r.observer ∨
    (r.afterDeadline c now).observer = r.observer.timeout c := by
  unfold afterDeadline
  split
  · right
    cases c <;> rfl
  · exact .inl rfl

theorem lateCount_afterDeadline (r : Record) (c : Bool) (now : ℕ) :
    lateCount (r.afterDeadline c now).observer.history ≤ lateCount r.observer.history := by
  rcases afterDeadline_observer r c now with heq | heq
  · rw [heq]
  · rw [heq]
    rcases history_timeout r.observer c with ⟨hhistory, -⟩ | hhistory
    · rw [hhistory]
    · rw [hhistory]
      refine (lateCount_merge _ _).trans ?_
      cases c <;> exact le_rfl

/-- A late answer that says something else about the phase is kept, and nothing contradicts it yet. -/
def Disputed (r : Record) (wire : Bytes) (e : Envelope) (cam : UInt32) (now : ℕ) : Prop :=
  r.lateAt e.cancel now ∧ ∃ parsed event o, r.matchAnswer wire e cam = .ok parsed ∧
    observe true r.observer.messageId parsed = .ok event ∧ entry event r.observer.history = some o ∧
    o ≠ event ∧ ¬o.contradictory

/-- The second copy of an answer contradicts an observation only if one is disputed. -/
theorem Answered.unmarked_iff {wire : Bytes} {e : Envelope} {cam : UInt32} {parsed : PacketView}
    {event : Observation} (ha : r.Answered wire e cam parsed event) (h : r.Sound) (now : ℕ) :
    Unmarked r.observer.history (merge (behind (r.lateAt e.cancel now) event)
      (r.afterDeadline e.cancel now).observer.history) ↔ ¬r.Disputed wire e cam now := by
  have hanswers := answers_of_observe ha.observed
  have hiff : Unmarked r.observer.history (merge (behind (r.lateAt e.cancel now) event)
      (r.afterDeadline e.cancel now).observer.history) ↔
      ∀ x, entry (behind (r.lateAt e.cancel now) event) r.observer.history = some x →
        x = behind (r.lateAt e.cancel now) event ∨ x.contradictory := by
    have hfresh : ¬(behind (r.lateAt e.cancel now) event).contradictory := hanswers.fresh
    rcases afterDeadline_observer r e.cancel now with heq | heq
    · rw [heq]
      exact unmarked_merge hfresh _
    · rw [heq]
      exact h.observer.unmarked_timeout_merge e.cancel (hanswers.ordinary _) hfresh
  have hobserve : observe true r.observer.messageId parsed = .ok (behind true event) := by
    rw [observe_late, ha.observed]
    rfl
  rw [hiff]
  constructor
  · rintro hentry ⟨hlate, parsed', event', o, hmatch, hevent, ho, hne, hfresh⟩
    rw [ha.matched] at hmatch
    cases hmatch
    rw [hobserve] at hevent
    cases hevent
    rw [hlate] at hentry
    rcases hentry o ho with heq | hcontradictory
    · exact hne heq
    · exact hfresh hcontradictory
  · intro hdisputed x hx
    obtain ⟨late, hlate, o, ho, heq⟩ := ha.recorded
    by_cases hsame : late = r.lateAt e.cancel now
    · rw [hsame] at ho heq
      rw [ho] at hx
      cases hx
      exact heq
    · -- the first copy was not late, and this one is
      have hnow : r.lateAt e.cancel now := by
        cases late with
        | false => simpa using hsame
        | true => simp [lateAt, hlate rfl]
      rw [hnow] at hx ⊢
      by_contra hnot
      refine hdisputed ⟨hnow, parsed, behind true event, x, ha.matched, hobserve, hx, ?_, ?_⟩
      · exact fun hc => hnot (.inl hc)
      · exact fun hc => hnot (.inr hc)

end Record

namespace Registry

variable {sizes : Sizes} {s : Registry sizes}

/-! ## Records over a run -/

/-- The generation of a record never goes back. -/
theorem Sound.call_generation (h : s.Sound) (c : Call) (i : Fin sizes.records) :
    (s.records i).generation ≤ ((s.call c).records i).generation := by
  rcases h.call_keeps c with hkeeps | ⟨k, -, hgeneration, hothers⟩ | ⟨now, rfl⟩
  · exact (hkeeps i).generation.ge
  · by_cases hik : i = k
    · subst hik
      exact hgeneration.ge
    · rw [hothers i hik]
  · show _ ≤ (if expired (s.records i) now then
      ({ generation := (s.records i).generation + 1 } : Record) else s.records i).generation
    split
    · exact Nat.le_succ _
    · exact le_rfl

/-- A record in use is still that of its command after a run, if its generation is the same. -/
theorem Sound.run_keeps (h : s.Sound) (calls : List Call) {i : Fin sizes.records}
    (hused : (s.records i).used) :
    (s.run calls).Sound ∧ (Record.Kept (s.records i) ((s.run calls).records i) ∨
      (s.records i).generation < ((s.run calls).records i).generation) := by
  induction calls using List.reverseRecOn with
  | nil => exact ⟨h, .inl (.refl _)⟩
  | append_singleton calls c ih =>
    rw [run, List.foldl_append]
    obtain ⟨hsound, hkept⟩ := ih
    refine ⟨hsound.call c, ?_⟩
    show Record.Kept _ (((s.run calls).call c).records i) ∨ _ < (((s.run calls).call c).records i).generation
    rcases hkept with hkept | hlater
    · rcases hsound.call_kept c (i := i) (by rw [hkept.used]; exact hused) with
        hnext | ⟨now, -, -, hgeneration⟩
      · exact .inl (hkept.trans hnext)
      · right
        rw [hgeneration, hkept.generation]
        exact Nat.lt_succ_self _
    · exact .inr (hlater.trans_le (hsound.call_generation c i))

/-! ## The second copy of an answer -/

/-- The answer is taken in for the record under the handle, what is stored of the state stays, at most
one late answer is noted, and no observation becomes contradictory. -/
structure Idempotent (s : Registry sizes) (handle : ControllerHandle) (i : Fin sizes.records)
    (generation : ℕ) (peer : PeerSession) (wire : Bytes) (now : ℕ) : Prop where
  ok : (s.receive generation peer wire now).1 = .ok handle
  ordinaryState :
    ((s.receive generation peer wire now).2.records i).ordinaryState = (s.records i).ordinaryState
  cancelState :
    ((s.receive generation peer wire now).2.records i).cancelState = (s.records i).cancelState
  capabilities : ((s.receive generation peer wire now).2.records i).ordinaryCapabilities =
    (s.records i).ordinaryCapabilities
  late : lateCount ((s.receive generation peer wire now).2.records i).observer.history ≤
    lateCount (s.records i).observer.history + 1
  unmarked : Unmarked (s.records i).observer.history
    ((s.receive generation peer wire now).2.records i).observer.history

theorem find_eq_some {handle : ControllerHandle} {i : Fin sizes.records} (h : s.find handle = some i) :
    (s.records i).used ∧ (s.records i).generation = handle.generation ∧ i.val = handle.slot := by
  unfold find at h
  split at h
  · split at h
    · next hfound =>
      cases h
      exact ⟨hfound.1, hfound.2, rfl⟩
    · cases h
  · cases h

/-- There is one record for a key. -/
theorem Sound.findKey_of_sameKey (h : s.Sound) {key : TransactionKey} {i : Fin sizes.records}
    (hused : (s.records i).used) (hkey : sameKey key (s.records i).key) : s.findKey key = some i := by
  rcases hfind : s.findKey key with _ | k
  · have hnone := List.find?_eq_none.mp hfind i (List.mem_finRange i)
    simp [hused, hkey] at hnone
  · obtain ⟨hused', hkey'⟩ := findKey_eq_some hfind
    by_cases hki : k = i
    · rw [hki]
    · exact absurd (sameKey_trans (sameKey_symm hkey') hkey) (h.keys k i hki hused' hused)

/-- The second copy of an answer that a record has taken in. -/
theorem Sound.idempotent_iff (h : s.Sound) {generation : ℕ} {peer : PeerSession} {wire : Bytes}
    {framing : EnvelopeView} {command : Command} {i : Fin sizes.records} {parsed : PacketView}
    {event : Observation} (hframing : decodeEnvelope wire = .ok framing)
    (hcommand : framing.envelope.command = some command) (hack : framing.envelope.ack)
    (hkey : s.findKey (answerKey generation peer framing.envelope command) = some i)
    (ha : (s.records i).Answered wire framing.envelope command.cam parsed event) (now : ℕ) :
    s.Idempotent { slot := i.val, generation := (s.records i).generation } i generation peer wire now ↔
      ¬(s.records i).Stale framing.envelope.cancel command.cam now ∧
      ¬(s.records i).Disputed wire framing.envelope command.cam now := by
  have hreceive := h.receive_found hframing hcommand hack hkey now
  have hunmarked := ha.unmarked_iff (h.records i) now
  rcases ha.receive_again (h.records i) now with ⟨hstale, err, r', heq⟩ |
    ⟨hstale, r', heq, hordinary, hcancel, hcapabilities, hhistory⟩
  · rw [heq] at hreceive
    constructor
    · intro hidem
      have hok := hidem.ok
      rw [hreceive] at hok
      cases hok
    · exact fun hc => absurd hstale hc.1
  · rw [heq] at hreceive
    have hrecord : (s.receive generation peer wire now).2.records i = r' := by
      rw [hreceive]
      exact Function.update_self ..
    constructor
    · intro hidem
      refine ⟨hstale, hunmarked.mp ?_⟩
      have hmarks := hidem.unmarked
      rw [hrecord, hhistory] at hmarks
      exact hmarks
    · rintro ⟨-, hdisputed⟩
      constructor
      case ok =>
        rw [hreceive]
        rfl
      case ordinaryState => rw [hrecord, hordinary]
      case cancelState => rw [hrecord, hcancel]
      case capabilities => rw [hrecord, hcapabilities]
      case late =>
        rw [hrecord, hhistory]
        refine (lateCount_merge _ _).trans ?_
        have hdue := Record.lateCount_afterDeadline (s.records i) framing.envelope.cancel now
        split <;> omega
      case unmarked =>
        rw [hrecord, hhistory]
        exact hunmarked.mpr hdisputed

/-- A second copy of an answer, at any time while the record is retained, changes nothing, unless it is
a capability answer whose lateness has changed, or a late answer disputes it. -/
theorem retransmission_iff (h : s.Reachable) {generation t : ℕ} {peer : PeerSession} {wire : Bytes}
    {handle : ControllerHandle} (hfirst : (s.receive generation peer wire t).1 = .ok handle)
    (calls : List Call) {i : Fin sizes.records}
    (hretained : ((s.receive generation peer wire t).2.run calls).find handle = some i) (now : ℕ) :
    ∃ framing command, decodeEnvelope wire = .ok framing ∧ framing.envelope.command = some command ∧
      (((s.receive generation peer wire t).2.run calls).Idempotent handle i generation peer wire now ↔
        ¬(((s.receive generation peer wire t).2.run calls).records i).Stale framing.envelope.cancel
          command.cam now ∧
        ¬(((s.receive generation peer wire t).2.run calls).records i).Disputed wire framing.envelope
          command.cam now) := by
  have hsound := sound_of_reachable h
  rcases hsound.receive_cases generation peer wire t with ⟨err, heq⟩ |
    ⟨framing, command, k, ⟨hframing, hack⟩, hcommand, hkey, heq⟩
  · rw [heq] at hfirst
    cases hfirst
  · refine ⟨framing, command, hframing, hcommand, ?_⟩
    have hrecord : (s.receive generation peer wire t).2.records k =
        ((s.records k).receive wire framing.envelope command.cam t).2 := by
      rw [heq]
      exact Function.update_self ..
    have hkept := ((hsound.records k).receive wire framing.envelope command.cam t).kept
    obtain ⟨hused, hsame⟩ := findKey_eq_some hkey
    rw [heq] at hfirst
    -- the first copy was taken in
    obtain ⟨hok, hhandle⟩ : ((s.records k).receive wire framing.envelope command.cam t).1 = .ok () ∧
        handle = { slot := k.val, generation := (s.records k).generation } := by
      rcases hresult : ((s.records k).receive wire framing.envelope command.cam t).1 with err | u
      · rw [hresult] at hfirst
        cases hfirst
      · rw [hresult] at hfirst
        cases hfirst
        exact ⟨rfl, rfl⟩
    obtain ⟨parsed, event, hanswered⟩ := (hsound.records k).answered hframing hok
    -- and the record is still that of the command
    obtain ⟨hretained', hgeneration, hslot⟩ := find_eq_some hretained
    rw [hhandle] at hgeneration hslot
    have hik : i = k := Fin.ext hslot
    subst hik
    rw [← hrecord] at hanswered hkept
    obtain ⟨hsound', hlater⟩ := (hsound.receive generation peer wire t).run_keeps calls
      (hkept.used ▸ hused)
    dsimp only at hgeneration
    generalize (s.receive generation peer wire t).2 = s₁ at hgeneration hlater hsound' hanswered hkept ⊢
    rcases hlater with hlater | hlater
    · have hall := hkept.trans hlater
      have hkey' : sameKey (answerKey generation peer framing.envelope command)
          ((s₁.run calls).records i).key := by
        rw [hall.key]
        exact hsame
      rw [hhandle, ← hgeneration]
      exact hsound'.idempotent_iff hframing hcommand hack
        (hsound'.findKey_of_sameKey (hall.used ▸ hused) hkey') (hanswered.kept hlater) now
    · rw [hkept.generation, hgeneration] at hlater
      exact absurd hlater (lt_irrefl _)

open Query in
/-- The ranges are taken in, and the same answer is refused behind the deadline. -/
theorem retransmission_refused :
    (sent.receive 1 peer answerWire 5).1 = .ok ⟨0, 1⟩ ∧ answered.find ⟨0, 1⟩ = some 0 ∧
      (answered.receive 1 peer answerWire 20).1 = .error (failure .identityConflict) := by
  refine ⟨?_, ?_, ?_⟩
  · decide +kernel
  · decide +kernel
  · decide +kernel

open Query in
/-- Before the deadline the same answer changes nothing. -/
theorem retransmission_iff_answered :
    ∃ framing command, decodeEnvelope answerWire = .ok framing ∧
      framing.envelope.command = some command ∧
      (answered.Idempotent ⟨0, 1⟩ 0 1 peer answerWire 6 ↔
        ¬(answered.records 0).Stale framing.envelope.cancel command.cam 6 ∧
        ¬(answered.records 0).Disputed answerWire framing.envelope command.cam 6) :=
  retransmission_iff (s := sent) ⟨_, rfl⟩ (by decide +kernel) [] (by decide +kernel) 6

end Registry

end Vita.Transaction.Controller
