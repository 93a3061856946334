import Vita.Transport.Routing
import Vita.Codec.Tiling
import Vita.Codec.WireTheorems

/-!
# Decoded packets and their envelopes

What every transport relies on when it hands a packet to its route: the decoder of packets starts from
the decoded envelope, and the buffer of a packet is cut into prologue, payload and trailer without a
gap.

Main results:
- `Route.decodePacket_envelope`: the envelope of a decoded packet;
- `RxEnvelope.ofPacket_spec`: the received envelope of a packet holds all of its bytes.
-/

namespace Vita.Transport

open Words Checked Codec

namespace Route

theorem decodeDiagnostics_envelope {fieldCapacity viewCapacity : ℕ} {env : EnvelopeView}
    {warning error : Bool} {options : DecodeOptions} {p : PacketView}
    (h : decodeDiagnostics fieldCapacity viewCapacity env warning error options = .ok p) :
    p.envelope = env := by
  simp only [decodeDiagnostics, bind_eq_ok, Prod.exists, pure_eq_ok, Except.ok.injEq] at h
  obtain ⟨_, _, _, -, _, _, _, -, _, _, _, -, _, _, _, -, _, -, rfl⟩ := h
  rfl

/-- A body is decoded for its envelope. -/
theorem decodeBody_envelope {fieldCapacity viewCapacity : ℕ} {env : EnvelopeView}
    {options : DecodeOptions} {p : PacketView}
    (h : decodeBody fieldCapacity viewCapacity env options = .ok p) : p.envelope = env := by
  by_cases hopaque : p.isOpaque
  · unfold decodeBody at h
    simp only at h
    split at h
    · obtain rfl := Except.ok.inj h
      rfl
    · split at h
      · simp only [decodeContext, bind_eq_ok, Prod.exists, pure_eq_ok, Except.ok.injEq] at h
        obtain ⟨_, _, -, _, -, _, -, rfl⟩ := h
        rfl
      · split at h
        · cases h
        · unfold decodeCommandBody at h
          split at h
          · unfold decodeCommand at h
            simp only [bind_eq_ok, Prod.exists] at h
            obtain ⟨_, _, -, h⟩ := h
            split at h
            · simp only [bind_eq_ok, pure_eq_ok, Except.ok.injEq] at h
              obtain ⟨_, -, _, -, rfl⟩ := h
              rfl
            · simp only [bind_eq_ok, pure_eq_ok, Except.ok.injEq] at h
              obtain ⟨_, -, _, -, rfl⟩ := h
              rfl
          · split at h
            · obtain rfl := Except.ok.inj h
              rfl
            · exact decodeDiagnostics_envelope h
  · exact (decodeBody_tiled h hopaque).1

theorem decodePacket_envelope {wire : Bytes} {options : DecodeOptions} {p : PacketView}
    (h : decodePacket wire options = .ok p) : decodeEnvelope wire = .ok p.envelope := by
  simp only [decodePacket, decodePacketBounded, bind_eq_ok] at h
  obtain ⟨env, henv, _, -, h⟩ := h
  rw [decodeBody_envelope h]
  exact henv

end Route

namespace RxEnvelope

theorem valid_of_le {rx : RxEnvelope} {wire : Bytes} {segment : SegmentRef} (h : rx.lease = some wire)
    (hle : segment.offset + segment.length ≤ wire.length) : rx.valid segment := by
  simp only [valid, h, Option.mem_some_iff, exists_eq_left', decide_eq_true_eq]
  omega

/-- The envelope that `ofPacket` makes. -/
def cut (wire : Bytes) (view : EnvelopeView) : RxEnvelope where
  lease := some wire
  prologue := some ⟨0, view.payloadOffset⟩
  payload := if view.payload ≠ [] then [⟨view.payloadOffset, view.payload.length⟩] else []
  trailer := if view.trailer.isSome then some ⟨view.payloadOffset + view.payload.length, 4⟩ else none

theorem setPrologue_eq {rx : RxEnvelope} (wire : Bytes) {segment : SegmentRef}
    (h : rx.lease = some wire) (hle : segment.offset + segment.length ≤ wire.length) :
    rx.setPrologue segment = .ok { rx with prologue := some segment } := by
  unfold setPrologue
  rw [rejectIf_of_not (not_not_intro (valid_of_le h hle))]
  rfl

theorem appendPayload_eq {rx : RxEnvelope} (wire : Bytes) {segment : SegmentRef}
    (h : rx.lease = some wire) (hle : segment.offset + segment.length ≤ wire.length)
    (hne : segment.length ≠ 0) (hempty : rx.payload = []) :
    rx.appendPayload segment = .ok { rx with payload := [segment] } := by
  unfold appendPayload
  rw [rejectIf_of_not (by simp [valid_of_le h hle, hne]), hempty]
  rfl

theorem setTrailer_eq {rx : RxEnvelope} (wire : Bytes) {segment : SegmentRef}
    (h : rx.lease = some wire) (hle : segment.offset + segment.length ≤ wire.length) :
    rx.setTrailer segment = .ok { rx with trailer := some segment } := by
  unfold setTrailer
  rw [rejectIf_of_not (not_not_intro (valid_of_le h hle))]
  rfl

/-- The parts of a packet are those of its view. -/
theorem ofPacket_eq {wire : Bytes} {view : EnvelopeView}
    (hlength : wire.length = view.payloadOffset + view.payload.length +
      if view.trailer.isSome then 4 else 0) : ofPacket wire view = .ok (cut wire view) := by
  have hprologue : (addBuffer {} wire).setPrologue ⟨0, view.payloadOffset⟩ =
      .ok { addBuffer {} wire with prologue := some ⟨0, view.payloadOffset⟩ } :=
    setPrologue_eq wire rfl (by simp only; omega)
  have hpayload : view.payloadOffset + view.payload.length ≤ wire.length := by omega
  unfold ofPacket
  simp only [hprologue, ok_bind]
  cases hpay : view.payload with
  | nil =>
    simp only [ne_eq, not_true_eq_false, if_false, pure_eq_ok, ok_bind]
    split
    · next htrailer =>
      rw [if_pos htrailer, hpay] at hlength
      rw [setTrailer_eq wire rfl (by simp only [List.length_nil] at hlength ⊢; omega)]
      simp [cut, hpay, htrailer, addBuffer]
    · next htrailer => simp [cut, hpay, htrailer, addBuffer]
  | cons b rest =>
    simp only [ne_eq, reduceCtorEq, not_false_eq_true, if_true]
    rw [appendPayload_eq wire rfl (by simpa only [hpay] using hpayload) (by simp) rfl, ok_bind]
    split
    · next htrailer =>
      rw [if_pos htrailer, hpay] at hlength
      rw [setTrailer_eq wire rfl (by simp only; omega)]
      simp [cut, hpay, htrailer, addBuffer]
    · next htrailer => simp [cut, hpay, htrailer, addBuffer]

/-- The received envelope of a packet can be made, and its parts are the bytes of the packet. -/
theorem ofPacket_spec {wire : Bytes} {view : EnvelopeView} (h : decodeEnvelope wire = .ok view) :
    ∃ rx, ofPacket wire view = .ok rx ∧ rx.content = wire := by
  have hencodes := decodeEnvelope_eq_ok.mp h
  have hbytes := hencodes.bytes
  have hoffset := hencodes.offset
  generalize Codec.prologue view.envelope wire.length = before at hbytes hoffset
  have htrailer : (view.trailer.elim [] be32).length = if view.trailer.isSome then 4 else 0 := by
    cases view.trailer <;> simp
  have hlength : wire.length = view.payloadOffset + view.payload.length +
      if view.trailer.isSome then 4 else 0 := by
    rw [← htrailer, hoffset, Nat.add_assoc, ← List.length_append, ← List.length_append, ← hbytes]
  refine ⟨cut wire view, ofPacket_eq hlength, ?_⟩
  -- the three segments lie one behind the other
  have hfirst : (cut wire view).bytes ⟨0, view.payloadOffset⟩ = before := by
    simp only [bytes, cut, Option.getD_some, List.drop_zero]
    rw [hbytes, hoffset, List.take_left']
    rfl
  have hsecond : (cut wire view).payload.flatMap (cut wire view).bytes = view.payload := by
    by_cases hpayload : view.payload = []
    · simp [cut, hpayload]
    · simp only [cut, ne_eq, hpayload, not_false_eq_true, if_true, List.flatMap_cons,
        List.flatMap_nil, List.append_nil, bytes, Option.getD_some]
      rw [hbytes, hoffset, List.drop_left' rfl, List.take_left' rfl]
  have hthird : (cut wire view).trailer.elim [] (cut wire view).bytes = view.trailer.elim [] be32 := by
    cases ht : view.trailer with
    | none => simp [cut, ht]
    | some t =>
      simp only [cut, ht, Option.isSome_some, if_true, Option.elim_some, bytes, Option.getD_some]
      rw [hbytes, hoffset, ht, ← List.append_assoc, List.drop_left' (by simp)]
      simp
  rw [content, hthird, hsecond]
  show ((cut wire view).prologue.elim [] (cut wire view).bytes ++ _) ++ _ = _
  have hprologue : (cut wire view).prologue = some ⟨0, view.payloadOffset⟩ := rfl
  rw [hprologue, Option.elim_some, hfirst, List.append_assoc]
  exact hbytes.symm

end RxEnvelope

end Vita.Transport
