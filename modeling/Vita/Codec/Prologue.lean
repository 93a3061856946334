import Vita.Codec.WireTheorems

/-!
# Writing a prologue (`codec/prologue.hpp`)

The words before the payload are written into a given output, and payload and trailer are left to the
caller. Words are stored one after the other behind an offset.

Main results:
- `writePrologue_eq`: what the output holds then;
- `encodeEnvelope_eq_writePrologue`: with payload and trailer it is what `encodeEnvelope` writes.
-/

namespace Vita.Codec

open Words Checked

/-- `EnvelopeLayout`. -/
structure EnvelopeLayout where
  packetBytes : ℕ := 0
  prologueBytes : ℕ := 0
  payloadOffset : ℕ := 0
  payloadBytes : ℕ := 0
  trailerOffset : Option ℕ := none

def measurePrologue (e : Envelope) (payloadBytes : ℕ) : Result EnvelopeLayout := do
  let total ← measureEnvelope e payloadBytes
  let pre := total - payloadBytes - (if e.trailer then 4 else 0)
  return { packetBytes := total, prologueBytes := pre, payloadOffset := pre, payloadBytes
           trailerOffset := if e.trailer then some (total - 4) else none }

/-- An output and the offset behind what was written. -/
structure Output where
  bytes : Bytes
  offset : ℕ := 0

namespace Output

/-- `store32`. -/
def store32 (bytes : Bytes) (offset : ℕ) (value : UInt32) : Bytes :=
  bytes.take offset ++ (be32 value ++ bytes.drop (offset + 4))

def put (o : Output) (value : UInt32) : Output := ⟨store32 o.bytes o.offset value, o.offset + 4⟩

end Output

/-- The header word of `write_prologue`. -/
def prologueHeader (e : Envelope) (packetBytes : ℕ) : UInt32 :=
  let header := (UInt32.ofNat e.type.code <<< 28) |||
    (if e.classId.isSome then (1 : UInt32) <<< 27 else 0) |||
    (UInt32.ofNat e.timestamp.tsi.code <<< 22) ||| (UInt32.ofNat e.timestamp.tsf.code <<< 20) |||
    (e.packetCount.toUInt32 <<< 16) ||| UInt32.ofNat (packetBytes / 4)
  if isData e.type then
    header ||| ((if e.trailer then (1 : UInt32) <<< 26 else 0) |||
      (if e.nd0 then (1 : UInt32) <<< 25 else 0) ||| (if e.spectrum then (1 : UInt32) <<< 24 else 0))
  else if isCommand e.type then
    header ||| ((if e.ack then (1 : UInt32) <<< 26 else 0) |||
      (if e.cancel then (1 : UInt32) <<< 24 else 0))
  else
    header ||| ((if e.nd0 then (1 : UInt32) <<< 25 else 0) |||
      (if e.tsm then (1 : UInt32) <<< 24 else 0))

/-- `write_prologue`: the output covers the prologue. -/
def writePrologue (e : Envelope) (packetBytes : ℕ) (output : Bytes) : Output :=
  let o : Output := { bytes := output }
  let o := o.put (prologueHeader e packetBytes)
  let o := match e.streamId with
    | some v => o.put v
    | none => o
  let o := match e.classId with
    | some c => (o.put ((c.padBits.toUInt32 <<< 27) ||| c.oui)).put
        ((c.informationClass.toUInt32 <<< 16) ||| c.packetClass.toUInt32)
    | none => o
  let o := if e.timestamp.tsi ≠ .none then o.put e.timestamp.integer else o
  let o := if e.timestamp.tsf ≠ .none then
      (o.put (e.timestamp.fractional >>> 32).toUInt32).put e.timestamp.fractional.toUInt32
    else o
  match e.command with
  | some c =>
    let o := (o.put c.cam).put c.messageId
    c.controller.wireWords.foldl Output.put (c.controllee.wireWords.foldl Output.put o)
  | none => o

/-- `encode_prologue`, with the output. -/
def encodePrologue (e : Envelope) (payloadBytes : ℕ) (output : Bytes) : Result Output := do
  let layout ← measurePrologue e payloadBytes
  rejectIf (output.length < layout.prologueBytes)
    { code := .shortOutput, offset := 0, requiredCapacity := layout.prologueBytes }
  return writePrologue e layout.packetBytes output

/-! ## What is written -/

/-- Something that writes these bytes behind the offset, where there is room for them. -/
def Emits (f : Output → Output) (bytes : Bytes) : Prop :=
  ∀ o : Output, o.offset + bytes.length ≤ o.bytes.length →
    f o = ⟨o.bytes.take o.offset ++ (bytes ++ o.bytes.drop (o.offset + bytes.length)),
      o.offset + bytes.length⟩

namespace Emits

variable {f g : Output → Output} {bytes more : Bytes}

theorem nothing : Emits id [] := by
  intro o _
  simp

/-- Two writers, one after the other. -/
theorem comp (hf : Emits f bytes) (hg : Emits g more) : Emits (g ∘ f) (bytes ++ more) := by
  intro o hroom
  rw [List.length_append] at hroom
  have hoffset : (o.bytes.take o.offset).length = o.offset := by
    rw [List.length_take]
    omega
  have hhead : (o.bytes.take o.offset ++ bytes).length = o.offset + bytes.length := by
    rw [List.length_append, hoffset]
  have hsplit : o.bytes.take o.offset ++ (bytes ++ o.bytes.drop (o.offset + bytes.length)) =
      (o.bytes.take o.offset ++ bytes) ++ o.bytes.drop (o.offset + bytes.length) := by
    rw [List.append_assoc]
  rw [Function.comp_apply, hf o (by omega), hg]
  · dsimp only
    rw [hsplit, List.take_left' hhead, ← List.drop_drop, List.drop_left' hhead, List.drop_drop,
      List.length_append, Nat.add_assoc, List.append_assoc, List.append_assoc]
  · dsimp only
    rw [hsplit, List.length_append, hhead, List.length_drop]
    omega

theorem put (value : UInt32) : Emits (Output.put · value) (be32 value) := by
  intro o _
  rw [length_be32]
  rfl

theorem puts (words : List UInt32) : Emits (words.foldl Output.put) (putWords words) := by
  induction words with
  | nil => exact nothing
  | cons w words ih =>
    rw [putWords_cons]
    exact (put w).comp ih

end Emits

theorem prologueHeader_eq (e : Envelope) (packetBytes : ℕ) :
    prologueHeader e packetBytes = headerWord e packetBytes := by
  unfold prologueHeader headerWord flagBits
  dsimp only
  split
  · rfl
  · split <;> rfl

/-- The prologue is what the output holds up to the offset that is returned. -/
theorem writePrologue_eq (e : Envelope) (packetBytes : ℕ) {output : Bytes}
    (hroom : (prologue e packetBytes).length ≤ output.length) :
    writePrologue e packetBytes output =
      ⟨prologue e packetBytes ++ output.drop (prologue e packetBytes).length,
        (prologue e packetBytes).length⟩ := by
  have hsid : Emits (fun o => match e.streamId with | some v => o.put v | none => o)
      (e.streamId.elim [] be32) := by
    cases e.streamId with
    | none => exact .nothing
    | some v => exact .put v
  have hclass : Emits (fun o => match e.classId with
      | some c => (o.put ((c.padBits.toUInt32 <<< 27) ||| c.oui)).put
          ((c.informationClass.toUInt32 <<< 16) ||| c.packetClass.toUInt32)
      | none => o) (e.classId.elim [] putClassId) := by
    cases e.classId with
    | none => exact .nothing
    | some c => exact .puts [_, _]
  have htsi : Emits (fun o => if e.timestamp.tsi ≠ .none then o.put e.timestamp.integer else o)
      (if e.timestamp.tsi ≠ .none then be32 e.timestamp.integer else []) := by
    split
    · exact .put _
    · exact .nothing
  have htsf : Emits (fun o => if e.timestamp.tsf ≠ .none then
        (o.put (e.timestamp.fractional >>> 32).toUInt32).put e.timestamp.fractional.toUInt32
      else o) (if e.timestamp.tsf ≠ .none then putWords [(e.timestamp.fractional >>> 32).toUInt32,
        e.timestamp.fractional.toUInt32] else []) := by
    split
    · exact .puts [_, _]
    · exact .nothing
  have hcommand : Emits (fun o => match e.command with
      | some c => c.controller.wireWords.foldl Output.put
          (c.controllee.wireWords.foldl Output.put ((o.put c.cam).put c.messageId))
      | none => o) (e.command.elim [] putCommand) := by
    cases e.command with
    | none => exact .nothing
    | some c =>
      have h := Emits.puts ([c.cam, c.messageId] ++ c.controllee.wireWords ++ c.controller.wireWords)
      simp only [List.foldl_append] at h
      exact h
  have hall := (Emits.put (prologueHeader e packetBytes)).comp
    (hsid.comp (hclass.comp ((htsi.comp htsf).comp hcommand)))
  have hbytes : be32 (prologueHeader e packetBytes) ++ (e.streamId.elim [] be32 ++
      (e.classId.elim [] putClassId ++ (putTimestamp e.timestamp ++ e.command.elim [] putCommand))) =
        prologue e packetBytes := by
    rw [prologueHeader_eq]
    rfl
  have h := hall { bytes := output } (by
    rw [Nat.zero_add]
    exact hbytes ▸ hroom)
  rw [Nat.zero_add, List.take_zero, List.nil_append] at h
  exact h.trans (by rw [← hbytes]; rfl)

/-- A prologue with payload and trailer behind it is an encoded packet. -/
theorem encodeEnvelope_eq_writePrologue {e : Envelope} {payload output : Bytes}
    {trailer : Option UInt32} {layout : EnvelopeLayout} {capacity : ℕ}
    (hmeasure : measurePrologue e payload.length = .ok layout) (htrailer : e.trailer = trailer.isSome)
    (houtput : layout.prologueBytes ≤ output.length) (hcapacity : layout.packetBytes ≤ capacity) :
    let o := writePrologue e layout.packetBytes output
    encodeEnvelope e payload trailer capacity =
        .ok (o.bytes.take o.offset ++ (payload ++ trailer.elim [] be32)) ∧
      o.offset = layout.prologueBytes ∧ o.bytes.drop o.offset = output.drop o.offset := by
  simp only [measurePrologue, bind_eq_ok, pure_eq_ok, Except.ok.injEq] at hmeasure
  obtain ⟨total, htotal, rfl⟩ := hmeasure
  dsimp only at houtput hcapacity ⊢
  have hsize := (measureEnvelope_eq_ok.mp htotal).size_eq
  have hlength : (prologue e total).length =
      total - payload.length - (if e.trailer then 4 else 0) := by
    omega
  rw [writePrologue_eq e total (by omega)]
  dsimp only
  refine ⟨?_, hlength, ?_⟩
  · rw [List.take_left]
    simp only [encodeEnvelope, bind_eq_ok, rejectIf_eq_ok, pure_eq_ok, Except.ok.injEq, not_not,
      Nat.not_lt]
    exact ⟨(), htrailer, total, htotal, (), hcapacity, rfl⟩
  · rw [List.drop_left]

end Vita.Codec
