import Vita.Codec.Wire
import Mathlib.Data.List.OfFn
import Mathlib.Tactic.IntervalCases

/-!
# The envelope codec is a bijection on its image

Every stage of `decodeEnvelope` reads exactly the bytes that the corresponding part of
`encodeEnvelope` writes, and nothing else can be read there:

* `takeStreamId_iff`, `takeClassId_iff`, `takeTimestamp_iff`, `takeCommand_iff`: one stage succeeds
  exactly on the bytes of a value in wire form;
* `headerEnvelope_headerWord`, `headerWord_headerEnvelope`: the packed header and its fields;
* `decodeEnvelope_eq_ok`: the accepted inputs are the encodings of the wire forms.
-/

namespace Vita.Codec

open Words Checked

/-! ## Wire forms

What of a value is on the wire: timestamp words of an absent format and identifier words beyond the
identifier's size are not. -/

def Timestamp.onWire (t : Timestamp) : Timestamp :=
  { t with integer := if t.tsi = .none then 0 else t.integer
           fractional := if t.tsf = .none then 0 else t.fractional }

def Identifier.onWire (id : Identifier) : Identifier :=
  { id with words := fun i => if i.val < id.sizeWords then id.words i else 0 }

def Command.onWire (c : Command) : Command :=
  { c with controllee := c.controllee.onWire, controller := c.controller.onWire }

def Envelope.onWire (e : Envelope) : Envelope :=
  { e with timestamp := e.timestamp.onWire, command := e.command.map Command.onWire }

theorem Timestamp.onWire_onWire (t : Timestamp) : t.onWire.onWire = t.onWire := by
  by_cases hi : t.tsi = .none <;> by_cases hf : t.tsf = .none <;> simp [Timestamp.onWire, hi, hf]

/-- What the wire has left of an identifier goes over the wire. -/
theorem Identifier.onWire_onWire (id : Identifier) : id.onWire.onWire = id.onWire := by
  have hwords : id.onWire.onWire.words = id.onWire.words := by
    funext i
    show (if i.val < id.sizeWords then if i.val < id.sizeWords then id.words i else 0 else 0) = _
    by_cases hi : i.val < id.sizeWords
    · rw [if_pos hi]
      rfl
    · rw [if_neg hi]
      exact (if_neg hi).symm
  show ({ kind := id.kind, words := id.onWire.onWire.words } : Identifier) = id.onWire
  rw [hwords]
  rfl

theorem Command.onWire_onWire (c : Command) : c.onWire.onWire = c.onWire := by
  simp [Command.onWire, Identifier.onWire_onWire]

theorem Envelope.onWire_onWire (e : Envelope) : e.onWire.onWire = e.onWire := by
  cases h : e.command <;>
    simp [Envelope.onWire, Timestamp.onWire_onWire, Command.onWire_onWire, h]

@[simp] theorem putTimestamp_onWire (t : Timestamp) : putTimestamp t.onWire = putTimestamp t := by
  unfold putTimestamp Timestamp.onWire
  by_cases hi : t.tsi = .none <;> by_cases hf : t.tsf = .none <;> simp [hi, hf]

theorem Identifier.wireWords_eq (id : Identifier) :
    id.wireWords = match id.kind with
      | .absent => []
      | .shortId => [id.words 0]
      | .uuid => [id.words 0, id.words 1, id.words 2, id.words 3] := by
  unfold Identifier.wireWords Identifier.sizeWords
  cases id.kind <;> simp [List.ofFn_succ]

@[simp] theorem Identifier.wireWords_onWire (id : Identifier) :
    id.onWire.wireWords = id.wireWords := by
  rw [Identifier.wireWords_eq, Identifier.wireWords_eq]
  cases h : id.kind <;> simp [Identifier.onWire, Identifier.sizeWords, h]

@[simp] theorem putCommand_onWire (c : Command) : putCommand c.onWire = putCommand c := by
  simp [putCommand, Command.onWire]

/-! ## Reading one word -/

/-- A read inside the input yields the word that stands there. -/
theorem take_iff {wire : Bytes} {offset offset' : ℕ} {w : UInt32} :
    take wire wire.length offset = .ok (w, offset') ↔ Segment wire offset (be32 w) offset' := by
  rw [Segment.word_iff]
  simp only [take, bind_eq_ok, rejectIf_eq_ok, load32_eq_ok, pure_eq_ok, Except.ok.injEq,
    Prod.mk.injEq]
  constructor
  · rintro ⟨-, -, v, hv, rfl, rfl⟩
    exact ⟨hv, rfl⟩
  · rintro ⟨hw, rfl⟩
    have hlen := le_length_of_wordAt hw
    exact ⟨(), by omega, w, hw, rfl, rfl⟩

/-- A read never leaves an input of the declared size. -/
theorem take_ne_outside {wire : Bytes} {offset : ℕ} :
    take wire wire.length offset ≠ .error .outside := by
  intro h
  simp only [take, bind_eq_error, rejectIf_eq_error, rejectIf_eq_ok] at h
  obtain ⟨-, h⟩ | ⟨-, hin, h | ⟨w, -, h⟩⟩ := h
  · cases h
  · have hlen : offset + 4 ≤ wire.length := by omega
    obtain ⟨w, hw⟩ := load32_inside hlen
    rw [hw] at h
    cases h
  · cases h

/-! ## The optional stages -/

section Stages

variable {wire : Bytes} {offset offset' : ℕ}

theorem takeStreamId_iff {present : Bool} {v : Option UInt32} (h : offset ≤ wire.length) :
    takeStreamId present wire wire.length offset = .ok (v, offset') ↔
      v.isSome = present ∧ Segment wire offset (v.elim [] be32) offset' := by
  cases present with
  | false => cases v <;> simp [takeStreamId, h, eq_comm]
  | true => cases v <;> simp [takeStreamId, take_iff]

/-- The first class word: pad bits above the OUI, three reserved bits between them. -/
theorem classWord_eq_iff {a oui : UInt32} {padBits : UInt8} :
    ((padBits.toUInt32 <<< 27) ||| oui = a ∧ oui ≤ 0xffffff ∧ padBits ≤ 31) ↔
      a &&& 0x07000000 = 0 ∧ a &&& 0xffffff = oui ∧ (a >>> 27).toUInt8 = padBits := by
  have hmask : a &&& 0x07000000 = 0 ↔ bits a 24 3 = 0 := and_mask_eq_zero a 24 3 rfl
  have hlow : (a &&& 0xffffff).toNat = a.toNat % 2 ^ 24 := toNat_and_mask a 24 rfl
  have hhigh : (a >>> 27).toUInt8.toNat = a.toNat / 2 ^ 27 % 256 := by
    rw [UInt32.toNat_toUInt8, UInt32.toNat_shiftRight, Nat.shiftRight_eq_div_pow]
    rfl
  have ha := a.toNat_lt
  rw [hmask, ← UInt32.toNat_inj (b := oui), hlow, ← UInt8.toNat_inj, hhigh, bits,
    UInt32.le_iff_toNat_le, UInt8.le_iff_toNat_le]
  simp only [UInt32.reduceToNat, UInt8.reduceToNat]
  constructor
  · rintro ⟨rfl, ho, hp⟩
    rw [toNat_pack 27 (UInt8.toNat_toUInt32 padBits) rfl rfl] <;> omega
  · rintro ⟨hr, ho, hp⟩
    have ho' : oui.toNat ≤ 0xffffff := by omega
    have hp' : padBits.toNat ≤ 31 := by omega
    refine ⟨?_, ho', hp'⟩
    rw [← UInt32.toNat_inj,
      toNat_pack 27 (UInt8.toNat_toUInt32 padBits) rfl rfl] <;> omega

theorem putWords_cons (w : UInt32) (ws : List UInt32) :
    putWords (w :: ws) = be32 w ++ putWords ws := rfl

@[simp] theorem putWords_nil : putWords [] = [] := rfl

theorem putWords_append (us ws : List UInt32) : putWords (us ++ ws) = putWords us ++ putWords ws :=
  List.flatMap_append

@[simp] theorem length_putWords (ws : List UInt32) : (putWords ws).length = 4 * ws.length := by
  induction ws with
  | nil => rfl
  | cons w ws ih =>
    rw [putWords_cons, List.length_append, length_be32, ih, List.length_cons]
    omega

/-- Two words are read exactly where both stand, one after the other. -/
theorem segment_pair_iff {a b : UInt32} :
    Segment wire offset (putWords [a, b]) offset' ↔
      ∃ mid, Segment wire offset (be32 a) mid ∧ Segment wire mid (be32 b) offset' := by
  rw [putWords_cons, putWords_cons, putWords_nil, List.append_nil, Segment.append_iff]

/-- A class identifier is taken exactly where it was put. -/
theorem takeClassId_iff {present : Bool} {v : Option ClassId} (h : offset ≤ wire.length) :
    takeClassId present wire wire.length offset = .ok (v, offset') ↔
      v.isSome = present ∧ (∀ c ∈ v, c.oui ≤ 0xffffff ∧ c.padBits ≤ 31) ∧
        Segment wire offset (v.elim [] putClassId) offset' := by
  cases present with
  | false => cases v <;> simp [takeClassId, h, eq_comm]
  | true =>
    cases v with
    | none => simp [takeClassId]
    | some c =>
      simp only [takeClassId, if_true, bind_eq_ok, Prod.exists, take_iff, rejectIf_eq_ok, not_not,
        pure_eq_ok, Except.ok.injEq, Prod.mk.injEq, Option.some.injEq, Option.isSome_some, true_and,
        Option.mem_def, forall_eq', Option.elim_some, putClassId, segment_pair_iff]
      constructor
      · rintro ⟨a, mid, ha, b, stop, hb, -, hres, rfl, rfl⟩
        obtain ⟨hword, ho, hp⟩ := classWord_eq_iff.mpr ⟨hres, rfl, rfl⟩
        have hcode := halves16_eq_iff.mpr ⟨(rfl : (b >>> 16).toUInt16 = _), rfl⟩
        exact ⟨⟨ho, hp⟩, mid, hword.symm ▸ ha, hcode.symm ▸ hb⟩
      · rintro ⟨⟨ho, hp⟩, mid, ha, hb⟩
        obtain ⟨hres, houi, hpad⟩ := classWord_eq_iff.mp ⟨rfl, ho, hp⟩
        obtain ⟨hinfo, hpacket⟩ := halves16_eq_iff.mp (rfl : _ = (c.informationClass.toUInt32 <<< 16) ||| c.packetClass.toUInt32)
        refine ⟨_, mid, ha, _, offset', hb, (), hres, ?_, rfl⟩
        rw [houi, hpad, hinfo, hpacket]

/-- The two words of a fractional timestamp. -/
theorem segment_fractional_iff {fractional : UInt64} :
    Segment wire offset (putWords [(fractional >>> 32).toUInt32, fractional.toUInt32]) offset' ↔
      ∃ a mid b, Segment wire offset (be32 a) mid ∧ Segment wire mid (be32 b) offset' ∧
        (a.toUInt64 <<< 32) ||| b.toUInt64 = fractional := by
  rw [segment_pair_iff]
  constructor
  · rintro ⟨mid, ha, hb⟩
    exact ⟨_, mid, _, ha, hb, halves32_eq_iff.mpr ⟨rfl, rfl⟩⟩
  · rintro ⟨a, mid, b, ha, hb, hf⟩
    obtain ⟨rfl, rfl⟩ := halves32_eq_iff.mp hf
    exact ⟨mid, ha, hb⟩

theorem takeInteger_iff {tsi : Tsi} {v : UInt32} (h : offset ≤ wire.length) :
    takeInteger tsi wire wire.length offset = .ok (v, offset') ↔
      (if tsi = .none then 0 else v) = v ∧
        Segment wire offset (if tsi ≠ .none then be32 v else []) offset' := by
  by_cases hn : tsi = .none
  · simp [takeInteger, hn, h, eq_comm]
  · simp [takeInteger, hn, take_iff]

/-- A fractional timestamp is read exactly where it was written. -/
theorem takeFractional_iff {tsf : Tsf} {v : UInt64} (h : offset ≤ wire.length) :
    takeFractional tsf wire wire.length offset = .ok (v, offset') ↔
      (if tsf = .none then 0 else v) = v ∧
        Segment wire offset
          (if tsf ≠ .none then putWords [(v >>> 32).toUInt32, v.toUInt32] else []) offset' := by
  by_cases hn : tsf = .none
  · simp [takeFractional, hn, h, eq_comm]
  · simp only [takeFractional, ne_eq, hn, not_false_eq_true, if_true, bind_eq_ok, Prod.exists,
      take_iff, pure_eq_ok, Except.ok.injEq, Prod.mk.injEq, segment_fractional_iff, if_false,
      true_and]
    constructor
    · rintro ⟨a, mid, ha, b, stop, hb, hv, rfl⟩
      exact ⟨a, mid, b, ha, hb, hv⟩
    · rintro ⟨a, mid, b, ha, hb, hv⟩
      exact ⟨a, mid, ha, b, offset', hb, hv, rfl⟩

/-- A timestamp is read exactly where it was written. -/
theorem takeTimestamp_iff {tsi : Tsi} {tsf : Tsf} {v : Timestamp} (h : offset ≤ wire.length) :
    takeTimestamp tsi tsf wire wire.length offset = .ok (v, offset') ↔
      v.tsi = tsi ∧ v.tsf = tsf ∧ v.onWire = v ∧ Segment wire offset (putTimestamp v) offset' := by
  obtain ⟨vi, vf, integer, fractional⟩ := v
  simp only [putTimestamp, Segment.append_iff, Timestamp.onWire, Timestamp.mk.injEq, true_and,
    takeTimestamp, bind_eq_ok, Prod.exists, pure_eq_ok, Except.ok.injEq, Prod.mk.injEq,
    takeInteger_iff h]
  constructor
  · rintro ⟨i, mid, ⟨hzi, hi⟩, f, stop, hf, ⟨rfl, rfl, rfl, rfl⟩, rfl⟩
    obtain ⟨hzf, hf⟩ := (takeFractional_iff hi.inside).mp hf
    exact ⟨rfl, rfl, ⟨hzi, hzf⟩, mid, hi, hf⟩
  · rintro ⟨rfl, rfl, ⟨hzi, hzf⟩, mid, hi, hf⟩
    exact ⟨integer, mid, ⟨hzi, hi⟩, fractional, offset',
      (takeFractional_iff hi.inside).mpr ⟨hzf, hf⟩, ⟨rfl, rfl, rfl, rfl⟩, rfl⟩

private theorem words_eq_iff {f g : Fin 4 → UInt32} :
    f = g ↔ f 0 = g 0 ∧ f 1 = g 1 ∧ f 2 = g 2 ∧ f 3 = g 3 := by
  constructor
  · rintro rfl
    exact ⟨rfl, rfl, rfl, rfl⟩
  · rintro ⟨h₀, h₁, h₂, h₃⟩
    funext i
    match i with
    | 0 => exact h₀
    | 1 => exact h₁
    | 2 => exact h₂
    | 3 => exact h₃

/-- An identifier agrees with its two CAM bits. -/
def Identifier.Agrees (id : Identifier) (cam : UInt32) (enable uuid : ℕ) : Prop :=
  bit cam enable = decide (id.kind ≠ .absent) ∧
    (id.kind ≠ .absent → bit cam uuid = decide (id.kind = .uuid))

/-- An identifier is taken exactly where it was put, in the form that the CAM announces. -/
theorem takeIdentifier_iff {cam : UInt32} {enable uuid : ℕ} {v : Identifier}
    (h : offset ≤ wire.length) :
    takeIdentifier cam enable uuid wire wire.length offset = .ok (v, offset') ↔
      v.Agrees cam enable uuid ∧ v.onWire = v ∧
        Segment wire offset (putWords v.wireWords) offset' := by
  obtain ⟨kind, words⟩ := v
  rw [Identifier.wireWords_eq]
  cases he : bit cam enable with
  | false =>
    cases kind <;>
      simp [takeIdentifier, Identifier.Agrees, he, Identifier.onWire, Identifier.sizeWords, h]
    exact fun _ => eq_comm
  | true =>
    cases hu : bit cam uuid with
    | false =>
      cases kind <;>
        simp [takeIdentifier, Identifier.Agrees, he, hu, Identifier.onWire, Identifier.sizeWords,
          take_iff, putWords_cons, words_eq_iff, and_comm]
    | true =>
      cases kind <;>
        simp [takeIdentifier, Identifier.Agrees, he, hu, Identifier.onWire, Identifier.sizeWords,
          take_iff, putWords_cons, Segment.append_iff, words_eq_iff]

/-- Both identifiers of a command agree with its CAM word. -/
def Command.Agrees (c : Command) : Prop :=
  c.controllee.Agrees c.cam 31 30 ∧ c.controller.Agrees c.cam 29 28

/-- A command is taken exactly where it was put. -/
theorem takeCommand_iff {present : Bool} {v : Option Command} (h : offset ≤ wire.length) :
    takeCommand present wire wire.length offset = .ok (v, offset') ↔
      v.isSome = present ∧ (∀ c ∈ v, c.Agrees) ∧ v.map Command.onWire = v ∧
        Segment wire offset (v.elim [] putCommand) offset' := by
  cases present with
  | false => cases v <;> simp [takeCommand, h, eq_comm]
  | true =>
    cases v with
    | none => simp [takeCommand]
    | some c =>
      obtain ⟨cam, messageId, controllee, controller⟩ := c
      simp only [takeCommand, if_true, bind_eq_ok, Prod.exists, take_iff, pure_eq_ok,
        Except.ok.injEq, Prod.mk.injEq, Option.some.injEq, Option.isSome_some, true_and,
        Option.mem_def, forall_eq', Option.elim_some, Option.map_some, putCommand, putWords_append,
        Segment.append_iff, segment_pair_iff, Command.Agrees, Command.onWire, Command.mk.injEq]
      constructor
      · rintro ⟨_, i, hcam, _, j, hid, ee, k, hee, er, _, her, ⟨rfl, rfl, rfl, rfl⟩, rfl⟩
        obtain ⟨aee, wee, see⟩ := (takeIdentifier_iff hid.inside).mp hee
        obtain ⟨aer, wer, ser⟩ := (takeIdentifier_iff see.inside).mp her
        exact ⟨⟨aee, aer⟩, ⟨wee, wer⟩, k, ⟨j, ⟨i, hcam, hid⟩, see⟩, ser⟩
      · rintro ⟨⟨aee, aer⟩, ⟨wee, wer⟩, k, ⟨j, ⟨i, hcam, hid⟩, see⟩, ser⟩
        have hee := (takeIdentifier_iff hid.inside).mpr ⟨aee, wee, see⟩
        have her := (takeIdentifier_iff see.inside).mpr ⟨aer, wer, ser⟩
        exact ⟨cam, i, hcam, messageId, j, hid, controllee, k, hee, controller, offset', her,
          ⟨rfl, rfl, rfl, rfl⟩, rfl⟩

end Stages

/-! ## The packed header -/

/-- The header bit 26: a trailer of Data, the acknowledgement of a command. -/
def Envelope.flag26 (e : Envelope) : Bool :=
  if isData e.type then e.trailer else isCommand e.type && e.ack

def Envelope.flag25 (e : Envelope) : Bool := !isCommand e.type && e.nd0

def Envelope.flag24 (e : Envelope) : Bool :=
  if isData e.type then e.spectrum else if isCommand e.type then e.cancel else e.tsm

private theorem toNat_threeFlags : ∀ a b c : Bool,
    ((if a then (1 : UInt32) <<< 26 else 0) ||| (if b then (1 : UInt32) <<< 25 else 0) |||
      (if c then (1 : UInt32) <<< 24 else 0)).toNat =
        a.toNat * 2 ^ 26 + b.toNat * 2 ^ 25 + c.toNat * 2 ^ 24 := by
  decide

theorem toNat_flagBits (e : Envelope) :
    (flagBits e).toNat =
      e.flag26.toNat * 2 ^ 26 + e.flag25.toNat * 2 ^ 25 + e.flag24.toNat * 2 ^ 24 := by
  rw [← toNat_threeFlags, flagBits, Envelope.flag26, Envelope.flag25, Envelope.flag24]
  cases e.type <;> simp [isData, isCommand, PacketType.code]

theorem PacketType.code_le (t : PacketType) : t.code ≤ 7 := by cases t <;> decide

theorem PacketType.ofCode_eq_iff {n : ℕ} (h : n ≤ 7) (t : PacketType) :
    PacketType.ofCode n = t ↔ n = t.code := by
  interval_cases n <;> cases t <;> decide

theorem Tsi.code_le (t : Tsi) : t.code ≤ 3 := by cases t <;> decide

theorem Tsi.ofCode_eq_iff {n : ℕ} (h : n ≤ 3) (t : Tsi) : Tsi.ofCode n = t ↔ n = t.code := by
  interval_cases n <;> cases t <;> decide

theorem Tsf.code_le (t : Tsf) : t.code ≤ 3 := by cases t <;> decide

theorem Tsf.ofCode_eq_iff {n : ℕ} (h : n ≤ 3) (t : Tsf) : Tsf.ofCode n = t ↔ n = t.code := by
  interval_cases n <;> cases t <;> decide

/-- The flags are OR-ed in last; moved to their place, every field lies below the one before it. -/
private theorem or_reorder (a b c d e f g : UInt32) :
    a ||| b ||| c ||| d ||| e ||| f ||| g = a ||| (b ||| (g ||| (c ||| (d ||| (e ||| f))))) := by
  ac_rfl

/-- The header is the sum of its fields. -/
theorem toNat_headerWord {e : Envelope} {size : ℕ} (hcount : e.packetCount.toNat ≤ 15)
    (hsize : size / 4 ≤ 65535) :
    (headerWord e size).toNat =
      e.type.code * 2 ^ 28 + (e.classId.isSome.toNat * 2 ^ 27 + ((flagBits e).toNat +
        (e.timestamp.tsi.code * 2 ^ 22 + (e.timestamp.tsf.code * 2 ^ 20 +
          (e.packetCount.toNat * 2 ^ 16 + size / 4))))) := by
  have htype := e.type.code_le
  have htsi := e.timestamp.tsi.code_le
  have htsf := e.timestamp.tsf.code_le
  have hflag : (flagBits e).toNat ≤ 7 * 2 ^ 24 := by
    rw [toNat_flagBits]
    have := e.flag26.toNat_le
    have := e.flag25.toNat_le
    have := e.flag24.toNat_le
    omega
  have hdvd : 2 ^ 24 ∣ (flagBits e).toNat := by
    rw [toNat_flagBits]
    exact ⟨e.flag26.toNat * 4 + e.flag25.toNat * 2 + e.flag24.toNat, by omega⟩
  have hclass : (if e.classId.isSome then (1 : UInt32) <<< 27 else 0).toNat =
      e.classId.isSome.toNat * 2 ^ 27 := by
    cases e.classId.isSome <;> rfl
  have hclass' := e.classId.isSome.toNat_le
  have hofNat : ∀ n ≤ 65535, (UInt32.ofNat n).toNat = n := fun n hn =>
    UInt32.toNat_ofNat_of_lt' (by rw [UInt32.size]; omega)
  have hlow : ((UInt32.ofNat e.timestamp.tsi.code <<< 22) |||
      ((UInt32.ofNat e.timestamp.tsf.code <<< 20) |||
        ((e.packetCount.toUInt32 <<< 16) ||| UInt32.ofNat (size / 4)))).toNat = _ :=
    toNat_pack 22 (hofNat e.timestamp.tsi.code (by omega))
      (toNat_pack 20 (hofNat e.timestamp.tsf.code (by omega))
        (toNat_pack 16 (UInt8.toNat_toUInt32 e.packetCount) (hofNat _ hsize) rfl (by omega)
          (by omega) (by omega))
        rfl (by omega) (by omega) (by omega))
      rfl (by omega) (by omega) (by omega)
  have hmid : ((if e.classId.isSome then (1 : UInt32) <<< 27 else 0) ||| (flagBits e |||
        ((UInt32.ofNat e.timestamp.tsi.code <<< 22) ||| ((UInt32.ofNat e.timestamp.tsf.code <<< 20) |||
          ((e.packetCount.toUInt32 <<< 16) ||| UInt32.ofNat (size / 4)))))).toNat =
      e.classId.isSome.toNat * 2 ^ 27 + ((flagBits e).toNat + (e.timestamp.tsi.code * 2 ^ 22 +
        (e.timestamp.tsf.code * 2 ^ 20 + (e.packetCount.toNat * 2 ^ 16 + size / 4)))) := by
    rw [UInt32.toNat_or, UInt32.toNat_or, hclass, hlow, or_eq_add 24 hdvd (by omega),
      or_eq_add 27 (Nat.dvd_mul_left ..) (by omega)]
  rw [headerWord, or_reorder]
  exact toNat_pack 28 (hofNat _ (by omega)) hmid rfl (by omega) (by omega) (by omega)

/-- The part of an envelope the header carries. -/
def Envelope.header (e : Envelope) : Envelope :=
  { e with streamId := none, classId := none, command := none
           timestamp := { tsi := e.timestamp.tsi, tsf := e.timestamp.tsf } }

private theorem bit_eq_iff {w : UInt32} {n : ℕ} {b : Bool} :
    bit w n = b ↔ w.toNat / 2 ^ n % 2 = b.toNat := by
  rw [bit_eq]
  have := Nat.mod_two_eq_zero_or_one (w.toNat / 2 ^ n)
  cases b <;> simp

/-- Three flags of the header, read for a family, are the family's own. -/
theorem familyFlags_iff {e : Envelope} {f26 f25 f24 : Bool} (h : familyFlags e) :
    ((isCommand e.type && f25) || (!isData e.type && !isCommand e.type && f26)) = false ∧
      (isData e.type && f26) = e.trailer ∧ (!isCommand e.type && f25) = e.nd0 ∧
      (isData e.type && f24) = e.spectrum ∧
      (!isData e.type && !isCommand e.type && f24) = e.tsm ∧
      (isCommand e.type && f26) = e.ack ∧ (isCommand e.type && f24) = e.cancel ↔
    f26 = e.flag26 ∧ f25 = e.flag25 ∧ f24 = e.flag24 := by
  obtain ⟨type, _, _, _, _, trailer, nd0, spectrum, tsm, ack, cancel, command⟩ := e
  revert h
  simp only [familyFlags, Envelope.flag26, Envelope.flag25, Envelope.flag24]
  cases type <;> simp [isData, isCommand, PacketType.code] <;> intros <;> simp_all <;> grind

/-- A word is the header of an envelope exactly when its fields are the envelope's. -/
theorem headerWord_eq_iff {e : Envelope} {h : UInt32} (size : ℕ)
    (hcount : e.packetCount.toNat ≤ 15) (hfam : familyFlags e) (hsize : size / 4 ≤ 65535)
    (hwords : size % 4 = 0) :
    headerWord e size = h ↔
      bits h 28 4 ≤ 7 ∧ bits h 0 16 * 4 = size ∧ reservedFlag h = false ∧
        bit h 27 = e.classId.isSome ∧ headerEnvelope h = e.header := by
  have hh := h.toNat_lt
  have htype := e.type.code_le
  have htsi := e.timestamp.tsi.code_le
  have htsf := e.timestamp.tsf.code_le
  have h26 := e.flag26.toNat_le
  have h25 := e.flag25.toNat_le
  have h24 := e.flag24.toNat_le
  have hclass := e.classId.isSome.toNat_le
  have hcount' : UInt8.ofNat (bits h 16 4) = e.packetCount ↔ bits h 16 4 = e.packetCount.toNat := by
    rw [← UInt8.toNat_inj, UInt8.toNat_ofNat_of_lt']
    simp only [bits, UInt8.size]
    omega
  have htsi' : Tsi.ofCode (bits h 22 2) = e.timestamp.tsi ↔ bits h 22 2 = e.timestamp.tsi.code :=
    Tsi.ofCode_eq_iff (by simp only [bits]; omega) _
  have htsf' : Tsf.ofCode (bits h 20 2) = e.timestamp.tsf ↔ bits h 20 2 = e.timestamp.tsf.code :=
    Tsf.ofCode_eq_iff (by simp only [bits]; omega) _
  have hfields : headerWord e size = h ↔
      bits h 28 4 = e.type.code ∧ bits h 0 16 * 4 = size ∧ bits h 22 2 = e.timestamp.tsi.code ∧
        bits h 20 2 = e.timestamp.tsf.code ∧ bits h 16 4 = e.packetCount.toNat ∧
        bit h 27 = e.classId.isSome ∧
        (bit h 26 = e.flag26 ∧ bit h 25 = e.flag25 ∧ bit h 24 = e.flag24) := by
    rw [← UInt32.toNat_inj, toNat_headerWord hcount hsize, toNat_flagBits]
    simp only [bit_eq_iff, bits]
    omega
  rw [hfields, ← familyFlags_iff hfam]
  simp only [headerEnvelope, reservedFlag, Envelope.header, Envelope.mk.injEq, Timestamp.mk.injEq,
    true_and, and_true, hcount', htsi', htsf']
  constructor
  · rintro ⟨ht, hs, hi, hf, hc, hcl, hr, hflags⟩
    have hle : bits h 28 4 ≤ 7 := ht ▸ htype
    rw [(PacketType.ofCode_eq_iff hle e.type).mpr ht]
    exact ⟨hle, hs, hr, hcl, rfl, hc, ⟨hi, hf⟩, hflags⟩
  · rintro ⟨hle, hs, hr, hcl, ht, hc, ⟨hi, hf⟩, hflags⟩
    rw [ht] at hr hflags
    exact ⟨(PacketType.ofCode_eq_iff hle e.type).mp ht, hs, hi, hf, hc, hcl, hr, hflags⟩

/-! ## Sizes -/

/-- What `measureEnvelope` accepts, and the size it reports. -/
structure Measured (e : Envelope) (payloadBytes size : ℕ) : Prop where
  count : e.packetCount.toNat ≤ 15
  sid : hasSid e.type = e.streamId.isSome
  classId : ∀ c ∈ e.classId, c.oui ≤ 0xffffff ∧ c.padBits ≤ 31
  family : familyFlags e
  command : ∀ c ∈ e.command, validateCam e c.cam = .ok () ∧ checkId c.cam c.controllee 31 30 ∧
    checkId c.cam c.controller 29 28
  words : payloadBytes % 4 = 0
  payload : isData e.type → payloadBytes ≠ 0
  size_eq : size = (prologue e size).length + payloadBytes + (if e.trailer then 4 else 0)
  fits : size / 4 ≤ 65535

theorem Identifier.length_wireWords (id : Identifier) : id.wireWords.length = id.sizeWords := by
  rw [Identifier.wireWords_eq, Identifier.sizeWords]
  cases id.kind <;> rfl

/-- The length of a prologue is the sum of the parts that are present. -/
theorem length_prologue (e : Envelope) (size : ℕ) :
    (prologue e size).length = 4 * (1 + (if e.streamId.isSome then 1 else 0) +
      (if e.classId.isSome then 2 else 0) + (if e.timestamp.tsi ≠ .none then 1 else 0) +
      (if e.timestamp.tsf ≠ .none then 2 else 0) +
      (e.command.elim 0 fun c => 2 + c.controllee.sizeWords + c.controller.sizeWords)) := by
  have hsid : (e.streamId.elim [] be32).length = 4 * (if e.streamId.isSome then 1 else 0) := by
    cases e.streamId <;> rfl
  have hclass : (e.classId.elim [] putClassId).length = 4 * (if e.classId.isSome then 2 else 0) := by
    cases e.classId <;> simp [putClassId]
  have htime : (putTimestamp e.timestamp).length =
      4 * ((if e.timestamp.tsi ≠ .none then 1 else 0) +
        (if e.timestamp.tsf ≠ .none then 2 else 0)) := by
    unfold putTimestamp
    split <;> split <;> simp
  have hcommand : (e.command.elim [] putCommand).length =
      4 * (e.command.elim 0 fun c => 2 + c.controllee.sizeWords + c.controller.sizeWords) := by
    cases e.command with
    | none => rfl
    | some c =>
      simp only [Option.elim_some, putCommand, length_putWords, List.length_append,
        Identifier.length_wireWords, List.length_cons, List.length_nil]
  simp only [prologue, List.length_append, length_be32, hsid, hclass, htime, hcommand]
  omega

/-- A command is measured exactly if its CAM and its identifiers are valid. -/
theorem measureCommand_eq_ok {e : Envelope} {n : ℕ} :
    measureCommand e = .ok n ↔
      (∀ c ∈ e.command, validateCam e c.cam = .ok () ∧ checkId c.cam c.controllee 31 30 ∧
        checkId c.cam c.controller 29 28) ∧
      n = e.command.elim 0 fun c => 2 + c.controllee.sizeWords + c.controller.sizeWords := by
  unfold measureCommand
  cases e.command with
  | none =>
    simp only [pure_eq_ok, Except.ok.injEq, Option.elim_none]
    exact ⟨fun h => ⟨by simp, h.symm⟩, fun h => h.2.symm⟩
  | some c =>
    simp only [bind_eq_ok, rejectIf_eq_ok, not_not, pure_eq_ok, Except.ok.injEq, Option.mem_def,
      Option.some.injEq, forall_eq', Option.elim_some]
    constructor
    · rintro ⟨_, hcam, _, hids, rfl⟩
      exact ⟨⟨hcam, hids⟩, rfl⟩
    · rintro ⟨⟨hcam, hids⟩, rfl⟩
      exact ⟨(), hcam, (), hids, rfl⟩

/-- The measure of an envelope, and when it is given. -/
theorem measureEnvelope_eq_ok {e : Envelope} {payloadBytes size : ℕ} :
    measureEnvelope e payloadBytes = .ok size ↔ Measured e payloadBytes size := by
  simp only [measureEnvelope, bind_eq_ok, rejectIf_eq_ok, pure_eq_ok, Except.ok.injEq,
    measureCommand_eq_ok, checkedAdd_eq_ok]
  have htrailer : (if e.trailer then 4 else 0) = 4 * (if e.trailer then 1 else 0) := by
    cases e.trailer <;> rfl
  constructor
  · rintro ⟨_, hcount, _, hsid, _, hclass, _, hfam, _, hmod, _, hdata, c, ⟨hcommand, rfl⟩, total,
      ⟨-, rfl⟩, _, htotal, rfl⟩
    have hsid' : hasSid e.type = e.streamId.isSome := not_not.mp hsid
    refine ⟨?_, hsid', ?_, not_not.mp hfam, hcommand, by omega, ?_, ?_, by omega⟩
    · simpa [UInt8.lt_iff_toNat_lt] using hcount
    · intro c hc
      simp only [Option.mem_def, not_exists, not_and, not_or, UInt32.not_lt, UInt8.not_lt,
        gt_iff_lt] at hclass
      exact hclass c hc
    · intro hd hp
      exact hdata ⟨hd, hp⟩
    · rw [length_prologue, hsid', htrailer]
      omega
  · intro h
    have hsize := h.size_eq
    rw [length_prologue, ← h.sid, htrailer] at hsize
    have hfits := h.fits
    have hwords := h.words
    refine ⟨(), ?_, (), by simpa using h.sid, (), ?_, (), by simpa using h.family, (), by simpa using
      h.words, (), ?_, _, ⟨h.command, rfl⟩, _, ⟨?_, rfl⟩, (), ?_, ?_⟩
    · have := h.count
      simpa [UInt8.lt_iff_toNat_lt] using this
    · rintro ⟨c, hc, hbad⟩
      have hok := h.classId c hc
      simp only [gt_iff_lt, UInt32.lt_iff_toNat_lt, UInt8.lt_iff_toNat_lt] at hbad
      simp only [UInt32.le_iff_toNat_le, UInt8.le_iff_toNat_le] at hok
      omega
    · rintro ⟨hd, hp⟩
      exact h.payload hd hp
    · rw [sizeMax]
      omega
    · omega
    · omega

theorem Measured.size_words {e : Envelope} {n size : ℕ} (h : Measured e n size) : size % 4 = 0 := by
  have hsize := h.size_eq
  have hwords := h.words
  have htrailer : (if e.trailer then 4 else 0) % 4 = 0 := by
    cases e.trailer <;> rfl
  rw [length_prologue] at hsize
  omega

/-! ## The whole envelope -/

/-- An accepted identifier agrees with its CAM bits. -/
theorem Identifier.agrees_of_checkId {cam : UInt32} {id : Identifier} {enable uuid : ℕ}
    (h : checkId cam id enable uuid) : id.Agrees cam enable uuid := by
  simp only [checkId, Bool.decide_and, Bool.and_eq_true, decide_eq_true_eq] at h
  obtain ⟨henable, huuid, -⟩ := h
  refine ⟨?_, fun hk => ?_⟩
  · rw [Bool.eq_iff_iff, henable, decide_eq_true_iff]
  · rw [Bool.eq_iff_iff, huuid hk, decide_eq_true_iff]

/-- The prologue of an acceptable envelope is read from exactly the bytes written for it. -/
theorem decodePrologue_iff {wire : Bytes} {e : Envelope} {offset n m : ℕ} (hm : Measured e n m) :
    decodePrologue wire = .ok (e, offset) ↔
      wire.length % 4 = 0 ∧ wire.length / 4 ≤ 65535 ∧ e.onWire = e ∧
        Segment wire 0 (prologue e wire.length) offset := by
  simp only [decodePrologue, bind_eq_ok, rejectIf_eq_ok, load32_eq_ok, Prod.exists, pure_eq_ok,
    Except.ok.injEq, Prod.mk.injEq]
  constructor
  · rintro ⟨_, -, w, hword, _, htype, _, -, _, hsize, _, hres, sid, o₁, hsid, cls, o₂, hcls,
      ts, o₃, hts, cmd, o₄, hcmd, rfl, rfl⟩
    have hsize' : bits w 0 16 * 4 = wire.length := not_not.mp hsize
    rw [hsize'] at hsid hcls hts hcmd
    have hhead : Segment wire 0 (be32 w) 4 := Segment.word_iff.mpr ⟨hword, rfl⟩
    obtain ⟨-, ssid⟩ := (takeStreamId_iff hhead.inside).mp hsid
    obtain ⟨hcls, -, scls⟩ := (takeClassId_iff ssid.inside).mp hcls
    obtain ⟨htsi, htsf, htsw, sts⟩ := (takeTimestamp_iff scls.inside).mp hts
    obtain ⟨-, -, hcmdw, scmd⟩ := (takeCommand_iff sts.inside).mp hcmd
    have hbits : bits w 0 16 ≤ 65535 := by
      simp only [bits]
      omega
    have hword := (headerWord_eq_iff (h := w) wire.length hm.count hm.family (by omega)
      (by omega)).mpr ⟨by omega, hsize', by simpa using hres, hcls.symm, ?_⟩
    · refine ⟨by omega, by omega, ?_, ?_⟩
      · simp only [Envelope.onWire, htsw, hcmdw]
      · rw [prologue, hword]
        exact hhead.append (ssid.append (scls.append (sts.append scmd)))
    · simp only [Envelope.header, htsi, htsf]
      rfl
  · rintro ⟨hmod, hfits, hwire, hseg⟩
    rw [prologue, Segment.append_iff] at hseg
    obtain ⟨o, shead, hseg⟩ := hseg
    obtain ⟨hword, rfl⟩ := Segment.word_iff.mp shead
    simp only [Segment.append_iff] at hseg
    obtain ⟨o₁, ssid, o₂, scls, o₃, sts, scmd⟩ := hseg
    obtain ⟨htype, hsize, hres, hcls, hhead⟩ :=
      (headerWord_eq_iff wire.length hm.count hm.family hfits hmod).mp rfl
    have hlen := shead.inside
    have hcommand : e.command.isSome = isCommand e.type := by
      have hfam := hm.family
      revert hfam
      unfold familyFlags
      cases e.type <;> cases e.command <;> simp [isData, isCommand, PacketType.code]
    have hagrees : ∀ c ∈ e.command, c.Agrees := fun c hc =>
      ⟨Identifier.agrees_of_checkId (hm.command c hc).2.1,
        Identifier.agrees_of_checkId (hm.command c hc).2.2⟩
    obtain ⟨type, count, sid, cls, ts, trailer, nd0, spectrum, tsm, ack, cancel, cmd⟩ := e
    simp only [Envelope.onWire, Envelope.mk.injEq, true_and] at hwire
    refine ⟨(), by omega, _, hword, (), by omega, (), by omega, (), by omega, (), by simp [hres],
      sid, o₁, ?_, cls, o₂, ?_, ts, o₃, ?_, cmd, offset, ?_, ?_, rfl⟩
    · rw [hsize, hhead, takeStreamId_iff shead.inside]
      exact ⟨hm.sid.symm, ssid⟩
    · rw [hsize, takeClassId_iff ssid.inside]
      exact ⟨hcls.symm, hm.classId, scls⟩
    · rw [hsize, hhead, takeTimestamp_iff scls.inside]
      exact ⟨rfl, rfl, hwire.1, sts⟩
    · rw [hsize, hhead, takeCommand_iff sts.inside]
      exact ⟨hcommand, hagrees, hwire.2, scmd⟩
    · rw [hhead]
      rfl

/-- A trailer is read exactly where it was written. -/
theorem takeTrailer_iff {wire : Bytes} {present : Bool} {t : Option UInt32} (offset : ℕ)
    (hroom : (if present then 4 else 0) ≤ wire.length - offset) (hoff : offset ≤ wire.length) :
    takeTrailer present wire = .ok t ↔ present = t.isSome ∧
      wire.drop (wire.length - (if present then 4 else 0)) = t.elim [] be32 := by
  cases present with
  | false => cases t <;> simp [takeTrailer]
  | true =>
    simp only [if_true] at hroom
    cases t with
    | none => simp [takeTrailer]
    | some w =>
      have hend : wire.length - 4 + 4 = wire.length := by omega
      simp [takeTrailer, wordAt_eq_some_iff, hend]

/-- `v` is what `wire` encodes: an envelope in wire form with its payload and trailer. -/
structure Encodes (wire : Bytes) (v : EnvelopeView) : Prop where
  wire_eq : v.wire = wire
  onWire : v.envelope.onWire = v.envelope
  trailer : v.envelope.trailer = v.trailer.isSome
  measured : Measured v.envelope v.payload.length wire.length
  offset : v.payloadOffset = (prologue v.envelope wire.length).length
  bytes : wire = prologue v.envelope wire.length ++ (v.payload ++ v.trailer.elim [] be32)

/-- The accepted inputs are the encodings of wire forms. -/
theorem decodeEnvelope_eq_ok {wire : Bytes} {v : EnvelopeView} :
    decodeEnvelope wire = .ok v ↔ Encodes wire v := by
  simp only [decodeEnvelope, bind_eq_ok, rejectIf_eq_ok, Prod.exists, pure_eq_ok, Except.ok.injEq,
    Result.decoded_eq_ok, measureEnvelope_eq_ok]
  constructor
  · rintro ⟨e, offset, hpro, _, hroom, m, hm, t, ht, rfl⟩
    obtain ⟨hmod, hfits, hwire, hseg⟩ := (decodePrologue_iff hm).mp hpro
    have hoff := hseg.inside
    have hroom' : (if e.trailer then 4 else 0) ≤ wire.length - offset := by omega
    obtain ⟨hpresent, ht⟩ := (takeTrailer_iff offset hroom' hoff).mp ht
    have hpayload : ((wire.drop offset).take
        (wire.length - offset - (if e.trailer then 4 else 0))).length =
          wire.length - offset - (if e.trailer then 4 else 0) := by
      rw [List.length_take, List.length_drop]
      omega
    have hm' : m = wire.length := by
      have hsize := hm.size_eq
      rw [hpayload, length_prologue, ← length_prologue e wire.length] at hsize
      have hstop := hseg.stop_eq
      omega
    refine ⟨rfl, hwire, hpresent, hm' ▸ hm, ?_, ?_⟩
    · rw [hseg.stop_eq, Nat.zero_add]
    · have hend : offset + (wire.length - offset - (if e.trailer then 4 else 0)) =
          wire.length - (if e.trailer then 4 else 0) := by omega
      have hsplit := hseg.split
      rw [List.drop_zero] at hsplit
      rw [← ht, ← hend, ← List.drop_drop, List.take_append_drop]
      exact hsplit
  · intro h
    obtain ⟨e, p, t, offset, w⟩ := v
    obtain ⟨rfl, hwire, htrailer, hm, hoffset, hbytes⟩ := h
    simp only at hwire htrailer hm hbytes hoffset ⊢
    subst hoffset
    have htr : (t.elim [] be32).length = if e.trailer then 4 else 0 := by
      rw [htrailer]
      cases t <;> rfl
    have hlen := congrArg List.length hbytes
    rw [List.length_append, List.length_append, htr] at hlen
    have hseg : Segment w 0 (prologue e w.length) (prologue e w.length).length := by
      obtain ⟨j, hj, -⟩ := Segment.append_iff.mp (Segment.whole_iff.mpr hbytes)
      have hstop := hj.stop_eq
      rw [Nat.zero_add] at hstop
      exact hstop ▸ hj
    have hdrop : w.drop (prologue e w.length).length = p ++ t.elim [] be32 := by
      have hsplit := hseg.split
      rw [List.drop_zero] at hsplit
      exact List.append_cancel_left (hsplit.symm.trans hbytes)
    have hpay : w.length - (prologue e w.length).length - (if e.trailer then 4 else 0) = p.length := by
      omega
    refine ⟨e, _, (decodePrologue_iff hm).mpr ⟨hm.size_words, hm.fits, hwire, hseg⟩, (), by omega, w.length,
      ?_, t, ?_, ?_⟩
    · rw [hpay, hdrop, List.take_left]
      exact hm
    · refine (takeTrailer_iff (prologue e w.length).length (by omega) hseg.inside).mpr
        ⟨htrailer, ?_⟩
      have hend : w.length - (if e.trailer then 4 else 0) =
          (prologue e w.length).length + p.length := by omega
      rw [hend, ← List.drop_drop, hdrop, List.drop_left]
    · rw [hpay, hdrop, List.take_left]

/-! ## Encoding and decoding invert each other -/

/-- What an encoded envelope consists of, and when it is given. -/
theorem encodeEnvelope_eq_ok {e : Envelope} {payload : Bytes} {trailer : Option UInt32}
    {capacity : ℕ} {out : Bytes} :
    encodeEnvelope e payload trailer capacity = .ok out ↔
      e.trailer = trailer.isSome ∧ Measured e payload.length out.length ∧ out.length ≤ capacity ∧
        out = prologue e out.length ++ (payload ++ trailer.elim [] be32) := by
  simp only [encodeEnvelope, bind_eq_ok, rejectIf_eq_ok, pure_eq_ok, Except.ok.injEq,
    measureEnvelope_eq_ok, not_not, Nat.not_lt]
  constructor
  · rintro ⟨_, htrailer, size, hm, _, hcap, rfl⟩
    have hlen : (prologue e size ++ (payload ++ trailer.elim [] be32)).length = size := by
      have hsize := hm.size_eq
      have htr : (trailer.elim [] be32).length = if e.trailer then 4 else 0 := by
        rw [htrailer]
        cases trailer <;> rfl
      rw [List.length_append, List.length_append, htr]
      omega
    rw [hlen]
    exact ⟨htrailer, hm, hcap, rfl⟩
  · rintro ⟨htrailer, hm, hcap, hout⟩
    exact ⟨(), htrailer, _, hm, (), hcap, hout.symm⟩

theorem prologue_onWire (e : Envelope) (size : ℕ) : prologue e.onWire size = prologue e size := by
  have hheader : headerWord e.onWire size = headerWord e size := rfl
  have htime : putTimestamp e.onWire.timestamp = putTimestamp e.timestamp :=
    putTimestamp_onWire e.timestamp
  have hcommand : e.onWire.command.elim [] putCommand = e.command.elim [] putCommand := by
    simp only [Envelope.onWire]
    cases e.command <;> simp
  rw [prologue, prologue, hheader, htime, hcommand]
  rfl

theorem checkId_onWire (cam : UInt32) (id : Identifier) (enable uuid : ℕ) :
    checkId cam id.onWire enable uuid = checkId cam id enable uuid := by
  cases h : id.kind <;>
    simp [checkId, Identifier.onWire, h, Identifier.sizeWords]

/-- The size checks see only what is on the wire. -/
theorem Measured.onWire {e : Envelope} {n size : ℕ} (h : Measured e n size) :
    Measured e.onWire n size where
  count := h.count
  sid := h.sid
  classId := h.classId
  family := by
    have hfam := h.family
    simp only [familyFlags, Envelope.onWire, Option.isSome_map, Option.isNone_map] at hfam ⊢
    exact hfam
  command := by
    intro c hc
    simp only [Envelope.onWire, Option.mem_def, Option.map_eq_some_iff] at hc
    obtain ⟨c', hc', rfl⟩ := hc
    obtain ⟨hcam, hee, her⟩ := h.command c' hc'
    refine ⟨hcam, ?_, ?_⟩
    · rw [← hee]
      exact checkId_onWire ..
    · rw [← her]
      exact checkId_onWire ..
  words := h.words
  payload := h.payload
  size_eq := by
    rw [prologue_onWire]
    exact h.size_eq
  fits := h.fits

/-- What an encoding is read as. -/
theorem decodeEnvelope_encodeEnvelope {e : Envelope} {payload : Bytes} {trailer : Option UInt32}
    {capacity : ℕ} {out : Bytes} (h : encodeEnvelope e payload trailer capacity = .ok out) :
    ∃ v, decodeEnvelope out = .ok v ∧ v.envelope = e.onWire ∧ v.payload = payload ∧
      v.trailer = trailer := by
  obtain ⟨htrailer, hm, -, hout⟩ := encodeEnvelope_eq_ok.mp h
  refine ⟨{ envelope := e.onWire, payload, trailer,
            payloadOffset := (prologue e.onWire out.length).length, wire := out },
    decodeEnvelope_eq_ok.mpr ⟨rfl, e.onWire_onWire, htrailer, hm.onWire, rfl, ?_⟩, rfl, rfl, rfl⟩
  simp only [prologue_onWire]
  exact hout

/-- Decoding and encoding are inverse to each other: every accepted byte string is written again by
`encodeEnvelope` from its view, and everything `encodeEnvelope` writes is read back, with the parts
that are not on the wire read as zero. -/
theorem decode_encode_inverse :
    (∀ (wire : Bytes) (v : EnvelopeView) (capacity : ℕ),
      decodeEnvelope wire = .ok v → wire.length ≤ capacity →
        encodeEnvelope v.envelope v.payload v.trailer capacity = .ok wire) ∧
    (∀ (e : Envelope) (payload : Bytes) (trailer : Option UInt32) (capacity : ℕ) (out : Bytes),
      encodeEnvelope e payload trailer capacity = .ok out →
        ∃ v, decodeEnvelope out = .ok v ∧ v.envelope = e.onWire ∧ v.payload = payload ∧
          v.trailer = trailer) := by
  constructor
  · intro wire v capacity hdec hcap
    have h := decodeEnvelope_eq_ok.mp hdec
    exact encodeEnvelope_eq_ok.mpr ⟨h.trailer, h.measured, hcap, h.bytes⟩
  · intro e payload trailer capacity out henc
    exact decodeEnvelope_encodeEnvelope henc

/-- A signal packet of three words. -/
theorem decode_encode_inverse_signal :
    encodeEnvelope { streamId := some 7 } [1, 2, 3, 4] none 12 =
      .ok [0x10, 0, 0, 3, 0, 0, 0, 7, 1, 2, 3, 4] ∧
    ∃ v, decodeEnvelope [0x10, 0, 0, 3, 0, 0, 0, 7, 1, 2, 3, 4] = .ok v ∧
      v.envelope = ({ streamId := some 7 } : Envelope).onWire ∧ v.payload = [1, 2, 3, 4] ∧
      v.trailer = none ∧ encodeEnvelope v.envelope v.payload v.trailer 12 =
        .ok [0x10, 0, 0, 3, 0, 0, 0, 7, 1, 2, 3, 4] := by
  have henc : encodeEnvelope { streamId := some 7 } [1, 2, 3, 4] none 12 =
      .ok [0x10, 0, 0, 3, 0, 0, 0, 7, 1, 2, 3, 4] := by decide
  obtain ⟨v, hdec, he, hp, ht⟩ := decode_encode_inverse.2 _ _ _ _ _ henc
  exact ⟨henc, v, hdec, he, hp, ht, decode_encode_inverse.1 _ v 12 hdec (by decide)⟩

end Vita.Codec
