import Vita.Core.Error
import Mathlib.Data.Fin.VecNotation
import Mathlib.Data.Fintype.Defs
import Mathlib.Data.Fintype.Basic

/-!
# The packet envelope (`codec/wire.hpp`)

The prologue shared by all packet families: header, stream identifier, class identifier, timestamps,
the command words with their identifiers, and the optional trailer. Enumerations are inductive types,
so the range checks of the C++ code on `PacketType`, `Tsi`, `Tsf` and `IdentifierKind` have no
counterpart here. An encoder writes its words one after the other; the model returns the bytes
written.
-/

namespace Vita.Codec

open Words Checked

inductive PacketType where
  | signalWithoutSid | signal | extensionWithoutSid | extensionData | context | extensionContext
  | command | extensionCommand
deriving DecidableEq, Repr

/-- The wire code of a packet type. -/
def PacketType.code : PacketType → ℕ
  | .signalWithoutSid => 0
  | .signal => 1
  | .extensionWithoutSid => 2
  | .extensionData => 3
  | .context => 4
  | .extensionContext => 5
  | .command => 6
  | .extensionCommand => 7

/-- `static_cast<PacketType>` of a checked code. -/
def PacketType.ofCode : ℕ → PacketType
  | 0 => .signalWithoutSid
  | 1 => .signal
  | 2 => .extensionWithoutSid
  | 3 => .extensionData
  | 4 => .context
  | 5 => .extensionContext
  | 6 => .command
  | _ => .extensionCommand

inductive Tsi where
  | none | utc | gps | other
deriving DecidableEq, Repr

def Tsi.code : Tsi → ℕ
  | .none => 0
  | .utc => 1
  | .gps => 2
  | .other => 3

def Tsi.ofCode : ℕ → Tsi
  | 0 => .none
  | 1 => .utc
  | 2 => .gps
  | _ => .other

inductive Tsf where
  | none | sampleCount | picoseconds | freeRunning
deriving DecidableEq, Repr

def Tsf.code : Tsf → ℕ
  | .none => 0
  | .sampleCount => 1
  | .picoseconds => 2
  | .freeRunning => 3

def Tsf.ofCode : ℕ → Tsf
  | 0 => .none
  | 1 => .sampleCount
  | 2 => .picoseconds
  | _ => .freeRunning

structure Timestamp where
  tsi : Tsi := .none
  tsf : Tsf := .none
  integer : UInt32 := 0
  fractional : UInt64 := 0
deriving DecidableEq, Repr

structure ClassId where
  oui : UInt32 := 0
  informationClass : UInt16 := 0
  packetClass : UInt16 := 0
  padBits : UInt8 := 0
deriving DecidableEq, Repr

inductive IdentifierKind where
  | absent | shortId | uuid
deriving DecidableEq, Repr

structure Identifier where
  kind : IdentifierKind := .absent
  words : Fin 4 → UInt32 := fun _ => 0
deriving DecidableEq

def Identifier.sizeWords (id : Identifier) : ℕ :=
  match id.kind with
  | .absent => 0
  | .shortId => 1
  | .uuid => 4

/-- The identifier words that are on the wire. -/
def Identifier.wireWords (id : Identifier) : List UInt32 :=
  (List.ofFn id.words).take id.sizeWords

structure Command where
  cam : UInt32 := 0
  messageId : UInt32 := 0
  controllee : Identifier := {}
  controller : Identifier := {}
deriving DecidableEq

structure Envelope where
  type : PacketType := .signal
  packetCount : UInt8 := 0
  streamId : Option UInt32 := none
  classId : Option ClassId := none
  timestamp : Timestamp := {}
  trailer : Bool := false
  nd0 : Bool := false
  spectrum : Bool := false
  tsm : Bool := false
  ack : Bool := false
  cancel : Bool := false
  command : Option Command := none
deriving DecidableEq

def isData (t : PacketType) : Bool := t.code ≤ 3

def isCommand (t : PacketType) : Bool := t.code ≥ 6

def isExtension (t : PacketType) : Bool :=
  t = .extensionWithoutSid ∨ t = .extensionData ∨ t = .extensionContext ∨ t = .extensionCommand

/-- Every family but the two without one carries a stream identifier. -/
def hasSid (t : PacketType) : Bool := t.code ≠ 0 ∧ t.code ≠ 2

def invalidArgument : Error := { code := .invalidArgument }

/-- The number of set bits among the three acknowledgement bits of a CAM word. -/
def ackBits (cam : UInt32) : ℕ :=
  (bit cam 18).toNat + (bit cam 19).toNat + (bit cam 20).toNat

/-- `validate_cam`, with the CAM word the envelope's command holds. -/
def validateCam (e : Envelope) (cam : UInt32) : Result Unit := do
  let reserved : UInt32 := ((1 : UInt32) <<< 21) ||| ((1 : UInt32) <<< 15) |||
    (if e.ack then 0x300 else 0xf00) ||| (if e.type = .extensionCommand then 1 else 0xff)
  rejectIf (cam &&& reserved ≠ 0) invalidArgument
  rejectIf (bits cam 23 2 = 3) invalidArgument
  let timing := bits cam 12 3
  rejectIf (timing > 4 ∧ ¬(e.ack ∧ timing = 7)) invalidArgument
  -- Ack timing refers to the original Control, whose timestamp an Ack may omit.
  rejectIf (timing ≠ 0 ∧ ¬e.ack ∧ e.timestamp.tsi = .none ∧ e.timestamp.tsf = .none) invalidArgument
  rejectIf (e.ack ∧ ackBits cam ≠ 1) invalidArgument
  rejectIf (e.ack ∧ bit cam 18 ∧ (bit cam 17 ∨ bit cam 16)) invalidArgument
  rejectIf (e.cancel ∧ ¬e.ack ∧ (bits cam 23 2 ≠ 2 ∨ ¬bit cam 27 ∨ bit cam 20 ∨
    (bit cam 18 ∧ ¬bit cam 19))) invalidArgument

/-- An identifier agrees with its two CAM bits; the type bit is ignored when the enable is absent. -/
def checkId (cam : UInt32) (id : Identifier) (enable uuid : ℕ) : Bool :=
  bit cam enable = (id.kind ≠ .absent) ∧
    (id.kind ≠ .absent → bit cam uuid = (id.kind = .uuid)) ∧
    (id.kind = .uuid → id.words 0 ||| id.words 1 ||| id.words 2 ||| id.words 3 ≠ 0)

/-- The flags a family does not carry are clear, and only commands have command words. -/
def familyFlags (e : Envelope) : Bool :=
  if isData e.type then !(e.ack || e.cancel || e.tsm || e.command.isSome)
  else if isCommand e.type then
    !(e.trailer || e.nd0 || e.spectrum || e.tsm || e.command.isNone)
  else !(e.trailer || e.ack || e.cancel || e.spectrum || e.command.isSome)

/-- The words of a command, with its identifiers checked. -/
def measureCommand (e : Envelope) : Result ℕ :=
  match e.command with
  | none => return 0
  | some c => do
    validateCam e c.cam
    rejectIf (¬(checkId c.cam c.controllee 31 30 ∧ checkId c.cam c.controller 29 28)) invalidArgument
    return 2 + c.controllee.sizeWords + c.controller.sizeWords

def measureEnvelope (e : Envelope) (payloadBytes : ℕ) : Result ℕ := do
  rejectIf (e.packetCount > 15) invalidArgument
  rejectIf (hasSid e.type ≠ e.streamId.isSome) invalidArgument
  rejectIf (∃ c ∈ e.classId, c.oui > 0xffffff ∨ c.padBits > 31) invalidArgument
  rejectIf (¬familyFlags e) invalidArgument
  rejectIf (payloadBytes % 4 ≠ 0) invalidArgument
  rejectIf (isData e.type ∧ payloadBytes = 0) invalidArgument
  let command ← measureCommand e
  let words := 1 + (if hasSid e.type then 1 else 0) + (if e.classId.isSome then 2 else 0) +
    (if e.timestamp.tsi ≠ .none then 1 else 0) + (if e.timestamp.tsf ≠ .none then 2 else 0) +
    (if e.trailer then 1 else 0) + command
  let total ← checkedAdd words (payloadBytes / 4)
  rejectIf (total > 65535) { code := .overflow }
  return total * 4

/-! ## Encoding -/

/-- The three family-dependent header flags. -/
def flagBits (e : Envelope) : UInt32 :=
  if isData e.type then
    (if e.trailer then (1 : UInt32) <<< 26 else 0) ||| (if e.nd0 then (1 : UInt32) <<< 25 else 0) |||
      (if e.spectrum then (1 : UInt32) <<< 24 else 0)
  else if isCommand e.type then
    (if e.ack then (1 : UInt32) <<< 26 else 0) ||| (if e.cancel then (1 : UInt32) <<< 24 else 0)
  else (if e.nd0 then (1 : UInt32) <<< 25 else 0) ||| (if e.tsm then (1 : UInt32) <<< 24 else 0)

def headerWord (e : Envelope) (size : ℕ) : UInt32 :=
  (UInt32.ofNat e.type.code <<< 28) ||| (if e.classId.isSome then (1 : UInt32) <<< 27 else 0) |||
    (UInt32.ofNat e.timestamp.tsi.code <<< 22) ||| (UInt32.ofNat e.timestamp.tsf.code <<< 20) |||
    (e.packetCount.toUInt32 <<< 16) ||| UInt32.ofNat (size / 4) ||| flagBits e

def putWords (ws : List UInt32) : Bytes := ws.flatMap be32

def putClassId (c : ClassId) : Bytes :=
  putWords [(c.padBits.toUInt32 <<< 27) ||| c.oui,
    (c.informationClass.toUInt32 <<< 16) ||| c.packetClass.toUInt32]

def putTimestamp (t : Timestamp) : Bytes :=
  (if t.tsi ≠ .none then be32 t.integer else []) ++
    (if t.tsf ≠ .none then putWords [(t.fractional >>> 32).toUInt32, t.fractional.toUInt32] else [])

def putCommand (c : Command) : Bytes :=
  putWords ([c.cam, c.messageId] ++ c.controllee.wireWords ++ c.controller.wireWords)

/-- Everything before the payload. -/
def prologue (e : Envelope) (size : ℕ) : Bytes :=
  be32 (headerWord e size) ++ (e.streamId.elim [] be32 ++ (e.classId.elim [] putClassId ++
    (putTimestamp e.timestamp ++ e.command.elim [] putCommand)))

/-- `encode_envelope` into an output of `capacity` bytes; the bytes written. -/
def encodeEnvelope (e : Envelope) (payload : Bytes) (trailer : Option UInt32) (capacity : ℕ) :
    Result Bytes := do
  rejectIf (e.trailer ≠ trailer.isSome) invalidArgument
  let size ← measureEnvelope e payload.length
  rejectIf (capacity < size) { code := .shortOutput, offset := 0, requiredCapacity := size }
  return prologue e size ++ (payload ++ trailer.elim [] be32)

/-! ## Decoding -/

structure EnvelopeView where
  envelope : Envelope := {}
  payload : Bytes := []
  trailer : Option UInt32 := none
  payloadOffset : ℕ := 0
  wire : Bytes := []
deriving DecidableEq

/-- Read the word at `offset` and move past it. -/
def take (wire : Bytes) (size offset : ℕ) : Decoded (UInt32 × ℕ) := do
  rejectIf (offset > size ∨ size - offset < 4)
    (Fault.error { code := .shortInput, offset := offset, requiredCapacity := offset + 4 })
  let value ← load32 wire offset
  return (value, offset + 4)

def takeStreamId (present : Bool) (wire : Bytes) (size offset : ℕ) :
    Decoded (Option UInt32 × ℕ) := do
  if present then
    let (v, offset) ← take wire size offset
    return (some v, offset)
  else return (none, offset)

def takeClassId (present : Bool) (wire : Bytes) (size offset : ℕ) :
    Decoded (Option ClassId × ℕ) := do
  if present then
    let (a, offset) ← take wire size offset
    let (b, offset) ← take wire size offset
    rejectIf (a &&& 0x07000000 ≠ 0)
      (Fault.error { code := .invalidArgument, offset := offset - 8 })
    return (some { oui := a &&& 0xffffff, informationClass := (b >>> 16).toUInt16,
                   packetClass := b.toUInt16, padBits := (a >>> 27).toUInt8 }, offset)
  else return (none, offset)

def takeInteger (tsi : Tsi) (wire : Bytes) (size offset : ℕ) : Decoded (UInt32 × ℕ) :=
  if tsi ≠ .none then take wire size offset else return (0, offset)

def takeFractional (tsf : Tsf) (wire : Bytes) (size offset : ℕ) : Decoded (UInt64 × ℕ) := do
  if tsf ≠ .none then
    let (a, offset) ← take wire size offset
    let (b, offset) ← take wire size offset
    return ((a.toUInt64 <<< 32) ||| b.toUInt64, offset)
  else return (0, offset)

def takeTimestamp (tsi : Tsi) (tsf : Tsf) (wire : Bytes) (size offset : ℕ) :
    Decoded (Timestamp × ℕ) := do
  let (integer, offset) ← takeInteger tsi wire size offset
  let (fractional, offset) ← takeFractional tsf wire size offset
  return ({ tsi, tsf, integer, fractional }, offset)

def takeIdentifier (cam : UInt32) (enable uuid : ℕ) (wire : Bytes) (size offset : ℕ) :
    Decoded (Identifier × ℕ) := do
  if bit cam enable then
    if bit cam uuid then
      let (a, offset) ← take wire size offset
      let (b, offset) ← take wire size offset
      let (c, offset) ← take wire size offset
      let (d, offset) ← take wire size offset
      return ({ kind := .uuid, words := ![a, b, c, d] }, offset)
    else
      let (a, offset) ← take wire size offset
      return ({ kind := .shortId, words := ![a, 0, 0, 0] }, offset)
  else return ({}, offset)

def takeCommand (present : Bool) (wire : Bytes) (size offset : ℕ) :
    Decoded (Option Command × ℕ) := do
  if present then
    let (cam, offset) ← take wire size offset
    let (messageId, offset) ← take wire size offset
    let (controllee, offset) ← takeIdentifier cam 31 30 wire size offset
    let (controller, offset) ← takeIdentifier cam 29 28 wire size offset
    return (some { cam, messageId, controllee, controller }, offset)
  else return (none, offset)

/-- The header's own part of the envelope: type, count, timestamp formats and family flags. -/
def headerEnvelope (h : UInt32) : Envelope :=
  let type := PacketType.ofCode (bits h 28 4)
  { type
    packetCount := UInt8.ofNat (bits h 16 4)
    timestamp := { tsi := .ofCode (bits h 22 2), tsf := .ofCode (bits h 20 2) }
    trailer := isData type && bit h 26
    nd0 := !isCommand type && bit h 25
    spectrum := isData type && bit h 24
    tsm := !isData type && !isCommand type && bit h 24
    ack := isCommand type && bit h 26
    cancel := isCommand type && bit h 24 }

/-- A header bit the family reserves is set. -/
def reservedFlag (h : UInt32) : Bool :=
  let type := PacketType.ofCode (bits h 28 4)
  (isCommand type && bit h 25) || (!isData type && !isCommand type && bit h 26)

/-- `decode_envelope` up to the payload: the envelope and the payload's offset. -/
def decodePrologue (wire : Bytes) : Decoded (Envelope × ℕ) := do
  rejectIf (wire.length < 4) (Fault.error { code := .shortInput, offset := 0, requiredCapacity := 4 })
  let h ← load32 wire 0
  let size := bits h 0 16 * 4
  rejectIf (bits h 28 4 > 7 ∨ size = 0) (Fault.error invalidArgument)
  rejectIf (size > wire.length)
    (Fault.error { code := .shortInput, offset := wire.length, requiredCapacity := size })
  rejectIf (size ≠ wire.length) (Fault.error { code := .invalidArgument, offset := size })
  rejectIf (reservedFlag h) (Fault.error invalidArgument)
  let e := headerEnvelope h
  let (streamId, offset) ← takeStreamId (hasSid e.type) wire size 4
  let (classId, offset) ← takeClassId (bit h 27) wire size offset
  let (timestamp, offset) ← takeTimestamp e.timestamp.tsi e.timestamp.tsf wire size offset
  let (command, offset) ← takeCommand (isCommand e.type) wire size offset
  return ({ e with streamId, classId, timestamp, command }, offset)

def takeTrailer (present : Bool) (wire : Bytes) : Decoded (Option UInt32) := do
  if present then
    let t ← load32 wire (wire.length - 4)
    return some t
  else return none

def decodeEnvelope (wire : Bytes) : Decoded EnvelopeView := do
  let (e, offset) ← decodePrologue wire
  let trailerSize := if e.trailer then 4 else 0
  rejectIf (offset > wire.length ∨ trailerSize > wire.length - offset)
    (Fault.error { code := .shortInput, offset := offset, requiredCapacity := offset + trailerSize })
  let payload := (wire.drop offset).take (wire.length - offset - trailerSize)
  let _ ← (measureEnvelope e payload.length).decoded
  let trailer ← takeTrailer e.trailer wire
  return { envelope := e, payload, trailer, payloadOffset := offset, wire }

end Vita.Codec
