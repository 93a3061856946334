import Vita.Common.FirstFit
import Vita.Transaction.Operations

/-!
# Retention of commands and their answers (`transaction/retention.hpp`)

Every command is kept with its answers for some time, so that a command that comes again is answered
and not executed again. An entry has two records, one for the command and one for its cancellation. The
bytes of a record, its canonical command and room for its answers, are one extent of a byte array; the
used records are listed in the order of their offsets.

Reference counts are natural numbers. The offsets are, too: the list is in order, so the distance of two
offsets is never negative (`RetentionStore.Sound`).

Main definitions:
- `RetentionStore.reserve`, with `RetentionStore.reserveFresh` for a record that is new;
- `RetentionStore.step`: one call of the store.
-/

namespace Vita.Transaction

open Checked Timing State Codec

structure PeerSession where
  peer : ℕ := 0
  generation : ℕ := 0
deriving DecidableEq

structure TransactionKey where
  bindingGeneration : ℕ := 0
  peer : PeerSession := {}
  streamId : Option UInt32 := none
  controller : Identifier := {}
  controllee : Identifier := {}
  messageId : UInt32 := 0

def sameKey (a b : TransactionKey) : Bool :=
  a.bindingGeneration = b.bindingGeneration ∧ a.peer = b.peer ∧ a.streamId = b.streamId ∧
    a.messageId = b.messageId ∧ Engine.sameIdentifier a.controller b.controller ∧
    Engine.sameIdentifier a.controllee b.controllee

def transactionKey (packet : PacketView) (generation : ℕ) (peer : PeerSession) :
    Result TransactionKey :=
  let e := packet.envelope.envelope
  match e.command with
  | none => .error (failure .invalidArgument)
  | some command => do
    rejectIf (generation = 0 ∨ peer.generation = 0 ∨ ¬isCommand e.type) (failure .invalidArgument)
    return { bindingGeneration := generation, peer, streamId := e.streamId
             controller := command.controller, controllee := command.controllee
             messageId := command.messageId }

/-- A byte of a command without the packet count and the change indicator. -/
def canonicalCommandByte (packet : PacketView) (offset : ℕ) : UInt8 :=
  let b := packet.envelope.wire.getD offset 0
  let b := if offset = 1 then b &&& 0xf0 else b
  if ¬packet.envelope.envelope.cancel ∧ offset = packet.envelope.payloadOffset then b &&& 0x7f else b

/-- The canonical bytes of a command. -/
def canonicalBytes (packet : PacketView) : Bytes :=
  (List.range packet.envelope.wire.length).map (canonicalCommandByte packet)

inductive DuplicateKind where
  | fresh | active | replay
deriving DecidableEq

structure RetentionToken where
  slot : ℕ := 0
  generation : ℕ := 0
  cancellation : Bool := false
deriving DecidableEq

structure RetentionAdmission where
  token : RetentionToken
  kind : DuplicateKind
deriving DecidableEq

/-- The object representation of an acknowledgement, of `sizeof(AckRecord)` bytes. -/
structure AckLayout where
  size : ℕ
  write : AckRecord → Bytes
  size_pos : 0 < size
  length_write : ∀ ack, (write ack).length = size

structure Record where
  used : Bool := false
  active : Bool := false
  terminal : Bool := false
  offset : ℕ := 0
  bytes : ℕ := 0
  canonical : ℕ := 0
  responseCapacity : ℕ := 0
  responseCount : ℕ := 0
  engine : Option Handle := none
  credits : AdmissionBundle := none

structure Entry where
  generation : ℕ := 1
  key : TransactionKey := {}
  /-- The record of the command, and that of its cancellation. -/
  records : Bool → Record := fun _ => {}
  references : ℕ := 0
  expires : ℕ := 0

structure RetentionStore where
  entries : ℕ → Entry := fun _ => {}
  bytes : ℕ → UInt8 := fun _ => 0
  occupied : List ℕ := []
  /-- The pool that the store shares with others. -/
  pool : AdmissionPool

namespace RetentionStore

/-- The number under which a record is listed. -/
def recordId (slot : ℕ) (cancellation : Bool) : ℕ := slot * 2 + cancellation.toNat

/-- `indexed_record`. -/
def record (s : RetentionStore) (id : ℕ) : Record := (s.entries (id / 2)).records (id % 2 = 1)

def setEntry (s : RetentionStore) (i : ℕ) (e : Entry) : RetentionStore :=
  { s with entries := Function.update s.entries i e }

def setRecord (s : RetentionStore) (i : ℕ) (cancellation : Bool) (r : Record) : RetentionStore :=
  s.setEntry i { s.entries i with records := Function.update (s.entries i).records cancellation r }

/-- The bytes from an offset on. -/
def span (s : RetentionStore) (offset count : ℕ) : Bytes :=
  (List.range count).map fun b => s.bytes (offset + b)

/-- Bytes are copied to an offset. -/
def write (s : RetentionStore) (offset : ℕ) (data : Bytes) : RetentionStore :=
  { s with bytes := fun a =>
      if offset ≤ a ∧ a < offset + data.length then data.getD (a - offset) 0 else s.bytes a }

variable (l : AckLayout) (n m : ℕ)

/-- `entry` finds the entry of a token. -/
def holds (s : RetentionStore) (t : RetentionToken) : Bool :=
  t.slot < n ∧ ((s.entries t.slot).records t.cancellation).used ∧
    (s.entries t.slot).generation = t.generation

/-- `remove_extent` and the assignment of an empty record, which gives its credits back. -/
def clearRecord (i : ℕ) (cancellation : Bool) (s : RetentionStore) : RetentionStore :=
  let r := (s.entries i).records cancellation
  { s.setRecord i cancellation {} with
    occupied := if r.used then s.occupied.erase (recordId i cancellation) else s.occupied
    pool := s.pool.reset r.credits }

def erase (i : ℕ) (s : RetentionStore) : RetentionStore :=
  let s := clearRecord i true (clearRecord i false s)
  s.setEntry i { s.entries i with
    references := 0, expires := 0, generation := (s.entries i).generation + 1 }

/-- The entry of a command that is kept under a key. -/
def findKey (key : TransactionKey) (s : RetentionStore) : Option ℕ :=
  (List.range n).find? fun i => ((s.entries i).records false).used ∧ sameKey (s.entries i).key key

/-- The command is the one that is kept. -/
def sameCommand (s : RetentionStore) (r : Record) (packet : PacketView) : Bool :=
  r.canonical = packet.envelope.wire.length ∧ s.span r.offset r.canonical = canonicalBytes packet

def addReference (i : ℕ) (s : RetentionStore) : RetentionStore :=
  s.setEntry i { s.entries i with references := (s.entries i).references + 1 }

/-- The token of a record, and what a command that comes again is told. -/
def admissionOf (i : ℕ) (cancellation : Bool) (s : RetentionStore) : RetentionAdmission :=
  { token := { slot := i, generation := (s.entries i).generation, cancellation }
    kind := if ((s.entries i).records cancellation).terminal then .replay else .active }

/-- The packet has the key it is presented with. -/
def keyMatches (key : TransactionKey) (packet : PacketView) : Bool :=
  match transactionKey packet key.bindingGeneration key.peer with
  | .ok derived => sameKey key derived
  | .error _ => false

/-- `SIZE_MAX`. -/
def sizeMax : ℕ := 2 ^ 64 - 1

def replayExisting (key : TransactionKey) (packet : PacketView) (s : RetentionStore) :
    Result RetentionAdmission × RetentionStore :=
  let cancellation := packet.envelope.envelope.cancel
  if packet.envelope.envelope.ack ∨ packet.envelope.wire.length < 4 ∨ ¬keyMatches key packet then
    (.error (failure .invalidArgument), s)
  else match findKey n key s with
    | none => (.error (failure .invalidState), s)
    | some i =>
      let r := (s.entries i).records cancellation
      if ¬r.used then (.error (failure .invalidState), s)
      else if ¬s.sameCommand r packet then (.error (failure .identityConflict), s)
      else if (s.entries i).references = sizeMax then (.error (failure .overflow), s)
      else (.ok (admissionOf i cancellation s), addReference i s)

/-- The bytes that a record needs. -/
def requiredBytes (packet : PacketView) (responses : ℕ) : ℕ :=
  packet.envelope.wire.length + responses * l.size

/-- An entry that can be used. -/
def freeSlot (s : RetentionStore) : Option ℕ :=
  (List.range n).find? fun i =>
    ¬((s.entries i).records false).used ∧ (s.entries i).generation ≠ uint64Max

/-- The first gap for a record, and its place in the list. -/
def placement (required : ℕ) (s : RetentionStore) : ℕ × ℕ :=
  FirstFit.place (fun id => (s.record id).offset) (fun id => (s.record id).bytes) required s.occupied 0

/-- What a record takes from the pool. -/
def retentionRequest (cancellation : Bool) (required : ℕ) : AdmissionRequest :=
  (AdmissionRequest.none.need .duplicateEntry (if cancellation then 0 else 1)).need .duplicateBytes required

/-- A record is placed at an offset. -/
def insertRecord (key : TransactionKey) (packet : PacketView) (responses slot offset insertion : ℕ)
    (credits : AdmissionBundle) (s : RetentionStore) : RetentionStore :=
  let cancellation := packet.envelope.envelope.cancel
  let canonical := packet.envelope.wire.length
  let e := s.entries slot
  let r : Record :=
    { e.records cancellation with
      used := true, offset, bytes := requiredBytes l packet responses, canonical
      responseCapacity := responses, responseCount := 0, active := false, terminal := false, credits }
  let s := s.setEntry slot
    { e with key, records := Function.update e.records cancellation r, references := e.references + 1 }
  { s with
    occupied := s.occupied.take insertion ++ recordId slot cancellation :: s.occupied.drop insertion }.write
    offset (canonicalBytes packet)

/-- The part of `reserve` for a record that is new, in the entry of its command or a free one. -/
def reserveFresh (key : TransactionKey) (packet : PacketView) (responses : ℕ) (found : Option ℕ)
    (s : RetentionStore) : Result RetentionAdmission × RetentionStore :=
  let cancellation := packet.envelope.envelope.cancel
  let canonical := packet.envelope.wire.length
  if canonical > m ∨ responses > (m - canonical) / l.size then
    (.error (failure .capacityExhausted), s)
  else match found.or (freeSlot n s) with
    | none => (.error (failure .capacityExhausted), s)
    | some slot =>
      let required := requiredBytes l packet responses
      let (offset, insertion) := placement required s
      if offset > m - required then (.error (failure .capacityExhausted), s)
      else match s.pool.acquire (retentionRequest cancellation required) with
        | .error e => (.error e, s)
        | .ok (credits, pool) =>
          (.ok { token := { slot, generation := (s.entries slot).generation, cancellation }
                 kind := .fresh },
            insertRecord l key packet responses slot offset insertion credits { s with pool })

/-- `reserve`: the record of a command that comes again, or a new one. -/
def reserve (key : TransactionKey) (packet : PacketView) (responses : ℕ) (s : RetentionStore) :
    Result RetentionAdmission × RetentionStore :=
  let cancellation := packet.envelope.envelope.cancel
  if key.bindingGeneration = 0 ∨ key.peer.generation = 0 ∨ packet.envelope.wire.length < 4 ∨
      responses > (if cancellation then 2 else 3) ∨ packet.envelope.envelope.ack ∨
      ¬keyMatches key packet then
    (.error (failure .invalidArgument), s)
  else match findKey n key s with
    | none =>
      if cancellation then (.error (failure .invalidState), s)
      else reserveFresh l n m key packet responses none s
    | some i =>
      let r := (s.entries i).records cancellation
      if ¬r.used then reserveFresh l n m key packet responses (some i) s
      else if ¬s.sameCommand r packet then (.error (failure .identityConflict), s)
      else (.ok (admissionOf i cancellation s), addReference i s)

def bind (t : RetentionToken) (handle : Option Handle) (s : RetentionStore) :
    Result Unit × RetentionStore :=
  let r := (s.entries t.slot).records t.cancellation
  if ¬s.holds n t then (.error (failure .staleGeneration), s)
  else if r.active ∨ r.terminal then (.error (failure .invalidState), s)
  else (.ok (), s.setRecord t.slot t.cancellation { r with active := true, engine := handle })

def engineHandle (t : RetentionToken) (s : RetentionStore) : Result (Option Handle) :=
  if ¬s.holds n t then .error (failure .staleGeneration)
  else .ok ((s.entries t.slot).records t.cancellation).engine

/-- Where an answer of a record is stored. -/
def responseOffset (r : Record) (index : ℕ) : ℕ := r.offset + r.canonical + index * l.size

def append (t : RetentionToken) (ack : AckRecord) (s : RetentionStore) : Result Unit × RetentionStore :=
  let r := (s.entries t.slot).records t.cancellation
  if ¬s.holds n t then (.error (failure .staleGeneration), s)
  else if ¬r.active ∨ r.terminal ∨ ack.cancellation ≠ t.cancellation then
    (.error (failure .invalidState), s)
  else if r.responseCount = r.responseCapacity then (.error (failure .capacityExhausted), s)
  else
    (.ok (), (s.write (responseOffset l r r.responseCount) (l.write ack)).setRecord t.slot t.cancellation
      { r with responseCount := r.responseCount + 1 })

/-- `response`, as the bytes that are copied into the answer. -/
def response (t : RetentionToken) (index : ℕ) (s : RetentionStore) : Result (Option Bytes) :=
  let r := (s.entries t.slot).records t.cancellation
  if ¬s.holds n t then .error (failure .staleGeneration)
  else if index ≥ r.responseCount then .ok none
  else .ok (some (s.span (responseOffset l r index) l.size))

/-- `minimum_retention_ns`. -/
def minimumRetention : ℕ := 30000000000

def complete (t : RetentionToken) (now : ℕ) (s : RetentionStore) : Result Unit × RetentionStore :=
  let r := (s.entries t.slot).records t.cancellation
  if ¬s.holds n t then (.error (failure .staleGeneration), s)
  else if ¬r.active ∨ r.terminal then (.error (failure .invalidState), s)
  else
    let e := s.entries t.slot
    let expires := if now + minimumRetention > uint64Max then uint64Max
      else max e.expires (now + minimumRetention)
    let s := s.setEntry t.slot { e with expires }
    (.ok (), s.setRecord t.slot t.cancellation { r with terminal := true, active := false, engine := none })

def canonical (t : RetentionToken) (s : RetentionStore) : Result Bytes :=
  let r := (s.entries t.slot).records t.cancellation
  if ¬s.holds n t then .error (failure .staleGeneration) else .ok (s.span r.offset r.canonical)

def terminal (t : RetentionToken) (s : RetentionStore) : Result Bool :=
  if ¬s.holds n t then .error (failure .staleGeneration)
  else .ok ((s.entries t.slot).records t.cancellation).terminal

def retain (t : RetentionToken) (s : RetentionStore) : Result Unit × RetentionStore :=
  if ¬s.holds n t then (.error (failure .staleGeneration), s) else (.ok (), addReference t.slot s)

def release (t : RetentionToken) (s : RetentionStore) : Result Unit × RetentionStore :=
  let e := s.entries t.slot
  if ¬s.holds n t ∨ e.references = 0 then (.error (failure .staleGeneration), s)
  else
    let s := s.setEntry t.slot { e with references := e.references - 1 }
    (.ok (), if e.references = 1 ∧ ¬(e.records false).active ∧ ¬(e.records false).terminal then
        erase t.slot s
      else s)

def rollback (t : RetentionToken) (s : RetentionStore) : Result Unit × RetentionStore :=
  let e := s.entries t.slot
  let r := e.records t.cancellation
  if ¬s.holds n t ∨ e.references = 0 then (.error (failure .staleGeneration), s)
  else if r.active ∨ r.terminal then (.error (failure .invalidState), s)
  else
    let s := clearRecord t.slot t.cancellation s
    let s := s.setEntry t.slot { s.entries t.slot with references := e.references - 1 }
    (.ok (), if t.cancellation then s else erase t.slot s)

/-- An entry that is kept no longer. -/
def expired (now : ℕ) (e : Entry) : Bool :=
  (e.records false).used ∧ (e.records false).terminal ∧ (¬(e.records true).used ∨ (e.records true).terminal) ∧
    e.references = 0 ∧ now ≥ e.expires

def expire (now : ℕ) (s : RetentionStore) : RetentionStore :=
  (List.range n).foldl (fun s i => if expired now (s.entries i) then erase i s else s) s

/-! ## Runs -/

inductive Operation where
  | reserve (key : TransactionKey) (packet : PacketView) (responses : ℕ)
  | replayExisting (key : TransactionKey) (packet : PacketView)
  | bind (t : RetentionToken) (handle : Option Handle)
  | append (t : RetentionToken) (ack : AckRecord)
  | complete (t : RetentionToken) (now : ℕ)
  | retain (t : RetentionToken)
  | release (t : RetentionToken)
  | rollback (t : RetentionToken)
  | expire (now : ℕ)
  /-- Others acquire or give back credits. -/
  | credits (pool : AdmissionPool)

def step (s : RetentionStore) : Operation → RetentionStore
  | .reserve key packet responses => (reserve l n m key packet responses s).2
  | .replayExisting key packet => (replayExisting n key packet s).2
  | .bind t handle => (bind n t handle s).2
  | .append t ack => (append l n t ack s).2
  | .complete t now => (complete n t now s).2
  | .retain t => (retain n t s).2
  | .release t => (release n t s).2
  | .rollback t => (rollback n t s).2
  | .expire now => expire n now s
  | .credits pool => { s with pool }

/-- A state of the store in some run. -/
def Reachable (s : RetentionStore) : Prop :=
  ∃ pool ops, s = List.foldl (step l n m) { pool } ops

end RetentionStore

end Vita.Transaction
