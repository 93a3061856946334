import Vita.Codec.WireTheorems
import Vita.Codec.Bounds
import Vita.Common.Feeding

/-!
# Framing of a byte stream (`transport/stream_framer.hpp`)

A framer collects the bytes of a stream until they make up a packet, checks the packet's envelope and
hands it to a sink. The bytes arrive in chunks that need not end where a packet ends.

The sink is a function of a context of its own. What it was offered and what it took are kept beside
the framer; the framer never reads them.

Main definitions:
- `Framer`, `Link.feed`: the framer and a chunk of input;
- `Link.push`: the framer taking one byte, to compare with.
-/

namespace Vita.Transport

open Words Checked Codec Feeding

/-! ## The framer -/

/-- `StreamFramer`, with the bytes that are buffered. -/
structure Framer where
  capacity : ℕ
  maximumPacketBytes : ℕ
  buffer : Bytes := []
  expected : ℕ := 0
  closed : Bool := false

namespace Framer

/-- The number of bytes that are waited for: those of the header, or of the packet. -/
def target (f : Framer) : ℕ := if f.expected ≠ 0 then f.expected else 4

def reset (f : Framer) : Framer := { f with buffer := [], expected := 0 }

def shutdown (f : Framer) : Framer := { f with closed := true }.reset

def reconnect (f : Framer) : Framer := { f with closed := false }.reset

def disconnect (f : Framer) : Result Unit × Framer :=
  let f := { f with closed := true }
  if f.buffer ≠ [] then
    (.error { code := .shortInput, offset := f.buffer.length, requiredCapacity := f.target }, f.reset)
  else (.ok (), f)

/-- `inspect_header`: once its four bytes are there, the header tells the size of the packet. -/
def inspectHeader (f : Framer) : Result Framer := do
  if f.buffer.length < 4 ∨ f.expected ≠ 0 then return f
  let header := (wordAt f.buffer 0).getD 0
  let packetBytes := bits header 0 16 * 4
  rejectIf (bits header 28 4 > 7 ∨ packetBytes < 4 ∨ packetBytes > f.maximumPacketBytes ∨
    packetBytes > f.capacity) { code := .invalidArgument }
  return { f with expected := packetBytes }

/-- What `feed` requires of a framer. -/
def accepts (f : Framer) : Bool :=
  ¬f.closed ∧ 4 ≤ f.maximumPacketBytes ∧ f.maximumPacketBytes ≤ f.capacity ∧
    f.maximumPacketBytes % 4 = 0

end Framer

/-! ## Feeding -/

/-- `PacketSink`, with its context. -/
abbrev Sink (τ : Type) := τ → Bytes → Result Unit × τ

/-- A framer and its sink's context, with the packets that were offered to the sink and those that it
took. -/
structure Link (τ : Type) where
  framer : Framer
  context : τ
  offered : List Bytes := []
  delivered : List Bytes := []

/-- The error of a decoder. -/
def faultError : Fault → Error
  | .error e => e
  | .outside => { code := .shortInput }

namespace Link

variable {τ : Type} (sink : Sink τ)

def shutdown (w : Link τ) : Link τ := { w with framer := w.framer.shutdown }

/-- A packet is handed to the sink. -/
def offer (packet : Bytes) (w : Link τ) : Result ℕ × Link τ :=
  let w := { w with offered := w.offered ++ [packet] }
  match sink w.context packet with
  | (.error e, context) => (.error e, shutdown { w with context })
  | (.ok _, context) => (.ok 1, { w with context, delivered := w.delivered ++ [packet] })

/-- The rest of a round of `feed` after bytes were copied into the buffer, with the number of packets
delivered. -/
def settle (w : Link τ) : Result ℕ × Link τ :=
  match w.framer.inspectHeader with
  | .error e => (.error e, w.shutdown)
  | .ok f =>
    let w := { w with framer := f }
    if f.expected = 0 ∨ f.buffer.length ≠ f.expected then (.ok 0, w)
    else match decodeEnvelope f.buffer with
      | .error e => (.error (faultError e), w.shutdown)
      | .ok _ => offer sink f.buffer { w with framer := f.reset }

/-- Bytes are copied into the buffer. -/
def copy (bytes : Bytes) (w : Link τ) : Link τ :=
  { w with framer := { w.framer with buffer := w.framer.buffer ++ bytes } }

/-- The loop of `feed`, or `none` if it takes more rounds than the number. -/
def loop : ℕ → Bytes → ℕ → Link τ → Option (Result ℕ × Link τ)
  | 0, _, _, _ => none
  | rounds + 1, input, delivered, w =>
    if input = [] then some (.ok delivered, w)
    else
      let count := min input.length (w.framer.target - w.framer.buffer.length)
      match settle sink (copy (input.take count) w) with
      | (.error e, w) => some (.error e, w)
      | (.ok n, w) => loop rounds (input.drop count) (delivered + n) w

/-- `feed` within a number of rounds. -/
def feedWithin (rounds : ℕ) (input : Bytes) (w : Link τ) : Option (Result ℕ × Link τ) :=
  if ¬w.framer.accepts then some (.error { code := .invalidState }, w)
  else loop sink rounds input 0 w

/-- `feed`: a round for every byte is enough, as `feed_eq` shows. -/
def feed (input : Bytes) (w : Link τ) : Option (Result ℕ × Link τ) :=
  feedWithin sink (input.length + 1) input w

/-- Chunks are fed one after the other until one fails. -/
def feedChunks : List Bytes → Link τ → Option (Result ℕ × Link τ)
  | [], w => some (.ok 0, w)
  | chunk :: rest, w =>
    match feed sink chunk w with
    | none => none
    | some (.error e, w) => some (.error e, w)
    | some (.ok n, w) =>
      match feedChunks rest w with
      | none => none
      | some (.error e, w) => some (.error e, w)
      | some (.ok m, w) => some (.ok (n + m), w)

/-- One byte. -/
def push (w : Link τ) (b : UInt8) : Result ℕ × Link τ := settle sink (copy [b] w)

end Link

/-! ## Runs -/

/-- A call of the framer. -/
inductive Call where
  | feed (input : Bytes)
  | disconnect
  | reconnect
  | shutdown
  | reset

variable {τ : Type} (sink : Sink τ)

/-- The link after a call that returns. -/
def Link.call (w : Link τ) : Call → Option (Link τ)
  | .feed input => (w.feed sink input).map Prod.snd
  | .disconnect => some { w with framer := w.framer.disconnect.2 }
  | .reconnect => some { w with framer := w.framer.reconnect }
  | .shutdown => some w.shutdown
  | .reset => some { w with framer := w.framer.reset }

/-- A link after some calls. -/
inductive Link.Reachable : Link τ → Prop
  | new (capacity maximumPacketBytes : ℕ) (context : τ) :
      Reachable { framer := { capacity, maximumPacketBytes }, context }
  | call {w w' : Link τ} (hw : Reachable w) (call : Call) (h : w.call sink call = some w') :
      Reachable w'

/-! ## Rounds -/

namespace Link

/-- Something is missing from the buffer. -/
def Waiting (w : Link τ) : Prop := w.framer.buffer.length < w.framer.target

variable {sink} {w : Link τ}

theorem waiting_of_empty (h : w.framer.buffer = []) : w.Waiting := by
  unfold Waiting Framer.target
  rw [h]
  split
  · next hne => exact Nat.pos_of_ne_zero hne
  · decide

/-- Nothing happens before the last byte that is waited for. -/
theorem settle_of_waiting (h : w.Waiting) : settle sink w = (.ok 0, w) := by
  unfold Waiting Framer.target at h
  unfold settle Framer.inspectHeader
  split at h
  · next hne =>
    simp [hne, h.ne]
  · next hzero =>
    simp [h, not_not.mp hzero]

/-- What a round leaves of the framer. -/
theorem settle_cases (sink : Sink τ) (w : Link τ) :
    (∃ e w', settle sink w = (.error e, w')) ∨
      (∃ f, w.framer.inspectHeader = .ok f ∧ (f.expected = 0 ∨ f.buffer.length ≠ f.expected) ∧
        settle sink w = (.ok 0, { w with framer := f })) ∨
      ∃ f context, w.framer.inspectHeader = .ok f ∧ f.expected ≠ 0 ∧ f.buffer.length = f.expected ∧
        (∃ v, decodeEnvelope f.buffer = .ok v) ∧ sink w.context f.buffer = (.ok (), context) ∧
        settle sink w = (.ok 1, { framer := f.reset, context, offered := w.offered ++ [f.buffer]
                                  delivered := w.delivered ++ [f.buffer] }) := by
  unfold settle
  split
  · exact .inl ⟨_, _, rfl⟩
  · next f hf =>
    dsimp only
    split
    · next h => exact .inr (.inl ⟨f, hf, h, rfl⟩)
    · next h =>
      simp only [not_or, not_not] at h
      split
      · exact .inl ⟨_, _, rfl⟩
      · next v hv =>
        unfold offer
        dsimp only
        split
        · exact .inl ⟨_, _, rfl⟩
        · next u context hsink =>
          exact .inr (.inr ⟨f, context, hf, h.1, h.2, ⟨v, hv⟩, hsink, rfl⟩)

/-- Once four bytes are buffered, the header says how long the packet is. -/
theorem inspectHeader_eq_ok {f f' : Framer} (h : f.inspectHeader = .ok f') :
    f' = { f with expected := f'.expected } ∧
      (f.buffer.length < 4 ∨ f.expected ≠ 0 → f'.expected = f.expected) ∧
      (4 ≤ f.buffer.length → f.expected = 0 → ∃ header, wordAt f.buffer 0 = some header ∧
        bits header 28 4 ≤ 7 ∧ f'.expected = bits header 0 16 * 4 ∧ 4 ≤ f'.expected ∧
        f'.expected ≤ f.maximumPacketBytes) := by
  unfold Framer.inspectHeader at h
  split at h
  · next hearly =>
    obtain rfl := Except.ok.inj h
    refine ⟨rfl, fun _ => rfl, fun hlen hzero => ?_⟩
    rcases hearly with hlt | hne
    · omega
    · exact absurd hzero hne
  · next hready =>
    simp only [not_or, not_lt, not_not] at hready
    simp only [bind_eq_ok, rejectIf_eq_ok, pure_eq_ok, Except.ok.injEq, not_or, not_lt] at h
    obtain ⟨_, hsize, rfl⟩ := h
    obtain ⟨header, hheader⟩ := @wordAt_isSome f.buffer 0 (by omega)
    rw [hheader, Option.getD_some] at hsize ⊢
    refine ⟨rfl, fun hearly => ?_, fun _ _ => ⟨header, rfl, hsize.1, rfl, hsize.2.1, hsize.2.2.1⟩⟩
    omega

/-! ## Byte by byte -/

/-- The settings of a framer stay as they are, and it is open as long as nothing failed. -/
def Like (w w' : Link τ) : Prop :=
  w'.framer.capacity = w.framer.capacity ∧
    w'.framer.maximumPacketBytes = w.framer.maximumPacketBytes ∧
    w'.framer.closed = w.framer.closed

theorem Like.accepts {w' : Link τ} (h : w.Like w') : w'.framer.accepts = w.framer.accepts := by
  unfold Framer.accepts
  rw [h.1, h.2.1, h.2.2]

theorem Like.trans {w' w'' : Link τ} (h : w.Like w') (h' : w'.Like w'') : w.Like w'' :=
  ⟨h'.1.trans h.1, h'.2.1.trans h.2.1, h'.2.2.trans h.2.2⟩

/-- A round that goes well leaves room for more. -/
theorem settle_ok {w w' : Link τ} {n : ℕ} (hroom : w.framer.buffer.length ≤ w.framer.target)
    (h : settle sink w = (.ok n, w')) : w'.Waiting ∧ w.Like w' := by
  rcases settle_cases sink w with ⟨e, w₁, heq⟩ | ⟨f, hf, hpart, heq⟩ | ⟨f, c, hf, -, -, -, -, heq⟩
  · rw [heq] at h
    cases h
  · rw [heq] at h
    cases h
    obtain ⟨hsame, hkeep, hread⟩ := inspectHeader_eq_ok hf
    refine ⟨?_, by rw [hsame]; exact ⟨rfl, rfl, rfl⟩⟩
    have hbuffer : f.buffer = w.framer.buffer := by rw [hsame]
    show f.buffer.length < f.target
    unfold Framer.target at hroom ⊢
    rw [hbuffer] at hpart ⊢
    by_cases hzero : w.framer.expected = 0
    · rw [if_neg (not_not.mpr hzero)] at hroom
      by_cases hshort : w.framer.buffer.length < 4
      · rw [hkeep (.inl hshort), if_neg (not_not.mpr hzero)]
        exact hshort
      · obtain ⟨_, -, -, -, hfour, -⟩ := hread (by omega) hzero
        rw [if_pos (by omega)]
        omega
    · rw [if_pos hzero] at hroom
      rw [hkeep (.inr hzero)] at hpart ⊢
      rw [if_pos hzero]
      omega
  · rw [heq] at h
    cases h
    refine ⟨waiting_of_empty rfl, ?_⟩
    rw [(inspectHeader_eq_ok hf).1]
    exact ⟨rfl, rfl, rfl⟩

/-- A failure leaves the framer closed and empty. -/
theorem settle_error {w w' : Link τ} {e : Error} (h : settle sink w = (.error e, w')) :
    ∃ w₀ : Link τ, w' = w₀.shutdown := by
  unfold settle at h
  split at h
  · cases h
    exact ⟨w, rfl⟩
  · dsimp only at h
    split at h
    · cases h
    · split at h
      · cases h
        exact ⟨_, rfl⟩
      · unfold offer at h
        dsimp only at h
        split at h
        · cases h
          exact ⟨_, rfl⟩
        · cases h

theorem copy_append (bytes bytes' : Bytes) (w : Link τ) :
    copy bytes' (copy bytes w) = copy (bytes ++ bytes') w := by
  unfold copy
  simp only [List.append_assoc]

/-- A block that does not go past what is waited for is taken at once. -/
theorem pump_block {block : Bytes} (hne : block ≠ [])
    (hroom : w.framer.buffer.length + block.length ≤ w.framer.target) :
    pump (push sink) block w = settle sink (copy block w) := by
  induction block generalizing w with
  | nil => exact absurd rfl hne
  | cons b rest ih =>
    cases rest with
    | nil => exact andThen_done _
    | cons c rest =>
      simp only [List.length_cons] at hroom
      -- one byte alone is not the last one
      have hwaiting : (copy [b] w).Waiting := by
        show (w.framer.buffer ++ [b]).length < w.framer.target
        simp only [List.length_append, List.length_cons, List.length_nil]
        omega
      rw [pump, push, settle_of_waiting hwaiting, andThen_zero, ih (by simp), copy_append]
      · rfl
      · show (w.framer.buffer ++ [b]).length + _ ≤ w.framer.target
        simp only [List.length_append, List.length_cons, List.length_nil]
        omega

/-- A byte leaves room for more. -/
theorem push_ok {w w' : Link τ} {b : UInt8} {n : ℕ} (hw : w.Waiting)
    (h : push sink w b = (.ok n, w')) : w'.Waiting ∧ w.Like w' := by
  have hroom : (copy [b] w).framer.buffer.length ≤ (copy [b] w).framer.target := by
    show (w.framer.buffer ++ [b]).length ≤ w.framer.target
    rw [List.length_append]
    exact hw
  exact settle_ok (w := copy [b] w) hroom h

/-- A pump that succeeds waits for more. -/
theorem pump_ok {w w' : Link τ} {input : Bytes} {n : ℕ} (hw : w.Waiting)
    (h : pump (push sink) input w = (.ok n, w')) : w'.Waiting ∧ w.Like w' := by
  induction input generalizing w n with
  | nil =>
    cases h
    exact ⟨hw, rfl, rfl, rfl⟩
  | cons b rest ih =>
    rw [pump] at h
    unfold andThen at h
    split at h
    · cases h
    · next m w₁ hstep =>
      obtain ⟨hw₁, hlike⟩ := push_ok hw hstep
      split at h
      · cases h
      · next k w₂ hrest =>
        cases h
        obtain ⟨hw₂, hlike'⟩ := ih hw₁ hrest
        exact ⟨hw₂, hlike.trans hlike'⟩

/-- The loop is byte by byte feeding, and takes at most a round for every byte. -/
theorem loop_eq {rounds : ℕ} {input : Bytes} {d : ℕ} (hw : w.Waiting) (hrounds : input.length < rounds) :
    loop sink rounds input d w = some (andThen (.ok d, w) (pump (push sink) input)) := by
  induction rounds generalizing input d w with
  | zero => omega
  | succ rounds ih =>
    rw [loop]
    by_cases hempty : input = []
    · rw [if_pos hempty, hempty]
      rfl
    · rw [if_neg hempty]
      unfold Waiting at hw
      have hpositive : 0 < input.length := List.length_pos_iff.mpr hempty
      dsimp only
      generalize hcount : min input.length (w.framer.target - w.framer.buffer.length) = count
      have hblock : input.take count ≠ [] := by
        rw [ne_eq, List.take_eq_nil_iff]
        rintro (rfl | h)
        · omega
        · exact hempty h
      have hroom : w.framer.buffer.length + (input.take count).length ≤ w.framer.target := by
        rw [List.length_take]
        omega
      conv_rhs => rw [← List.take_append_drop count input]
      rw [← pump_block hblock hroom]
      have hsplit : pump (push sink) (input.take count ++ input.drop count) w =
          andThen (pump (push sink) (input.take count) w) (pump (push sink) (input.drop count)) :=
        pump_append ..
      simp only [andThen]
      rw [hsplit]
      rcases hfirst : pump (push sink) (input.take count) w with ⟨e | n, w'⟩
      · rfl
      · dsimp only
        rw [ih (pump_ok hw hfirst).1 (by rw [List.length_drop]; omega)]
        simp only [andThen]
        rcases pump (push sink) (input.drop count) w' with ⟨e | m, w''⟩
        · rfl
        · simp [Nat.add_assoc]

theorem feedWithin_eq {rounds : ℕ} {input : Bytes} (hw : w.Waiting) (haccepts : w.framer.accepts)
    (hrounds : input.length < rounds) :
    feedWithin sink rounds input w = some (pump (push sink) input w) := by
  rw [feedWithin, if_neg (not_not.mpr haccepts), loop_eq hw hrounds, andThen_zero]

theorem feed_eq {input : Bytes} (hw : w.Waiting) (haccepts : w.framer.accepts) :
    feed sink input w = some (pump (push sink) input w) :=
  feedWithin_eq hw haccepts (Nat.lt_succ_self _)

/-- Chunks are byte by byte feeding of what they hold together. -/
theorem feedChunks_eq {chunks : List Bytes} (hw : w.Waiting) (haccepts : w.framer.accepts) :
    feedChunks sink chunks w = some (pump (push sink) chunks.flatten w) := by
  induction chunks generalizing w with
  | nil => rfl
  | cons chunk rest ih =>
    rw [List.flatten_cons, pump_append, feedChunks, feed_eq hw haccepts]
    rcases hfirst : pump (push sink) chunk w with ⟨e | n, w'⟩
    · rfl
    · obtain ⟨hw', hlike⟩ := pump_ok hw hfirst
      dsimp only [andThen]
      rw [ih hw' (hlike.accepts.trans haccepts)]
      rcases pump (push sink) rest.flatten w' with ⟨e | m, w''⟩ <;> rfl

/-! ## Runs -/

/-- Where a link has come to is where the bytes of its buffer lead. -/
def Refilled (sink : Sink τ) (w : Link τ) : Prop :=
  pump (push sink) w.framer.buffer { w with framer := w.framer.reset } = (.ok 0, w)

theorem refilled_of_empty (h : w.framer.buffer = []) (hexpected : w.framer.expected = 0) :
    w.Refilled sink := by
  obtain ⟨⟨capacity, maximum, buffer, expected, closed⟩, context, offered, delivered⟩ := w
  dsimp only at h hexpected
  subst h hexpected
  rfl

/-- A round that goes on without a packet only looked at the buffer. -/
theorem push_keeps {w w' : Link τ} {b : UInt8} {n : ℕ} (h : push sink w b = (.ok n, w')) :
    (n = 0 ∧ w' = { w with framer := w'.framer } ∧
        w'.framer.buffer = w.framer.buffer ++ [b] ∧ w'.framer.reset = w.framer.reset) ∨
      w'.framer.buffer = [] ∧ w'.framer.expected = 0 := by
  unfold push at h
  rcases settle_cases sink (copy [b] w) with ⟨e, w₁, heq⟩ | ⟨f, hf, -, heq⟩ |
    ⟨f, c, hf, -, -, -, -, heq⟩
  · rw [heq] at h
    cases h
  · rw [heq] at h
    cases h
    have hsame := (inspectHeader_eq_ok hf).1
    refine .inl ⟨rfl, rfl, ?_, ?_⟩
    · show f.buffer = _
      rw [hsame]
      rfl
    · show f.reset = _
      rw [hsame]
      rfl
  · rw [heq] at h
    cases h
    exact .inr ⟨rfl, rfl⟩

theorem Refilled.push {w w' : Link τ} {b : UInt8} {n : ℕ} (hw : w.Refilled sink)
    (h : push sink w b = (.ok n, w')) : w'.Refilled sink := by
  rcases push_keeps h with ⟨rfl, hsame, hbuffer, hreset⟩ | ⟨hempty, hexpected⟩
  · unfold Refilled
    have hstart : ({ w' with framer := w'.framer.reset } : Link τ) =
        { w with framer := w.framer.reset } := by
      rw [hsame, hreset]
    rw [hstart, hbuffer, pump_append, hw, andThen_zero, pump, h, andThen_zero]
    rfl
  · exact refilled_of_empty hempty hexpected

/-- What holds of a link at every call. -/
structure Steady (sink : Sink τ) (w : Link τ) : Prop where
  waiting : w.Waiting
  refilled : w.Refilled sink

theorem steady_of_empty (h : w.framer.buffer = []) (hexpected : w.framer.expected = 0) :
    w.Steady sink :=
  ⟨waiting_of_empty h, refilled_of_empty h hexpected⟩

/-- Input leaves the link steady. -/
theorem Steady.fed {w w' : Link τ} {input : Bytes} {r : Result ℕ} (hw : w.Steady sink)
    (h : pump (push sink) input w = (r, w')) : w'.Steady sink := by
  induction input generalizing w r with
  | nil =>
    cases h
    exact hw
  | cons b rest ih =>
    rw [pump] at h
    unfold andThen at h
    split at h
    · next e w₁ hstep =>
      cases h
      obtain ⟨w₀, rfl⟩ := settle_error hstep
      exact steady_of_empty rfl rfl
    · next m w₁ hstep =>
      have hw₁ : w₁.Steady sink := ⟨(push_ok hw.waiting hstep).1, hw.refilled.push hstep⟩
      split at h
      · next e w₂ hrest =>
        cases h
        exact ih hw₁ hrest
      · next k w₂ hrest =>
        cases h
        exact ih hw₁ hrest

/-- Every call leaves the link steady. -/
theorem Steady.call {w w' : Link τ} {call : Call} (hw : w.Steady sink)
    (h : w.call sink call = some w') : w'.Steady sink := by
  cases call with
  | feed input =>
    by_cases haccepts : w.framer.accepts
    · rw [Link.call, feed_eq hw.waiting haccepts] at h
      cases h
      exact hw.fed rfl
    · rw [Link.call, feed, feedWithin, if_pos haccepts] at h
      cases h
      exact hw
  | disconnect =>
    cases h
    unfold Framer.disconnect
    dsimp only
    split
    · exact steady_of_empty rfl rfl
    · next hempty =>
      -- an empty buffer waits for a header
      have hempty : w.framer.buffer = [] := not_not.mp hempty
      refine steady_of_empty hempty ?_
      have hrefilled := hw.refilled
      unfold Refilled at hrefilled
      rw [hempty] at hrefilled
      have heq := congrArg (fun r => r.2.framer.expected) hrefilled
      exact heq.symm
  | reconnect =>
    cases h
    exact steady_of_empty rfl rfl
  | shutdown =>
    cases h
    exact steady_of_empty rfl rfl
  | reset =>
    cases h
    exact steady_of_empty rfl rfl

theorem Reachable.steady {w : Link τ} (h : w.Reachable sink) : w.Steady sink := by
  induction h with
  | new => exact steady_of_empty rfl rfl
  | call _ _ hcall ih => exact ih.call hcall

/-! ## Packets at the head of a stream -/

/-- A packet that decodes and is not larger than the maximum. -/
def WellFormed (maximum : ℕ) (packet : Bytes) : Prop :=
  packet.length ≤ maximum ∧ ∃ v, decodeEnvelope packet = .ok v

/-- The sink takes the packets one after the other. -/
def Takes (sink : Sink τ) : τ → List Bytes → Prop
  | _, [] => True
  | context, packet :: rest =>
    (sink context packet).1 = .ok () ∧ Takes sink (sink context packet).2 rest

/-- Consecutive well-formed packets at the head of a stream that the sink accepts. -/
structure Head (sink : Sink τ) (w : Link τ) (stream : Bytes) (packets : List Bytes) : Prop where
  leads : packets.flatten <+: stream
  wellFormed : ∀ packet ∈ packets, WellFormed w.framer.maximumPacketBytes packet
  takes : Takes sink w.context packets

theorem head_nil (stream : Bytes) : Head sink w stream [] :=
  ⟨List.nil_prefix, by simp, trivial⟩

/-- The first word of a packet tells its size. -/
theorem decodeEnvelope_header {packet : Bytes} {v : EnvelopeView}
    (h : decodeEnvelope packet = .ok v) :
    ∃ header, wordAt packet 0 = some header ∧ bits header 28 4 ≤ 7 ∧
      packet.length = bits header 0 16 * 4 ∧ 4 ≤ packet.length := by
  simp only [decodeEnvelope, decodePrologue, bind_eq_ok, rejectIf_eq_ok, load32_eq_ok] at h
  obtain ⟨_, ⟨_, hfour, header, hheader, _, htype, _, -, _, hsize, -⟩, -⟩ := h
  exact ⟨header, hheader, by omega, by omega, by omega⟩

theorem wordAt_of_prefix {packet stream : Bytes} {header : UInt32} (h : packet <+: stream)
    (hheader : wordAt packet 0 = some header) : wordAt stream 0 = some header := by
  obtain ⟨rest, rfl⟩ := h
  have hsplit := (wordAt_eq_some_iff packet 0 header).mp hheader
  rw [List.drop_zero] at hsplit
  rw [hsplit, List.append_assoc]
  exact wordAt_append [] header _

theorem wordAt_take {stream : Bytes} {header : UInt32} {n : ℕ} (hn : 4 ≤ n)
    (hheader : wordAt stream 0 = some header) : wordAt (stream.take n) 0 = some header := by
  have hlength := le_length_of_wordAt hheader
  obtain ⟨header', hheader'⟩ := @wordAt_isSome (stream.take n) 0 (by rw [List.length_take]; omega)
  have h := wordAt_of_prefix (List.take_prefix n stream) hheader'
  rw [hheader] at h
  rw [hheader', h]

/-- A first packet is as long as the stream's first word says, and the other packets follow it. -/
theorem Head.first {stream packet : Bytes} {rest : List Bytes} (h : Head sink w stream (packet :: rest)) :
    ∃ header, wordAt stream 0 = some header ∧ bits header 28 4 ≤ 7 ∧
      packet = stream.take (bits header 0 16 * 4) ∧ bits header 0 16 * 4 ≤ stream.length ∧
      4 ≤ bits header 0 16 * 4 ∧ bits header 0 16 * 4 ≤ w.framer.maximumPacketBytes := by
  obtain ⟨hmaximum, v, hv⟩ := h.wellFormed packet (List.mem_cons_self ..)
  obtain ⟨header, hheader, htype, hlength, hfour⟩ := decodeEnvelope_header hv
  have hlead : packet <+: stream := (List.prefix_append _ _).trans h.leads
  refine ⟨header, wordAt_of_prefix hlead hheader, htype, ?_, ?_, by omega, by omega⟩
  · rw [← hlength]
    exact List.prefix_iff_eq_take.mp hlead
  · rw [← hlength]
    exact hlead.length_le

/-- No packet is at the head of a stream whose first word is not that of a packet. -/
theorem Head.eq_nil {stream : Bytes} {packets : List Bytes} (h : Head sink w stream packets)
    (hnone : ∀ header, wordAt stream 0 = some header → bits header 28 4 ≤ 7 →
      bits header 0 16 * 4 ≤ stream.length → 4 ≤ bits header 0 16 * 4 →
      bits header 0 16 * 4 ≤ w.framer.maximumPacketBytes → False) : packets = [] := by
  cases packets with
  | nil => rfl
  | cons packet rest =>
    obtain ⟨header, hheader, htype, -, hinside, hfour, hmaximum⟩ := h.first
    exact (hnone header hheader htype hinside hfour hmaximum).elim

/-- What a header says of a packet is looked at once. -/
theorem settle_inspected {f : Framer} (h : w.framer.inspectHeader = .ok f) :
    settle sink w = settle sink { w with framer := f } := by
  have hagain : f.inspectHeader = .ok f := by
    obtain ⟨hsame, hkeep, hread⟩ := inspectHeader_eq_ok h
    have hbuffer : f.buffer = w.framer.buffer := by rw [hsame]
    unfold Framer.inspectHeader
    rw [if_pos]
    · rfl
    · by_cases hshort : w.framer.buffer.length < 4
      · exact .inl (hbuffer ▸ hshort)
      · right
        by_cases hzero : w.framer.expected = 0
        · obtain ⟨_, -, -, -, hfour, -⟩ := hread (by omega) hzero
          omega
        · rw [hkeep (.inr hzero)]
          exact hzero
  unfold settle
  rw [h, hagain]

/-- A complete packet is checked and offered. -/
theorem settle_full (hne : w.framer.expected ≠ 0)
    (hfull : w.framer.buffer.length = w.framer.expected) :
    settle sink w = match decodeEnvelope w.framer.buffer with
      | .error e => (.error (faultError e), w.shutdown)
      | .ok _ => offer sink w.framer.buffer { w with framer := w.framer.reset } := by
  have hsame : w.framer.inspectHeader = .ok w.framer := by
    unfold Framer.inspectHeader
    rw [if_pos (.inr hne)]
    rfl
  unfold settle
  rw [hsame]
  dsimp only
  rw [if_neg]
  rintro (h | h)
  · exact hne h
  · exact h hfull

/-- The link with the first bytes of a packet of a known size in its buffer. -/
def collecting (w : Link τ) (block : Bytes) (size : ℕ) : Link τ :=
  { w with framer := { w.framer with buffer := block, expected := size } }

/-- The header of a stream is looked at when its four bytes are there. -/
theorem inspectHeader_copy {stream : Bytes} {header : UInt32} (hempty : w.framer.buffer = [])
    (hexpected : w.framer.expected = 0) (hheader : wordAt stream 0 = some header) :
    (copy (stream.take 4) w).framer.inspectHeader = (do
      rejectIf (bits header 28 4 > 7 ∨ bits header 0 16 * 4 < 4 ∨
        bits header 0 16 * 4 > w.framer.maximumPacketBytes ∨
        bits header 0 16 * 4 > w.framer.capacity) { code := .invalidArgument }
      return (w.collecting (stream.take 4) (bits header 0 16 * 4)).framer) := by
  have hlength := le_length_of_wordAt hheader
  unfold copy Framer.inspectHeader collecting
  dsimp only
  rw [hempty, List.nil_append, hexpected, if_neg, wordAt_take le_rfl hheader, Option.getD_some]
  simp only [List.length_take, not_or, not_lt, not_not, and_true]
  omega

/-- Up to four bytes are copied at once. -/
theorem pump_header {block : Bytes} (hempty : w.framer.buffer = [])
    (hexpected : w.framer.expected = 0) (hne : block ≠ []) :
    pump (push sink) (block.take 4) w = settle sink (copy (block.take 4) w) := by
  refine pump_block ?_ ?_
  · rw [ne_eq, List.take_eq_nil_iff]
    rintro (h | h)
    · omega
    · exact hne h
  · rw [hempty, Framer.target, if_neg (not_not.mpr hexpected), List.length_take, List.length_nil]
    omega

/-- A header that is not that of a packet is refused. -/
theorem pump_refused {stream : Bytes} {header : UInt32} (hempty : w.framer.buffer = [])
    (hexpected : w.framer.expected = 0) (hheader : wordAt stream 0 = some header)
    (hrefused : ¬(bits header 28 4 ≤ 7 ∧ 4 ≤ bits header 0 16 * 4 ∧
        bits header 0 16 * 4 ≤ w.framer.maximumPacketBytes)) :
    ∃ e, pump (push sink) stream w = (.error e, (copy (stream.take 4) w).shutdown) := by
  have hlength := le_length_of_wordAt hheader
  have hne : stream ≠ [] := by
    rintro rfl
    simp at hlength
  refine ⟨{ code := .invalidArgument }, ?_⟩
  conv_lhs => rw [← List.take_append_drop 4 stream]
  rw [pump_append, pump_header hempty hexpected hne, settle,
    inspectHeader_copy hempty hexpected hheader, rejectIf, if_pos (by omega)]
  rfl

/-- From the header on, the bytes of a packet are collected. -/
theorem pump_packet {block : Bytes} {header : UInt32} (hempty : w.framer.buffer = [])
    (hexpected : w.framer.expected = 0) (haccepts : w.framer.accepts)
    (hheader : wordAt block 0 = some header) (htype : bits header 28 4 ≤ 7)
    (hfour : 4 ≤ bits header 0 16 * 4)
    (hmaximum : bits header 0 16 * 4 ≤ w.framer.maximumPacketBytes)
    (hblock : block.length ≤ bits header 0 16 * 4) :
    pump (push sink) block w = settle sink (w.collecting block (bits header 0 16 * 4)) := by
  have hlength : 4 ≤ block.length := le_length_of_wordAt hheader
  have hcapacity : w.framer.maximumPacketBytes ≤ w.framer.capacity := by
    have h := haccepts
    simp only [Framer.accepts, decide_eq_true_eq] at h
    exact h.2.2.1
  -- the header alone
  have hfirst : pump (push sink) (block.take 4) w =
      settle sink (w.collecting (block.take 4) (bits header 0 16 * 4)) := by
    have hne : block ≠ [] := by
      rintro rfl
      simp at hlength
    rw [pump_header hempty hexpected hne]
    refine settle_inspected ?_
    rw [inspectHeader_copy hempty hexpected hheader, rejectIf_of_not]
    · rfl
    · omega
  conv_lhs => rw [← List.take_append_drop 4 block]
  rw [pump_append, hfirst]
  by_cases hmore : block.drop 4 = []
  · rw [hmore]
    have hall : block.take 4 = block := by
      conv_rhs => rw [← List.take_append_drop 4 block, hmore, List.append_nil]
    rw [hall]
    exact andThen_done _
  · have hdrop : 4 < block.length := by
      by_contra h
      exact hmore (List.drop_eq_nil_of_le (by omega))
    have hnext : (w.collecting (block.take 4) (bits header 0 16 * 4)).framer.target =
        bits header 0 16 * 4 := by
      show (if bits header 0 16 * 4 ≠ 0 then bits header 0 16 * 4 else 4) = _
      rw [if_pos (by omega)]
    have hwaiting : (w.collecting (block.take 4) (bits header 0 16 * 4)).Waiting := by
      unfold Waiting
      rw [hnext]
      show (block.take 4).length < _
      rw [List.length_take]
      omega
    rw [settle_of_waiting hwaiting, andThen_zero, pump_block hmore]
    · unfold copy collecting
      dsimp only
      rw [List.take_append_drop]
    · rw [hnext]
      show (block.take 4).length + _ ≤ _
      rw [List.length_take, List.length_drop]
      omega

/-- The packets that were delivered since are the longest list of packets at the head of the
stream. -/
structure Delivers (sink : Sink τ) (w : Link τ) (stream : Bytes) (w' : Link τ)
    (packets : List Bytes) : Prop where
  delivered : w'.delivered = w.delivered ++ packets
  head : Head sink w stream packets
  longest : ∀ others, Head sink w stream others → others <+: packets

theorem delivers_nil {stream : Bytes} {w' : Link τ} (hdelivered : w'.delivered = w.delivered)
    (hnone : ∀ others, Head sink w stream others → others = []) :
    Delivers sink w stream w' [] where
  delivered := by rw [hdelivered, List.append_nil]
  head := head_nil stream
  longest := by
    intro others h
    rw [hnone others h]

/-- A packet is delivered and the stream goes on behind it. -/
theorem Delivers.cons {stream packet : Bytes} {context : τ} {w₁ w' : Link τ}
    {packets : List Bytes}
    (h : Delivers sink w₁ (stream.drop packet.length) w' packets)
    (hlead : packet <+: stream) (hwell : WellFormed w.framer.maximumPacketBytes packet)
    (hsink : sink w.context packet = (.ok (), context)) (hcontext : w₁.context = context)
    (hdelivered : w₁.delivered = w.delivered ++ [packet])
    (hmaximum : w₁.framer.maximumPacketBytes = w.framer.maximumPacketBytes)
    (honly : ∀ other rest, Head sink w stream (other :: rest) → other = packet) :
    Delivers sink w stream w' (packet :: packets) where
  delivered := by
    rw [h.delivered, hdelivered, List.append_assoc, List.singleton_append]
  head := by
    have hsplit : packet ++ stream.drop packet.length = stream := List.prefix_iff_eq_append.mp hlead
    refine ⟨?_, ?_, ?_⟩
    · rw [List.flatten_cons, ← hsplit]
      exact (List.prefix_append_right_inj packet).mpr (by simpa using h.head.leads)
    · intro p hp
      rcases List.mem_cons.mp hp with rfl | hp
      · exact hwell
      · exact hmaximum ▸ h.head.wellFormed p hp
    · refine ⟨by rw [hsink], ?_⟩
      rw [hsink, ← hcontext]
      exact h.head.takes
  longest := by
    intro others hothers
    cases others with
    | nil => exact List.nil_prefix
    | cons other rest =>
      obtain rfl := honly other rest hothers
      rw [List.prefix_cons_inj]
      refine h.longest rest ⟨?_, fun p hp => ?_, ?_⟩
      · have hleads := hothers.leads
        rw [List.flatten_cons, ← List.prefix_iff_eq_append.mp hlead,
          List.prefix_append_right_inj] at hleads
        exact hleads
      · rw [hmaximum]
        exact hothers.wellFormed p (List.mem_cons_of_mem _ hp)
      · have htakes := hothers.takes.2
        rw [hsink, ← hcontext] at htakes
        exact htakes

/-- A complete packet is delivered if it decodes and the sink takes it. -/
theorem delivers_packet {stream packet : Bytes} {size : ℕ} (hlength : packet.length = size)
    (hlead : packet <+: stream) (hmaximum : size ≤ w.framer.maximumPacketBytes)
    (honly : ∀ other rest, Head sink w stream (other :: rest) → other = packet)
    (hrest : ∀ w₁ : Link τ, w₁.framer.buffer = [] → w₁.framer.expected = 0 →
      w₁.framer.accepts = w.framer.accepts →
      ∃ packets, Delivers sink w₁ (stream.drop size) (pump (push sink) (stream.drop size) w₁).2
        packets) :
    ∃ packets, Delivers sink w stream (andThen
      (match decodeEnvelope packet with
        | .error e => (.error (faultError e), (w.collecting packet size).shutdown)
        | .ok _ => offer sink packet { w with framer := (w.collecting packet size).framer.reset })
      (pump (push sink) (stream.drop size))).2 packets := by
  have hnone : (∀ v, decodeEnvelope packet = .ok v → (sink w.context packet).1 ≠ .ok ()) →
      ∀ others, Head sink w stream others → others = [] := by
    intro hrefused others h
    cases others with
    | nil => rfl
    | cons other rest =>
      obtain rfl := honly other rest h
      obtain ⟨-, v, hv⟩ := h.wellFormed other (List.mem_cons_self ..)
      exact absurd h.takes.1 (hrefused v hv)
  rcases hdecode : decodeEnvelope packet with e | v
  · refine ⟨[], delivers_nil rfl (hnone fun v hv => ?_)⟩
    rw [hdecode] at hv
    cases hv
  · unfold offer
    dsimp only
    rcases hsink : sink w.context packet with ⟨e | u, context⟩
    · refine ⟨[], delivers_nil rfl (hnone fun v hv => ?_)⟩
      rw [hsink]
      simp
    · obtain ⟨packets, hpackets⟩ := hrest
        { framer := (w.collecting packet size).framer.reset, context
          offered := w.offered ++ [packet], delivered := w.delivered ++ [packet] } rfl rfl rfl
      refine ⟨packet :: packets, ?_⟩
      rw [← hlength] at hpackets hmaximum ⊢
      have hwell : WellFormed w.framer.maximumPacketBytes packet := ⟨hmaximum, v, hdecode⟩
      have h := hpackets.cons hlead hwell hsink rfl rfl rfl honly
      unfold andThen
      dsimp only
      split
      · next heq => rw [heq] at h; exact h
      · next heq => rw [heq] at h; exact h

/-- An empty framer delivers what is at the head of the stream. -/
theorem pump_delivers {stream : Bytes} (hempty : w.framer.buffer = [])
    (hexpected : w.framer.expected = 0) (haccepts : w.framer.accepts) :
    ∃ packets, Delivers sink w stream (pump (push sink) stream w).2 packets := by
  induction hsize : stream.length using Nat.strong_induction_on generalizing stream w with
  | _ size ih =>
  subst hsize
  have htarget : w.framer.target = 4 := by
    unfold Framer.target
    rw [if_neg (not_not.mpr hexpected)]
  by_cases hshort : stream.length < 4
  · -- not even a header
    refine ⟨[], delivers_nil ?_ fun others h => h.eq_nil ?_⟩
    · by_cases hnil : stream = []
      · rw [hnil]
        rfl
      · have hroom : w.framer.buffer.length + stream.length < w.framer.target := by
          rw [hempty, htarget, List.length_nil]
          omega
        have hwaiting : (copy stream w).Waiting := by
          show (w.framer.buffer ++ stream).length < w.framer.target
          rw [List.length_append]
          exact hroom
        rw [pump_block hnil hroom.le, settle_of_waiting hwaiting]
        rfl
    · intro header _ _ hinside hfour _
      omega
  · obtain ⟨header, hheader⟩ := @wordAt_isSome stream 0 (by omega)
    by_cases hvalid : bits header 28 4 ≤ 7 ∧ 4 ≤ bits header 0 16 * 4 ∧
        bits header 0 16 * 4 ≤ w.framer.maximumPacketBytes
    · obtain ⟨htype, hfour, hmaximum⟩ := hvalid
      by_cases hpart : stream.length < bits header 0 16 * 4
      · -- the packet is not complete
        refine ⟨[], delivers_nil ?_ fun others h => h.eq_nil ?_⟩
        · rw [pump_packet hempty hexpected haccepts hheader htype hfour hmaximum hpart.le,
            settle_of_waiting]
          · rfl
          · show stream.length < (if bits header 0 16 * 4 ≠ 0 then bits header 0 16 * 4 else 4)
            rw [if_pos (by omega)]
            exact hpart
        · intro header' hheader' _ hinside _ _
          rw [hheader] at hheader'
          cases hheader'
          omega
      · -- a packet, and what follows it
        rw [not_lt] at hpart
        have hlength : (stream.take (bits header 0 16 * 4)).length = bits header 0 16 * 4 := by
          rw [List.length_take]
          omega
        have hfirst : pump (push sink) (stream.take (bits header 0 16 * 4)) w = _ :=
          pump_packet hempty hexpected haccepts (wordAt_take hfour hheader) htype hfour hmaximum
            hlength.le
        rw [settle_full (by show bits header 0 16 * 4 ≠ 0; omega) hlength] at hfirst
        have hpump : pump (push sink) stream w =
            andThen (pump (push sink) (stream.take (bits header 0 16 * 4)) w)
              (pump (push sink) (stream.drop (bits header 0 16 * 4))) := by
          rw [← pump_append, List.take_append_drop]
        have honly : ∀ other rest, Head sink w stream (other :: rest) →
            other = stream.take (bits header 0 16 * 4) := by
          intro other rest h
          obtain ⟨header', hheader', -, hother, -⟩ := h.first
          rw [hheader] at hheader'
          cases hheader'
          exact hother
        rw [hpump, hfirst]
        exact delivers_packet hlength (List.take_prefix _ _) hmaximum honly fun w₁ hempty hexpected haccepts' =>
          ih _ (by rw [List.length_drop]; omega) hempty hexpected (haccepts'.trans haccepts) rfl
    · -- the header is refused
      obtain ⟨e, hpump⟩ := pump_refused hempty hexpected hheader hvalid
      refine ⟨[], delivers_nil ?_ fun others h => h.eq_nil ?_⟩
      · rw [hpump]
        rfl
      · intro header' hheader' htype _ hfour hmaximum
        rw [hheader] at hheader'
        cases hheader'
        exact hvalid ⟨htype, hfour, hmaximum⟩

/-! ## Any cut of the stream -/

/-- A framer that does not accept input stays as it is. -/
theorem feedWithin_refused {rounds : ℕ} {input : Bytes} (h : ¬w.framer.accepts) :
    feedWithin sink rounds input w = some (.error { code := .invalidState }, w) := if_pos h

/-- What is fed continues what the buffer holds. -/
theorem Steady.pump_buffer (h : w.Steady sink) (input : Bytes) :
    pump (push sink) (w.framer.buffer ++ input) { w with framer := w.framer.reset } =
      pump (push sink) input w := by
  rw [pump_append, h.refilled, andThen_zero]

/-- What is pushed is delivered as the buffer and the input together. -/
theorem Steady.delivers (h : w.Steady sink) (haccepts : w.framer.accepts) (input : Bytes) :
    ∃ packets, Delivers sink w (w.framer.buffer ++ input) (pump (push sink) input w).2 packets := by
  have hempty : ∃ packets, Delivers sink { w with framer := w.framer.reset } (w.framer.buffer ++ input)
      (pump (push sink) (w.framer.buffer ++ input) { w with framer := w.framer.reset }).2 packets :=
    pump_delivers rfl rfl haccepts
  rw [h.pump_buffer] at hempty
  obtain ⟨packets, hdelivered, hhead, hlongest⟩ := hempty
  -- the framer's own fields do not matter to the head of the stream
  refine ⟨packets, hdelivered, ⟨hhead.leads, hhead.wellFormed, hhead.takes⟩, ?_⟩
  intro others hothers
  exact hlongest others ⟨hothers.leads, hothers.wellFormed, hothers.takes⟩

/-- A stream is framed in the same way however it is cut: the chunks have the outcome of the whole
stream, with the same framer, the same sink context and the same packets offered. A feed takes at most
a round for every byte. What is delivered is the longest sequence of well-formed packets at the head
of the stream, the bytes in the buffer before it, that the sink accepts. -/
theorem chunks_independent {w : Link τ} (hw : w.Reachable sink) :
    (∀ chunks : List Bytes, (chunks = [] → w.framer.accepts) →
      ∃ r, feedChunks sink chunks w = some r ∧ feed sink chunks.flatten w = some r) ∧
    (∀ input rounds, input.length < rounds →
      ∃ r, feedWithin sink rounds input w = some r ∧ feed sink input w = some r) ∧
    (w.framer.accepts → ∀ input, ∃ r w' packets, feed sink input w = some (r, w') ∧
      Delivers sink w (w.framer.buffer ++ input) w' packets) := by
  have hsteady := hw.steady
  refine ⟨fun chunks hchunks => ?_, fun input rounds hrounds => ?_, fun haccepts input => ?_⟩
  · by_cases haccepts : w.framer.accepts
    · exact ⟨_, feedChunks_eq hsteady.waiting haccepts, feed_eq hsteady.waiting haccepts⟩
    · cases chunks with
      | nil => exact absurd (hchunks rfl) haccepts
      | cons chunk rest =>
        refine ⟨(.error { code := .invalidState }, w), ?_, feedWithin_refused haccepts⟩
        rw [feedChunks, feed, feedWithin_refused haccepts]
  · by_cases haccepts : w.framer.accepts
    · exact ⟨_, feedWithin_eq hsteady.waiting haccepts hrounds, feed_eq hsteady.waiting haccepts⟩
    · exact ⟨_, feedWithin_refused haccepts, feedWithin_refused haccepts⟩
  · obtain ⟨packets, hpackets⟩ := hsteady.delivers haccepts input
    exact ⟨_, _, packets, feed_eq hsteady.waiting haccepts, hpackets⟩

/-- A new framer whose sink counts the packets. -/
def counting : Link ℕ := { framer := { capacity := 64, maximumPacketBytes := 16 }, context := 0 }

/-- A packet of twelve bytes comes in four chunks, with the first byte of the next one. -/
theorem chunks_independent_new :
    ∃ r, feedChunks (fun n _ => (.ok (), n + 1)) [[0x40], [0, 0, 3, 0], [0, 0, 0], [0, 0, 0, 0, 0x40]]
        counting = some r ∧
      feed (fun n _ => (.ok (), n + 1)) [0x40, 0, 0, 3, 0, 0, 0, 0, 0, 0, 0, 0, 0x40] counting = some r ∧
      r.2.context = 1 ∧ r.2.framer.buffer = [0x40] := by
  have hnew : counting.Reachable (fun n _ => (.ok (), n + 1)) := .new 64 16 0
  obtain ⟨r, hchunks, hwhole⟩ := (chunks_independent hnew).1
    [[0x40], [0, 0, 3, 0], [0, 0, 0], [0, 0, 0, 0, 0x40]] (by simp)
  have hstate : (feed (fun n _ => (.ok (), n + 1)) [0x40, 0, 0, 3, 0, 0, 0, 0, 0, 0, 0, 0, 0x40]
      counting).map (fun r => (r.2.context, r.2.framer.buffer)) = some (1, [0x40]) := by decide
  refine ⟨r, hchunks, hwhole, ?_⟩
  have hr : (r.2.context, r.2.framer.buffer) = (1, [0x40]) :=
    Option.some.inj ((congrArg (Option.map _) hwhole).symm.trans hstate)
  exact Prod.mk.inj hr

end Link

end Vita.Transport
