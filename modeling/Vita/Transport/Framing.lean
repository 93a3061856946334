import Vita.Codec.Prologue

/-!
# Inspection of a segmented packet (`transport/framing.hpp`, `memory/envelope.hpp`)

A packet that is to be sent is held in up to three segments. `inspect` copies the bytes of the prologue
that it needs, word by word, into an array of 68 bytes and reads the envelope from there.

Main results:
- `Tracks`: reading from the copy follows the decoder on the joined segments;
- `inspect_eq`: `inspect` returns what the decoder returns, errors included;
- `inspect_agrees`: with the two writers of a prologue.
-/

namespace Vita.Transport

open Words Checked Codec

/-! ## Storage -/

/-- `BufferLease`: the bytes in use; without an address the CPU cannot read them. -/
structure BufferLease where
  contents : Bytes
  address : Bool := true

def BufferLease.bytes (lease : BufferLease) : Result Bytes :=
  if lease.address then .ok lease.contents else .error { code := .noCpuAccess }

/-- A segment as `append` lets it in. -/
structure TxSegment where
  lease : BufferLease
  offset : ℕ
  length : ℕ
  nonempty : 0 < length
  inside : offset + length ≤ lease.contents.length

def TxSegment.bytes (s : TxSegment) : Result Bytes := do
  let b ← s.lease.bytes
  return (b.drop s.offset).take s.length

structure TxStorage where
  segments : List TxSegment
  count : segments.length ≤ 3

def TxStorage.byteSize (storage : TxStorage) : ℕ := (storage.segments.map TxSegment.length).sum

/-! ## Reading a prologue -/

/-- The bytes that were copied into the array, and the offset of the next word. -/
structure Reader where
  copied : Bytes := []
  offset : ℕ := 4

/-- `std::array<std::byte, 68>`, zero behind what was copied. -/
def Reader.wire (r : Reader) : Bytes := r.copied ++ List.replicate (68 - r.copied.length) 0

/-- The loop of `ensure`: the segments from one that starts at an offset on. -/
def gather (wanted : ℕ) : List TxSegment → (start : ℕ) → Bytes → Result Bytes
  | [], _, copied => return copied
  | s :: rest, start, copied => do
    if copied.length < wanted then
      let part ← s.bytes
      if copied.length ≥ start + part.length then gather wanted rest (start + part.length) copied
      else
        let offset := copied.length - start
        let n := min (wanted - copied.length) (part.length - offset)
        gather wanted rest (start + part.length) (copied ++ (part.drop offset).take n)
    else return copied

def ensure (storage : TxStorage) (wanted : ℕ) (copied : Bytes) : Result Bytes := do
  let short : Error :=
    { code := .shortInput, offset := copied.length, requiredCapacity := wanted }
  rejectIf (wanted > 68 ∨ wanted > storage.byteSize) short
  let copied ← gather wanted storage.segments 0 copied
  rejectIf (copied.length ≠ wanted)
    { code := .shortInput, offset := copied.length, requiredCapacity := wanted }
  return copied

namespace Reader

/-- The `take` of `inspect`. -/
def take (storage : TxStorage) (r : Reader) : Decoded (UInt32 × Reader) := do
  let copied ← (ensure storage (r.offset + 4) r.copied).decoded
  let value ← load32 { r with copied }.wire r.offset
  return (value, { copied, offset := r.offset + 4 })

def takeStreamId (present : Bool) (storage : TxStorage) (r : Reader) :
    Decoded (Option UInt32 × Reader) := do
  if present then
    let (v, r) ← take storage r
    return (some v, r)
  else return (none, r)

def takeClassId (present : Bool) (storage : TxStorage) (r : Reader) :
    Decoded (Option ClassId × Reader) := do
  if present then
    let (a, r) ← take storage r
    let (b, r) ← take storage r
    rejectIf (a &&& 0x07000000 ≠ 0)
      (Fault.error { code := .invalidArgument, offset := r.offset - 8 })
    return (some { oui := a &&& 0xffffff, informationClass := (b >>> 16).toUInt16,
                   packetClass := b.toUInt16, padBits := (a >>> 27).toUInt8 }, r)
  else return (none, r)

def takeInteger (tsi : Tsi) (storage : TxStorage) (r : Reader) : Decoded (UInt32 × Reader) :=
  if tsi ≠ .none then take storage r else return (0, r)

def takeFractional (tsf : Tsf) (storage : TxStorage) (r : Reader) : Decoded (UInt64 × Reader) := do
  if tsf ≠ .none then
    let (a, r) ← take storage r
    let (b, r) ← take storage r
    return ((a.toUInt64 <<< 32) ||| b.toUInt64, r)
  else return (0, r)

def takeTimestamp (tsi : Tsi) (tsf : Tsf) (storage : TxStorage) (r : Reader) :
    Decoded (Timestamp × Reader) := do
  let (integer, r) ← takeInteger tsi storage r
  let (fractional, r) ← takeFractional tsf storage r
  return ({ tsi, tsf, integer, fractional }, r)

def takeIdentifier (cam : UInt32) (enable uuid : ℕ) (storage : TxStorage) (r : Reader) :
    Decoded (Identifier × Reader) := do
  if bit cam enable then
    if bit cam uuid then
      let (a, r) ← take storage r
      let (b, r) ← take storage r
      let (c, r) ← take storage r
      let (d, r) ← take storage r
      return ({ kind := .uuid, words := ![a, b, c, d] }, r)
    else
      let (a, r) ← take storage r
      return ({ kind := .shortId, words := ![a, 0, 0, 0] }, r)
  else return ({}, r)

def takeCommand (present : Bool) (storage : TxStorage) (r : Reader) :
    Decoded (Option Command × Reader) := do
  if present then
    let (cam, r) ← take storage r
    let (messageId, r) ← take storage r
    let (controllee, r) ← takeIdentifier cam 31 30 storage r
    let (controller, r) ← takeIdentifier cam 29 28 storage r
    return (some { cam, messageId, controllee, controller }, r)
  else return (none, r)

end Reader

/-- `transport::Framing`. -/
structure Framing where
  envelope : Envelope
  payloadOffset : ℕ
  payloadBytes : ℕ
  packetBytes : ℕ

/-- The envelope of the packet in a storage and where its payload starts. -/
def inspectPrologue (storage : TxStorage) : Decoded (Envelope × Reader) := do
  let copied ← (ensure storage 4 []).decoded
  let r : Reader := { copied }
  let total := storage.byteSize
  let h ← load32 r.wire 0
  let size := bits h 0 16 * 4
  rejectIf (bits h 28 4 > 7 ∨ size = 0) (Fault.error invalidArgument)
  rejectIf (size > total)
    (Fault.error { code := .shortInput, offset := total, requiredCapacity := size })
  rejectIf (size ≠ total) (Fault.error { code := .invalidArgument, offset := size })
  rejectIf (reservedFlag h) (Fault.error invalidArgument)
  let e := headerEnvelope h
  let (streamId, r) ← r.takeStreamId (hasSid e.type) storage
  let (classId, r) ← r.takeClassId (bit h 27) storage
  let (timestamp, r) ← r.takeTimestamp e.timestamp.tsi e.timestamp.tsf storage
  let (command, r) ← r.takeCommand (isCommand e.type) storage
  return ({ e with streamId, classId, timestamp, command }, r)

def inspect (storage : TxStorage) : Decoded Framing := do
  let (e, r) ← inspectPrologue storage
  -- the header's size was compared with the storage
  let size := storage.byteSize
  let trailerSize := if e.trailer then 4 else 0
  rejectIf (r.offset > size ∨ trailerSize > size - r.offset)
    (Fault.error { code := .shortInput, offset := r.offset, requiredCapacity := r.offset + trailerSize })
  let payloadBytes := size - r.offset - trailerSize
  let _ ← (measureEnvelope e payloadBytes).decoded
  return { envelope := e, payloadOffset := r.offset, payloadBytes, packetBytes := size }

/-! ## Copying -/

/-- The bytes of a segment. -/
def TxSegment.content (s : TxSegment) : Bytes := (s.lease.contents.drop s.offset).take s.length

/-- The segments joined. -/
def TxStorage.bytes (storage : TxStorage) : Bytes := storage.segments.flatMap TxSegment.content

def TxStorage.Readable (storage : TxStorage) : Prop := ∀ s ∈ storage.segments, s.lease.address

theorem TxSegment.length_content (s : TxSegment) : s.content.length = s.length := by
  have hinside := s.inside
  rw [content, List.length_take, List.length_drop]
  omega

theorem TxSegment.bytes_eq {s : TxSegment} (h : s.lease.address) : s.bytes = .ok s.content := by
  rw [TxSegment.bytes, BufferLease.bytes, if_pos h]
  rfl

theorem TxStorage.byteSize_eq (storage : TxStorage) : storage.byteSize = storage.bytes.length := by
  have hlength : TxSegment.length = fun s => s.content.length := by
    funext s
    exact s.length_content.symm
  rw [byteSize, bytes, List.length_flatMap, hlength]

variable {storage : TxStorage}

/-- The loop copies up to what is wanted, wherever the segments are cut. -/
theorem gather_eq {wanted k : ℕ} (segments : List TxSegment) (pre : Bytes)
    (hreadable : ∀ s ∈ segments, s.lease.address) (hk : k ≤ wanted)
    (hwanted : wanted ≤ (pre ++ segments.flatMap TxSegment.content).length)
    (hstart : pre.length ≤ k ∨ wanted ≤ k) :
    gather wanted segments pre.length ((pre ++ segments.flatMap TxSegment.content).take k) =
      .ok ((pre ++ segments.flatMap TxSegment.content).take wanted) := by
  induction segments generalizing pre k with
  | nil =>
    rw [List.flatMap_nil, List.append_nil] at hwanted ⊢
    have heq : k = wanted := by omega
    rw [heq]
    rfl
  | cons s rest ih =>
    have hjoin : pre ++ (s :: rest).flatMap TxSegment.content =
        (pre ++ s.content) ++ rest.flatMap TxSegment.content := by
      rw [List.flatMap_cons, List.append_assoc]
    have hlength : (pre ++ s.content).length = pre.length + s.content.length := List.length_append
    rw [hjoin] at hwanted ⊢
    have hcopied : (((pre ++ s.content) ++ rest.flatMap TxSegment.content).take k).length = k := by
      rw [List.length_take]
      omega
    have hrest := fun x hx => hreadable x (List.mem_cons_of_mem s hx)
    rw [gather, hcopied]
    by_cases hmore : k < wanted
    · rw [if_pos hmore, TxSegment.bytes_eq (hreadable s (List.mem_cons_self ..)), ok_bind, ← hlength]
      by_cases hskip : k ≥ (pre ++ s.content).length
      · rw [if_pos hskip]
        exact ih (pre ++ s.content) hrest hk hwanted (.inl hskip)
      · rw [if_neg hskip]
        dsimp only
        generalize hn : min (wanted - k) (s.content.length - (k - pre.length)) = n
        -- the bytes behind those that were copied
        have hdrop : ((pre ++ s.content) ++ rest.flatMap TxSegment.content).drop k =
            s.content.drop (k - pre.length) ++ rest.flatMap TxSegment.content := by
          rw [List.drop_append_of_le_length (by omega), List.drop_append,
            List.drop_eq_nil_of_le (by omega), List.nil_append]
        have hnext : ((pre ++ s.content) ++ rest.flatMap TxSegment.content).take k ++
            (s.content.drop (k - pre.length)).take n =
              ((pre ++ s.content) ++ rest.flatMap TxSegment.content).take (k + n) := by
          have hn' : n ≤ (s.content.drop (k - pre.length)).length := by
            rw [List.length_drop]
            omega
          rw [List.take_add, hdrop, List.take_append_of_le_length hn']
        rw [hnext]
        exact ih (pre ++ s.content) hrest (by omega) hwanted (by omega)
    · have heq : k = wanted := by omega
      rw [if_neg hmore, heq]
      rfl

/-- The prefix of a packet is extended from its pieces, up to 68 bytes. -/
theorem ensure_eq {wanted k : ℕ} (h : storage.Readable) (hk : k ≤ wanted)
    (hlength : k ≤ storage.bytes.length) :
    ensure storage wanted (storage.bytes.take k) =
      if wanted > 68 ∨ wanted > storage.bytes.length then
        .error { code := .shortInput, offset := k, requiredCapacity := wanted }
      else .ok (storage.bytes.take wanted) := by
  have hcopied : (storage.bytes.take k).length = k := by
    rw [List.length_take]
    omega
  rw [ensure, TxStorage.byteSize_eq, hcopied]
  by_cases hout : wanted > 68 ∨ wanted > storage.bytes.length
  · rw [if_pos hout, rejectIf, if_pos hout]
    rfl
  · have hgather := gather_eq (k := k) storage.segments [] h hk
      (by rw [List.nil_append]; show wanted ≤ storage.bytes.length; omega) (.inl (Nat.zero_le k))
    rw [List.nil_append] at hgather
    have hgather : gather wanted storage.segments 0 (storage.bytes.take k) =
      .ok (storage.bytes.take wanted) := hgather
    rw [if_neg hout, rejectIf_of_not hout, ok_bind, hgather, ok_bind, rejectIf_of_not]
    · rfl
    · rw [List.length_take]
      omega

/-! ## Following the decoder -/

/-- The reader at an offset. -/
def Reader.at (storage : TxStorage) (offset : ℕ) : Reader :=
  { copied := storage.bytes.take offset, offset }

/-- A word that was copied is the word of the stream. -/
theorem Reader.wordAt_wire {o : ℕ} {w : UInt32} (h : wordAt storage.bytes o = some w) :
    wordAt (Reader.wire { copied := storage.bytes.take (o + 4), offset := o }) o = some w := by
  have hlength := le_length_of_wordAt h
  have hsplit := (wordAt_eq_some_iff _ _ _).mp h
  have htake : storage.bytes.take (o + 4) = storage.bytes.take o ++ be32 w := by
    rw [List.take_add, hsplit, List.take_left' (length_be32 w)]
  have ho : (storage.bytes.take o).length = o := by
    rw [List.length_take]
    omega
  rw [Reader.wire, htake, List.append_assoc]
  have hword := wordAt_append (storage.bytes.take o) w
    (List.replicate (68 - (storage.bytes.take o ++ be32 w).length) 0)
  rw [ho] at hword
  exact hword

/-- A reading of the copy that does what a reading of the joined segments does, and does not go past
a limit. -/
def Tracks {α : Type} (storage : TxStorage) (x : Decoded (α × Reader)) (y : Decoded (α × ℕ))
    (limit : ℕ) : Prop :=
  x = y.map (fun p => (p.1, Reader.at storage p.2)) ∧
    ∀ a o, y = .ok (a, o) → o ≤ limit ∧ o ≤ storage.bytes.length

namespace Tracks

variable {α β : Type} {limit limit' o : ℕ}

theorem pure {a : α} (hlimit : o ≤ limit) (ho : o ≤ storage.bytes.length) :
    Tracks storage (Pure.pure (a, Reader.at storage o)) (Pure.pure (a, o)) limit := by
  refine ⟨rfl, ?_⟩
  intro a' o' h
  cases h
  exact ⟨hlimit, ho⟩

/-- Two readers that agree go on together. -/
theorem bind {x : Decoded (α × Reader)} {y : Decoded (α × ℕ)} {f : α × Reader → Decoded (β × Reader)}
    {g : α × ℕ → Decoded (β × ℕ)} (h : Tracks storage x y limit)
    (hfg : ∀ a o, o ≤ limit → o ≤ storage.bytes.length →
      Tracks storage (f (a, Reader.at storage o)) (g (a, o)) limit') :
    Tracks storage (x >>= f) (y >>= g) limit' := by
  obtain ⟨rfl, hbound⟩ := h
  cases y with
  | error e =>
    refine ⟨rfl, ?_⟩
    intro a o h
    cases h
  | ok p =>
    obtain ⟨a, o⟩ := p
    obtain ⟨hlimit, ho⟩ := hbound a o rfl
    exact hfg a o hlimit ho

theorem reject {c : Prop} [Decidable c] {e : Fault} {x : Decoded (β × Reader)} {y : Decoded (β × ℕ)}
    (h : Tracks storage x y limit) :
    Tracks storage (rejectIf c e >>= fun _ => x) (rejectIf c e >>= fun _ => y) limit := by
  unfold rejectIf
  split
  · refine ⟨rfl, ?_⟩
    intro a o h
    cases h
  · exact h

theorem ite {c : Prop} [Decidable c] {x x' : Decoded (α × Reader)} {y y' : Decoded (α × ℕ)}
    (h : Tracks storage x y limit) (h' : Tracks storage x' y' limit) :
    Tracks storage (if c then x else x') (if c then y else y') limit := by
  split
  · exact h
  · exact h'

/-- A word is read alike, while the array has room for it. -/
theorem take (h : storage.Readable) (ho : o ≤ storage.bytes.length) (hroom : o + 4 ≤ 68)
    (hlimit : o + 4 ≤ limit) :
    Tracks storage (Reader.take storage (Reader.at storage o))
      (Codec.take storage.bytes storage.bytes.length o) limit := by
  have hensure := ensure_eq h (Nat.le_add_right o 4) ho
  rw [Reader.take, Codec.take]
  by_cases hshort : o + 4 > storage.bytes.length
  · rw [if_pos (.inr hshort)] at hensure
    rw [rejectIf, if_pos (by omega)]
    have hcopied : ensure storage ((Reader.at storage o).offset + 4) (Reader.at storage o).copied = _ :=
      hensure
    rw [hcopied]
    refine ⟨rfl, ?_⟩
    intro a o' h
    cases h
  · rw [if_neg (by omega)] at hensure
    have hcopied : ensure storage ((Reader.at storage o).offset + 4) (Reader.at storage o).copied = _ :=
      hensure
    obtain ⟨w, hw⟩ := wordAt_isSome (Nat.le_of_not_gt hshort)
    have hload : load32 (Reader.wire { Reader.at storage o with copied := storage.bytes.take (o + 4) })
        (Reader.at storage o).offset = .ok w := load32_eq_ok.mpr (Reader.wordAt_wire hw)
    rw [rejectIf_of_not (by omega), hcopied, ok_bind, load32_eq_ok.mpr hw]
    show Tracks storage (load32 _ _ >>= _) _ limit
    rw [hload]
    refine ⟨rfl, ?_⟩
    intro a o' h
    cases h
    exact ⟨hlimit, by omega⟩

/-- The parts of a prologue, with how far they may go. -/
theorem streamId (h : storage.Readable) {present : Bool} (ho : o ≤ storage.bytes.length)
    (hlimit : o + 4 ≤ limit) (hroom : limit ≤ 68) :
    Tracks storage (Reader.takeStreamId present storage (Reader.at storage o))
      (Codec.takeStreamId present storage.bytes storage.bytes.length o) limit := by
  refine ite ?_ (pure (by omega) ho)
  refine (take h ho (by omega) hlimit).bind fun v o hlimit ho => ?_
  exact pure hlimit ho

theorem classId (h : storage.Readable) {present : Bool} (ho : o ≤ storage.bytes.length)
    (hlimit : o + 8 ≤ limit) (hroom : limit ≤ 68) :
    Tracks storage (Reader.takeClassId present storage (Reader.at storage o))
      (Codec.takeClassId present storage.bytes storage.bytes.length o) limit := by
  refine ite ?_ (pure (by omega) ho)
  refine (take h ho (by omega) le_rfl).bind fun a o₁ h₁ ho₁ => ?_
  refine (take h ho₁ (by omega) le_rfl).bind fun b o₂ h₂ ho₂ => ?_
  exact reject (pure (by omega) ho₂)

/-- Both readers take the same timestamp. -/
theorem timestamp (h : storage.Readable) {tsi : Tsi} {tsf : Tsf} (ho : o ≤ storage.bytes.length)
    (hlimit : o + 12 ≤ limit) (hroom : limit ≤ 68) :
    Tracks storage (Reader.takeTimestamp tsi tsf storage (Reader.at storage o))
      (Codec.takeTimestamp tsi tsf storage.bytes storage.bytes.length o) limit := by
  have hinteger : Tracks storage (Reader.takeInteger tsi storage (Reader.at storage o))
      (Codec.takeInteger tsi storage.bytes storage.bytes.length o) (o + 4) :=
    ite (take h ho (by omega) le_rfl) (pure (by omega) ho)
  refine hinteger.bind fun integer o₁ h₁ ho₁ => ?_
  have hfractional : Tracks storage (Reader.takeFractional tsf storage (Reader.at storage o₁))
      (Codec.takeFractional tsf storage.bytes storage.bytes.length o₁) limit := by
    refine ite ?_ (pure (by omega) ho₁)
    refine (take h ho₁ (by omega) le_rfl).bind fun a o₂ h₂ ho₂ => ?_
    refine (take h ho₂ (by omega) le_rfl).bind fun b o₃ h₃ ho₃ => ?_
    exact pure (by omega) ho₃
  exact hfractional.bind fun fractional o₂ h₂ ho₂ => pure h₂ ho₂

/-- Both readers take the same identifier. -/
theorem identifier (h : storage.Readable) {cam : UInt32} {enable uuid : ℕ}
    (ho : o ≤ storage.bytes.length) (hlimit : o + 16 ≤ limit) (hroom : limit ≤ 68) :
    Tracks storage (Reader.takeIdentifier cam enable uuid storage (Reader.at storage o))
      (Codec.takeIdentifier cam enable uuid storage.bytes storage.bytes.length o) limit := by
  refine ite (ite ?_ ?_) (pure (by omega) ho)
  · refine (take h ho (by omega) le_rfl).bind fun a o₁ h₁ ho₁ => ?_
    refine (take h ho₁ (by omega) le_rfl).bind fun b o₂ h₂ ho₂ => ?_
    refine (take h ho₂ (by omega) le_rfl).bind fun c o₃ h₃ ho₃ => ?_
    refine (take h ho₃ (by omega) le_rfl).bind fun d o₄ h₄ ho₄ => ?_
    exact pure (by omega) ho₄
  · refine (take h ho (by omega) le_rfl).bind fun a o₁ h₁ ho₁ => ?_
    exact pure (by omega) ho₁

theorem command (h : storage.Readable) {present : Bool} (ho : o ≤ storage.bytes.length)
    (hlimit : o + 40 ≤ limit) (hroom : limit ≤ 68) :
    Tracks storage (Reader.takeCommand present storage (Reader.at storage o))
      (Codec.takeCommand present storage.bytes storage.bytes.length o) limit := by
  refine ite ?_ (pure (by omega) ho)
  refine (take h ho (by omega) le_rfl).bind fun cam o₁ h₁ ho₁ => ?_
  refine (take h ho₁ (by omega) le_rfl).bind fun messageId o₂ h₂ ho₂ => ?_
  refine (identifier h ho₂ le_rfl (by omega)).bind fun controllee o₃ h₃ ho₃ => ?_
  refine (identifier h ho₃ le_rfl (by omega)).bind fun controller o₄ h₄ ho₄ => ?_
  exact pure (by omega) ho₄

/-- The whole prologue: four bytes of header and at most 64 behind it. -/
theorem prologue (h : storage.Readable) :
    Tracks storage (inspectPrologue storage) (decodePrologue storage.bytes) 68 := by
  have hensure := ensure_eq h (Nat.zero_le 4) (Nat.zero_le _)
  rw [List.take_zero] at hensure
  rw [inspectPrologue, decodePrologue, hensure, TxStorage.byteSize_eq]
  by_cases hshort : storage.bytes.length < 4
  · rw [if_pos (by omega), rejectIf, if_pos hshort]
    refine ⟨rfl, ?_⟩
    intro a o h
    cases h
  · rw [if_neg (by omega), rejectIf_of_not hshort, ok_bind]
    obtain ⟨w, hw⟩ := @wordAt_isSome storage.bytes 0 (by omega)
    have hload : load32 (Reader.wire { copied := storage.bytes.take 4 }) 0 = .ok w :=
      load32_eq_ok.mpr (Reader.wordAt_wire hw)
    show Tracks storage (load32 (Reader.wire { copied := storage.bytes.take 4 }) 0 >>= _) _ 68
    rw [hload, load32_eq_ok.mpr hw, ok_bind, ok_bind]
    by_cases hsize : bits w 0 16 * 4 = storage.bytes.length
    · rw [hsize]
      refine reject (reject (reject (reject ?_)))
      have hfour : 4 ≤ storage.bytes.length := by omega
      refine (streamId h hfour le_rfl (by omega)).bind fun sid o₁ h₁ ho₁ => ?_
      refine (classId h ho₁ le_rfl (by omega)).bind fun cls o₂ h₂ ho₂ => ?_
      refine (timestamp h ho₂ le_rfl (by omega)).bind fun ts o₃ h₃ ho₃ => ?_
      refine (command h ho₃ le_rfl (by omega)).bind fun cmd o₄ h₄ ho₄ => ?_
      exact pure (by omega) ho₄
    · refine reject (reject ?_)
      rw [rejectIf, if_pos hsize]
      refine ⟨rfl, ?_⟩
      intro a o h
      cases h

end Tracks

/-! ## Agreement -/

/-- What `inspect` returns of a decoded packet. -/
def framing (v : EnvelopeView) : Framing :=
  { envelope := v.envelope, payloadOffset := v.payloadOffset, payloadBytes := v.payload.length
    packetBytes := v.wire.length }

/-- `inspect` is the decoder on the joined segments, also where they fail. -/
theorem inspect_eq (h : storage.Readable) :
    inspect storage = (decodeEnvelope storage.bytes).map framing := by
  obtain ⟨heq, hbound⟩ := Tracks.prologue h
  rw [inspect, decodeEnvelope, heq, TxStorage.byteSize_eq]
  rcases hprologue : decodePrologue storage.bytes with fault | ⟨e, o⟩
  · rfl
  · obtain ⟨-, ho⟩ := hbound e o hprologue
    show (rejectIf (o > _ ∨ (if e.trailer then 4 else 0) > _ - o) _ >>= _) = Except.map framing _
    rw [ok_bind]
    dsimp only
    by_cases hroom : o > storage.bytes.length ∨
        (if e.trailer then 4 else 0) > storage.bytes.length - o
    · rw [rejectIf, if_pos hroom, rejectIf, if_pos hroom]
      rfl
    · rw [rejectIf_of_not hroom, rejectIf_of_not hroom, ok_bind, ok_bind]
      have hpayload : ((storage.bytes.drop o).take (storage.bytes.length - o -
          (if e.trailer then 4 else 0))).length =
            storage.bytes.length - o - (if e.trailer then 4 else 0) := by
        rw [List.length_take, List.length_drop]
        omega
      rw [hpayload]
      -- a trailer is inside
      have htrailer : ∃ t, takeTrailer e.trailer storage.bytes = .ok t := by
        unfold takeTrailer
        by_cases hpresent : e.trailer
        · rw [if_pos hpresent]
          rw [if_pos hpresent] at hroom
          obtain ⟨t, ht⟩ := @load32_inside storage.bytes (storage.bytes.length - 4) (by omega)
          rw [ht]
          exact ⟨some t, rfl⟩
        · rw [if_neg hpresent]
          exact ⟨none, rfl⟩
      obtain ⟨t, ht⟩ := htrailer
      have hoffset : (Reader.at storage o).offset = o := rfl
      simp only [ht, hoffset]
      rcases measureEnvelope e (storage.bytes.length - o - (if e.trailer then 4 else 0)) with
        fault | size
      · rfl
      · show Except.ok _ = Except.ok _
        rw [framing, hpayload]

/-- However a packet is cut into segments, its inspection is that of the decoder; and a prologue that
is written on its own is that of the encoder. -/
theorem inspect_agrees :
    (∀ storage : TxStorage, storage.Readable → ∀ f, inspect storage = .ok f ↔
      ∃ v, decodeEnvelope storage.bytes = .ok v ∧ f.envelope = v.envelope ∧
        f.payloadOffset = v.payloadOffset ∧ f.payloadBytes = v.payload.length ∧
        f.packetBytes = v.wire.length) ∧
    ∀ (e : Envelope) (payload : Bytes) (trailer : Option UInt32) (layout : EnvelopeLayout)
      (output : Bytes) (capacity : ℕ), measurePrologue e payload.length = .ok layout →
      e.trailer = trailer.isSome → layout.prologueBytes ≤ output.length →
      layout.packetBytes ≤ capacity →
      ∃ o, o = writePrologue e layout.packetBytes output ∧ o.offset = layout.prologueBytes ∧
        encodeEnvelope e payload trailer capacity =
          .ok (o.bytes.take o.offset ++ (payload ++ trailer.elim [] be32)) := by
  refine ⟨fun storage h f => ?_, fun e payload trailer layout output capacity hlayout htrailer
    houtput hcapacity => ?_⟩
  · rw [inspect_eq h]
    rcases decodeEnvelope storage.bytes with fault | v
    · constructor
      · intro hf
        cases hf
      · rintro ⟨v, hv, -⟩
        cases hv
    · constructor
      · intro hf
        cases hf
        exact ⟨v, rfl, rfl, rfl, rfl, rfl⟩
      · rintro ⟨v', hv, henvelope, hoffset, hpayload, hpacket⟩
        cases hv
        obtain ⟨e, o, n, m⟩ := f
        dsimp only at henvelope hoffset hpayload hpacket
        subst henvelope hoffset hpayload hpacket
        rfl
  · obtain ⟨hencode, hoffset, -⟩ :=
      encodeEnvelope_eq_writePrologue hlayout htrailer houtput hcapacity
    exact ⟨_, rfl, hoffset, hencode⟩

/-- A context packet whose header is cut after its first byte. -/
def cutContext : TxStorage where
  segments := [⟨⟨[0x40], true⟩, 0, 1, by decide, by decide⟩,
    ⟨⟨[9, 0, 0, 3, 0, 0, 0, 7, 0, 0, 0, 0], true⟩, 1, 11, by decide, by decide⟩]
  count := by decide

theorem inspect_agrees_cut : ∃ f v, inspect cutContext = .ok f ∧
    decodeEnvelope cutContext.bytes = .ok v ∧ f.payloadOffset = v.payloadOffset := by
  have hreadable : cutContext.Readable := by
    intro s hs
    simp only [cutContext, List.mem_cons, List.not_mem_nil, or_false] at hs
    rcases hs with rfl | rfl <;> rfl
  obtain ⟨f, hf⟩ : ∃ f, inspect cutContext = .ok f := ⟨_, rfl⟩
  obtain ⟨v, hv, -, hoffset, -⟩ := (inspect_agrees.1 cutContext hreadable f).mp hf
  exact ⟨f, v, hf, hv, hoffset⟩

end Vita.Transport
