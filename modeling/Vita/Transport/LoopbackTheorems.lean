import Vita.Transport.Loopback
import Vita.Transport.RoutingTheorems
import Vita.Transport.Binding

/-!
# The loopback transport keeps its promises

`Act` lists what a call, from outside or from a callback, can do to the parts of the transport that
matter for its submissions. `process` does more: it delivers and completes the submission of its slot,
while its callbacks act on the other slots.

Main results:
- `Loopback.trySend_cases`: a submission is rejected without a trace, or takes a slot of its lane;
- `Loopback.process_spec`: what becomes of the submission that is progressed;
- `Loopback.Reachable.inv`: the transport refines `Binding`.
-/

namespace Vita.Transport

open Words Checked Codec Slots Trace
open Completion (CompletionResult CompletionStatus)
open Transaction (AdmissionPool AdmissionBundle AdmissionRequest Resource)

/-! ## Buffers -/

namespace ExternalPool

/-- The block that is selected is free. -/
theorem select_spec {request : BufferRequest} {blocks : List Block} {i : ℕ} {b : Block}
    (h : select request blocks = some (i, b)) : blocks[i]? = some b ∧ b.references = 0 := by
  unfold select at h
  have hgen : ∀ (l : List (Block × ℕ)) (start : Option (ℕ × Block)),
      (∀ p ∈ l, blocks[p.2]? = some p.1) →
      (∀ p ∈ start, blocks[p.1]? = some p.2 ∧ p.2.references = 0) →
      ∀ p ∈ l.foldl (fun selected b =>
        if b.1.fits request ∧ ∀ best ∈ selected, b.1.capacity < best.2.capacity then some (b.2, b.1)
        else selected) start, blocks[p.1]? = some p.2 ∧ p.2.references = 0 := by
    intro l
    induction l with
    | nil => exact fun start _ hstart => hstart
    | cons c l ih =>
      intro start hl hstart
      refine ih _ (fun p hp => hl p (List.mem_cons_of_mem _ hp)) fun p hp => ?_
      simp only at hp
      split at hp
      · next hfits =>
        cases hp
        refine ⟨hl c List.mem_cons_self, ?_⟩
        have := hfits.1
        simp only [Block.fits, Bool.decide_and, Bool.and_eq_true, decide_eq_true_eq] at this
        exact this.1
      · exact hstart p hp
  refine hgen blocks.zipIdx none (fun p hp => ?_) (by simp) _ h
  exact List.mem_zipIdx_iff_getElem?.mp hp

/-- A block that was just acquired is given back. -/
theorem release_acquire {p pool : ExternalPool} {request : BufferRequest} {i : ℕ}
    (h : p.acquire request = .ok (i, pool)) : pool.release i = p := by
  unfold acquire at h
  simp only [bind_eq_ok, rejectIf_eq_ok, exists_const] at h
  obtain ⟨-, h⟩ := h
  split at h
  · cases h
  · next j b hselect =>
    cases h
    obtain ⟨hb, hreferences⟩ := select_spec hselect
    unfold release
    congr 1
    refine List.ext_getElem? fun k => ?_
    rw [List.getElem?_modify, List.getElem?_set]
    by_cases hk : i = k
    · subst hk
      have hlt := (List.getElem?_eq_some_iff.mp hb).1
      rw [hb]
      simp [hlt, ← hreferences]
    · simp [hk]

end ExternalPool

namespace Loopback

variable {n : ℕ} {s s' : Loopback n}

/-! ## Sending -/

/-- What `try_send` has checked of a submission that it accepts. -/
structure Admitted (s : Loopback n) (submission : TxSubmission) (bytes : Bytes) (packet : PacketView)
    (l : Lane) (i : Fin n) : Prop where
  isOpen : s.isOpen
  reserved : submission.completion.isReserved s.host.tickets
  quiescence : submission.fault.holdQuiescence → submission.fault.failCompletion
  copied : copySegments submission.storage.segments = .ok bytes
  parsed : parse s.host.routes submission.source bytes = .ok packet
  streamId : packet.envelope.envelope.streamId = submission.counter.streamId
  type : packet.envelope.envelope.type = submission.counter.type
  count : s.host.counters.next submission.counter = .ok packet.envelope.envelope.packetCount
  lane : l = lane submission.counter.type packet.envelope.envelope.cancel
  slot : s.findSlot l = some i
  sequence : s.nextSequence ≠ sizeMax

theorem Refusal.of_eq_ok {α : Type} {r : Result α} {a : α} : Refusal.of r = .ok a ↔ r = .ok a := by
  cases r <;> simp [Refusal.of]

/-- What the checks before the buffer have found. -/
theorem preflight_ok {submission : TxSubmission} {l : Lane} {i : Fin n}
    (h : s.preflight submission = .ok (l, i)) :
    s.isOpen ∧ submission.completion.isReserved s.host.tickets ∧
      (submission.fault.holdQuiescence → submission.fault.failCompletion) ∧
      s.findSlot l = some i ∧ s.nextSequence ≠ sizeMax ∧
      (isData submission.counter.type → l = .data) := by
  unfold preflight at h
  simp only [bind_eq_ok, rejectIf_eq_ok, exists_const] at h
  obtain ⟨hopen, -, -, -, -, -, hreserved, -, -, header, -, -, h⟩ := h
  split at h
  · cases h
  · next j hslot =>
    simp only [bind_eq_ok, rejectIf_eq_ok, exists_const, pure_eq_ok, Except.ok.injEq,
      Prod.mk.injEq] at h
    obtain ⟨hsequence, rfl, rfl⟩ := h
    simp only [not_or, not_and, not_not] at hopen hreserved
    refine ⟨hopen, hreserved.1, hreserved.2.2, hslot, hsequence, fun hdata => ?_⟩
    rw [lane, if_pos hdata]

/-- What the checks of the packet have found. -/
theorem checkPacket_ok {submission : TxSubmission} {i j : Fin n} {bytes : Bytes} {l : Lane}
    {count : UInt8} (h : s.checkPacket submission i = .ok (bytes, l, j, count)) :
    ∃ packet, copySegments submission.storage.segments = .ok bytes ∧
      parse s.host.routes submission.source bytes = .ok packet ∧
      packet.envelope.envelope.streamId = submission.counter.streamId ∧
      packet.envelope.envelope.type = submission.counter.type ∧
      count = packet.envelope.envelope.packetCount ∧
      s.host.counters.next submission.counter = .ok count ∧
      l = lane submission.counter.type packet.envelope.envelope.cancel ∧
      (isData submission.counter.type ∧ j = i ∨ s.findSlot l = some j) := by
  unfold checkPacket at h
  simp only [bind_eq_ok, Refusal.of_eq_ok] at h
  obtain ⟨bytes', hcopied, h⟩ := h
  split at h
  · cases h
  · next packet hparsed =>
    simp only [bind_eq_ok, rejectIf_eq_ok, exists_const, Refusal.of_eq_ok] at h
    obtain ⟨hkey, expected, hnext, hexpected, h⟩ := h
    simp only [not_or, not_not] at hkey hexpected
    subst hexpected
    split at h
    · next hdata =>
      cases h
      refine ⟨packet, hcopied, hparsed, hkey.1, hkey.2, rfl, hnext, ?_, .inl ⟨hdata, rfl⟩⟩
      rw [lane, if_pos hdata]
    · next hdata =>
      split at h
      · cases h
      · next j' hslot =>
        cases h
        refine ⟨packet, hcopied, hparsed, hkey.1, hkey.2, rfl, hnext, ?_, .inr hslot⟩
        rw [lane, if_neg hdata]

/-- The transport after a submission was accepted. -/
def admitted (s : Loopback n) (submission : TxSubmission) (receive : Lease) (i : Fin n)
    (count : UInt8) (credits : AdmissionBundle) (host : HostBindings) : Loopback n :=
  place { s with host } i submission receive credits count

/-- What an accepted submission changes of the host. -/
structure Charged (h h' : HostBindings) (key : CounterKey) (count : UInt8) : Prop where
  tickets : h'.tickets = h.tickets
  routes : h'.routes = h.routes
  counters : h.counters.accept key count = .ok h'.counters

theorem releaseBlock_taken {h : HostBindings} {l : Lane} {pool : ExternalPool} {block : ℕ}
    {request : BufferRequest} (hacquire : (h.pools l).acquire request = .ok (block, pool)) :
    ({ h with pools := Function.update h.pools l pool } : HostBindings).releaseBlock l block = h := by
  unfold HostBindings.releaseBlock
  simp only [Function.update_self, ExternalPool.release_acquire hacquire, Function.update_idem,
    Function.update_eq_self]

/-- A submission is rejected and nothing has changed, or it takes a slot. -/
theorem trySend_cases (s : Loopback n) (submission : TxSubmission) :
    (∃ refusal, s.trySend submission = (.error ⟨refusal, submission⟩, s)) ∨
      ∃ lease packet l i credits host, s.Admitted submission lease.bytes packet l i ∧
        Charged s.host host submission.counter packet.envelope.envelope.packetCount ∧
        s.trySend submission = (.ok ⟨i, (s.slots i).generation⟩,
          s.admitted submission lease i packet.envelope.envelope.packetCount credits host) := by
  unfold trySend
  split
  · next refusal _ => exact .inl ⟨refusal, rfl⟩
  · next l i hpreflight =>
    obtain ⟨hopen, hreserved, hquiescence, hslot, hsequence, hdata⟩ := preflight_ok hpreflight
    split
    · exact .inl ⟨_, rfl⟩
    · next block pool hacquire =>
      simp only
      split
      · next refusal _ =>
        refine .inl ⟨refusal, ?_⟩
        rw [releaseBlock_taken hacquire]
      · next bytes queue j count hchecked =>
        obtain ⟨packet, hcopied, hparsed, hstream, htype, rfl, hnext, hqueue, hj⟩ :=
          checkPacket_ok hchecked
        split
        · next error _ =>
          refine .inl ⟨{ error }, ?_⟩
          rw [releaseBlock_taken hacquire]
        · next credits admission hcredits =>
          split
          · next error _ =>
            refine .inl ⟨.uncounted error, ?_⟩
            simp only [HostBindings.resetCredits, reset_acquire hcredits]
            rw [releaseBlock_taken hacquire]
          · next counters haccept =>
            refine .inr ⟨⟨l, block, bytes⟩, packet, queue, j, credits, _,
              ⟨hopen, hreserved, hquiescence, hcopied, hparsed, hstream, htype, hnext, hqueue, ?_,
                hsequence⟩, ⟨?_, ?_, ?_⟩, rfl⟩
            · rcases hj with ⟨hd, rfl⟩ | hj
              · rw [hqueue, lane, if_pos hd, ← hdata hd]
                exact hslot
              · exact hj
            · rfl
            · rfl
            · exact haccept

/-! ## Calls -/

/-- The parts of the transport that matter for its submissions are the same. -/
structure Same (s s' : Loopback n) : Prop where
  slots : s'.slots = s.slots
  capabilities : s'.capabilities = s.capabilities
  nextSequence : s'.nextSequence = s.nextSequence
  tickets : s'.host.tickets = s.host.tickets
  counters : s'.host.counters = s.host.counters
  log : s'.log = s.log

/-- A slot as `release_slot` leaves it. -/
def Slot.vacated (slot : Slot) : Slot :=
  let slot := { slot with
    receive := none, submission := none, credits := none, processing := false, quarantined := false }
  if slot.generation = sizeMax then { slot with retired := true }
  else { slot with generation := slot.generation + 1 }

/-- The storage of a slot that is held is given up. -/
def Slot.proved (slot : Slot) : Slot :=
  { slot with quiescence := { slot.quiescence with storage := none } }

inductive Act (s : Loopback n) : Loopback n → Prop
  | accept {submission : TxSubmission} {lease : Lease} {packet : PacketView} {l : Lane} {i : Fin n}
      {credits : AdmissionBundle} {host : HostBindings} :
      s.Admitted submission lease.bytes packet l i →
      Charged s.host host submission.counter packet.envelope.envelope.packetCount →
      Act s (s.admitted submission lease i packet.envelope.envelope.packetCount credits host)
  | release {i : Fin n} : (s.slots i).quarantined →
      Act s ((s.setSlot i (s.slots i).proved).releaseSlot i)
  | reserve (ticket : ℕ) : Act s (s.call (.reserve ticket))
  | publish (ticket : ℕ) (result : CompletionResult) : Act s (s.call (.publish ticket result))
  | install (batch : List CounterKey) : Act s (s.call (.install batch))
  | same {s' : Loopback n} : Same s s' → Act s s'

abbrev Acts : Loopback n → Loopback n → Prop := Relation.ReflTransGen Act

theorem trySend_acts (s : Loopback n) (submission : TxSubmission) :
    Acts s (s.trySend submission).2 := by
  rcases s.trySend_cases submission with ⟨refusal, h⟩ |
    ⟨lease, packet, l, i, credits, host, hadmitted, hcharged, h⟩
  · rw [h]
  · rw [h]
    exact .single (.accept hadmitted hcharged)

/-- A proof of quiescence is a sequence of acts. -/
theorem proveQuiescent_acts (s : Loopback n) (token : TxToken) :
    Acts s (s.proveQuiescent token).2 := by
  unfold proveQuiescent
  split
  · simp only
    split
    · exact .refl
    · next hheld =>
      simp only [not_or, not_not] at hheld
      split
      · exact .refl
      · exact .single (.release hheld.2)
  · exact .refl

/-- Every call is a sequence of acts. -/
theorem call_acts (s : Loopback n) (c : Call) : Acts s (s.call c) := by
  cases c with
  | send submission =>
    show Acts s (if _ then s else _)
    split
    · exact .refl
    · exact s.trySend_acts submission
  | close => exact .single (.same ⟨rfl, rfl, rfl, rfl, rfl, rfl⟩)
  | proveQuiescent token => exact s.proveQuiescent_acts token
  | reserve ticket => exact .single (.reserve ticket)
  | publish ticket result => exact .single (.publish ticket result)
  | outside o => exact .single (.same ⟨rfl, rfl, rfl, rfl, rfl, rfl⟩)
  | install batch => exact .single (.install batch)

theorem calls_acts (s : Loopback n) (l : List Call) : Acts s (s.calls l) := by
  induction l generalizing s with
  | nil => exact .refl
  | cons c l ih => exact (s.call_acts c).trans (ih (s.call c))

/-- The slot that is found is available and of its lane. -/
theorem findSlot_spec {l : Lane} {i : Fin n} (h : s.findSlot l = some i) :
    i ∈ l.slots s.capabilities n ∧ (s.slots i).submission = none ∧
      (s.slots i).quarantined = false ∧ (s.slots i).retired = false := by
  have hmem := List.mem_of_find?_eq_some h
  have hfree := List.find?_some h
  simp only [Slot.available, Option.isNone_iff_eq_none, Bool.not_eq_true, Bool.decide_and,
    Bool.and_eq_true, decide_eq_true_eq] at hfree
  exact ⟨hmem, hfree⟩

/-- A slot that is released is vacated; the rest stays. -/
theorem releaseSlot_eq (s : Loopback n) (i : Fin n) :
    (s.releaseSlot i).slots = Function.update s.slots i (s.slots i).vacated ∧
      (s.releaseSlot i).capabilities = s.capabilities ∧
      (s.releaseSlot i).nextSequence = s.nextSequence ∧
      (s.releaseSlot i).host.tickets = s.host.tickets ∧
      (s.releaseSlot i).host.counters = s.host.counters ∧ (s.releaseSlot i).log = s.log := by
  refine ⟨rfl, rfl, rfl, ?_, ?_, rfl⟩
  · simp only [releaseSlot, HostBindings.resetCredits, dropLease]
    cases (s.slots i).receive <;> cases (s.slots i).submission <;>
      simp [HostBindings.releaseBlock]
  · simp only [releaseSlot, HostBindings.resetCredits, dropLease]
    cases (s.slots i).receive <;> cases (s.slots i).submission <;>
      simp [HostBindings.releaseBlock]

/-! ## Slots -/

/-- What holds of a slot between calls: a submission comes with its packet, and a held slot with the
storage that is held; the guard has not been armed more often than the slot was used. -/
structure Slot.Ready (slot : Slot) : Prop where
  processing : slot.processing = false
  waiting : ∀ submission, slot.submission = some submission → slot.quarantined = false ∧
    slot.retired = false ∧ (submission.fault.holdQuiescence → submission.fault.failCompletion) ∧
    ∃ lease, slot.receive = some lease ∧ copySegments submission.storage.segments = .ok lease.bytes
  held : slot.quarantined → slot.retired = false ∧ slot.quiescence.storage.isSome ∧
    slot.quiescence.generation ≤ slot.generation
  released : slot.quarantined = false → slot.quiescence.storage = none ∧
    (slot.retired = false → slot.quiescence.generation < slot.generation)
  generation_le : slot.generation ≤ sizeMax

theorem Slot.ready_new : Slot.Ready {} where
  processing := rfl
  waiting := fun _ h => by cases h
  held := nofun
  released := fun _ => ⟨rfl, fun _ => Nat.one_pos⟩
  generation_le := by decide

/-- A slot that is released is ready again. -/
theorem Slot.vacated_ready {slot : Slot} (hstorage : slot.quiescence.storage = none)
    (hgeneration : slot.quiescence.generation ≤ slot.generation)
    (hle : slot.generation ≤ sizeMax) : slot.vacated.Ready := by
  unfold Slot.vacated
  simp only
  split
  · exact ⟨rfl, fun _ h => (by cases h), nofun, fun _ => ⟨hstorage, nofun⟩, hle⟩
  · refine ⟨rfl, fun _ h => (by cases h), nofun, fun _ => ⟨hstorage, fun _ => ?_⟩, ?_⟩
    · show slot.quiescence.generation < slot.generation + 1
      omega
    · show slot.generation + 1 ≤ sizeMax
      omega

/-- A call keeps every slot ready, and does not touch a slot with a submission. -/
theorem Act.slot (h : Act s s') (j : Fin n) :
    ((s.slots j).Ready → (s'.slots j).Ready) ∧
      ((s.slots j).submission.isSome → (s.slots j).quarantined = false → s'.slots j = s.slots j) := by
  cases h with
  | accept hadmitted hcharged =>
    next submission lease packet l i credits host =>
    obtain ⟨-, hnone, hquarantined, hretired⟩ := findSlot_spec hadmitted.slot
    by_cases hj : j = i
    · subst hj
      refine ⟨fun hready => ?_, fun hsome => by rw [hnone] at hsome; cases hsome⟩
      simp only [admitted, place, note, setSlot, Function.update_self]
      refine ⟨hready.processing, fun submission' hsub => ?_, hready.held, hready.released,
        hready.generation_le⟩
      cases hsub
      exact ⟨hquarantined, hretired, hadmitted.quiescence, lease, rfl, hadmitted.copied⟩
    · have hslot : (s.admitted submission lease i packet.envelope.envelope.packetCount credits
          host).slots j = s.slots j := Function.update_of_ne hj _ _
      rw [hslot]
      exact ⟨id, fun _ _ => rfl⟩
  | release hheld =>
    next i =>
    rw [(releaseSlot_eq _ i).1]
    by_cases hj : j = i
    · subst hj
      refine ⟨fun hready => ?_, fun _ hquarantined => by rw [hquarantined] at hheld; cases hheld⟩
      rw [Function.update_self]
      simp only [setSlot, Function.update_self]
      obtain ⟨-, -, hle⟩ := hready.held hheld
      exact Slot.vacated_ready rfl hle hready.generation_le
    · rw [Function.update_of_ne hj]
      simp only [setSlot, Function.update_of_ne hj]
      exact ⟨id, fun _ _ => trivial⟩
  | reserve => exact ⟨id, fun _ _ => rfl⟩
  | publish => exact ⟨id, fun _ _ => rfl⟩
  | install => exact ⟨id, fun _ _ => rfl⟩
  | same hsame =>
    rw [hsame.slots]
    exact ⟨id, fun _ _ => rfl⟩

/-- Acts leave the slots that wait. -/
theorem Acts.slot (h : Acts s s') (j : Fin n) :
    ((s.slots j).Ready → (s'.slots j).Ready) ∧
      ((s.slots j).submission.isSome → (s.slots j).quarantined = false → s'.slots j = s.slots j) := by
  induction h with
  | refl => exact ⟨id, fun _ _ => rfl⟩
  | tail _ hact ih =>
    obtain ⟨hready, hkept⟩ := ih
    obtain ⟨hready', hkept'⟩ := hact.slot j
    refine ⟨hready' ∘ hready, fun hsome hquarantined => ?_⟩
    have heq := hkept hsome hquarantined
    rw [hkept' (heq ▸ hsome) (heq ▸ hquarantined), heq]

/-! ## Delivery -/

/-- The history without the acceptances. -/
def served (log : List TxEvent) : List TxEvent :=
  log.filter fun e => match e with
    | .accepted .. => false
    | _ => true

theorem served_append (log log' : List TxEvent) : served (log ++ log') = served log ++ served log' :=
  List.filter_append ..

/-- A call serves nothing. -/
theorem Act.served (h : Act s s') : served s'.log = served s.log := by
  cases h with
  | accept =>
    simp only [admitted, place, note, setSlot, served_append]
    exact List.append_nil _
  | release => rw [(releaseSlot_eq _ _).2.2.2.2.2]; rfl
  | reserve => rfl
  | publish => rfl
  | install => rfl
  | same hsame => rw [hsame.log]

theorem Acts.served (h : Acts s s') : served s'.log = served s.log := by
  induction h with
  | refl => rfl
  | tail _ hact ih => rw [hact.served, ih]

/-- An elementary step of the transport. -/
inductive Atom (s : Loopback n) : Loopback n → Prop
  | act {s' : Loopback n} : Act s s' → Atom s s'
  /-- A slot is marked, or its buffer is taken. -/
  | touch (i : Fin n) (processing : Bool) (receive : Option Lease) :
      Atom s (s.setSlot i { s.slots i with processing, receive })
  | delivered (q route : ℕ) (packet : PacketView) (rx : RxEnvelope) :
      Atom s (s.note (.delivered q route packet rx))
  | complete {i : Fin n} {submission : TxSubmission} (result : CompletionResult) :
      (s.slots i).submission = some submission → (s.slots i).quarantined = false →
      Atom s (s.finish i submission result).2
  | hold {i : Fin n} {submission : TxSubmission} (result : CompletionResult)
      (quiescence : QuiescenceGuard) : (s.slots i).submission = some submission →
      Atom s ((s.setSlot i { s.slots i with quiescence, quarantined := true }).finish i submission
        result).2

abbrev Atoms : Loopback n → Loopback n → Prop := Relation.ReflTransGen Atom

theorem Acts.atoms (h : Acts s s') : Atoms s s' := by
  induction h with
  | refl => exact .refl
  | tail _ hact ih => exact ih.tail (.act hact)

/-- The result of a submission that is delivered. -/
def succeeded (submission : TxSubmission) : CompletionResult :=
  { value := UInt64.ofNat submission.storage.byteSize }

/-- What a progress call makes of a submission: the deliveries and the result of its ticket, with the
routes of that time. -/
inductive Outcome (routes : RouteRegistry) (submission : TxSubmission) (bytes : Bytes) (q : ℕ) :
    List TxEvent → CompletionResult → Prop
  | failed : submission.fault.failCompletion → Outcome routes submission bytes q []
      { succeeded submission with status := .failed, error := failure .callbackFailure }
  | lost : submission.fault.failCompletion = false → submission.fault.lose →
      Outcome routes submission bytes q [] (succeeded submission)
  | undecodable (e : Fault) : submission.fault.failCompletion = false →
      submission.fault.lose = false → parse routes submission.source bytes = .error e →
      Outcome routes submission bytes q []
        { succeeded submission with status := .failed, error := faultError e }
  | delivered (packet : PacketView) (position : ℕ) (route : Route) (rx : RxEnvelope) :
      submission.fault.failCompletion = false → submission.fault.lose = false →
      parse routes submission.source bytes = .ok packet →
      routes.lookup submission.source packet.envelope.envelope = .ok (position, route) →
      RxEnvelope.ofPacket bytes packet.envelope = .ok rx → rx.content = bytes →
      Outcome routes submission bytes q
        (List.replicate (if submission.fault.duplicate then 2 else 1)
          (.delivered q position packet rx)) (succeeded submission)

/-- A packet that parses has a route and an envelope. -/
theorem parse_ok {routes : RouteRegistry} {source : PeerSession} {bytes : Bytes} {packet : PacketView}
    (h : parse routes source bytes = .ok packet) :
    decodeEnvelope bytes = .ok packet.envelope ∧
      ∃ found, routes.lookup source packet.envelope.envelope = .ok found := by
  unfold parse at h
  simp only [bind_eq_ok, Prod.exists, Result.decoded_eq_ok, rejectIf_eq_ok] at h
  obtain ⟨header, hheader, position, route, hlookup, _, -, h⟩ := h
  have hpacket : Route.decodePacket bytes (route.options header.envelope) = .ok packet := by
    split at h
    · simp only [bind_eq_ok] at h
      obtain ⟨_, -, h⟩ := h
      exact h
    · exact h
  have henvelope := Route.decodePacket_envelope hpacket
  rw [hheader] at henvelope
  cases henvelope
  exact ⟨hheader, _, hlookup⟩

/-- The packet is handed over once, or twice; the callbacks leave its slot alone. -/
theorem handOver_spec (s : Loopback n) {i : Fin n} (submission : TxSubmission) (q position : ℕ)
    (packet : PacketView) (rx : RxEnvelope) (callbacks : Callbacks)
    (hsub : (s.slots i).submission.isSome) (hquarantined : (s.slots i).quarantined = false) :
    Atoms s (s.handOver submission q position packet rx callbacks) ∧
      served (s.handOver submission q position packet rx callbacks).log = served s.log ++
        List.replicate (if submission.fault.duplicate then 2 else 1) (.delivered q position packet rx) ∧
      (s.handOver submission q position packet rx callbacks).slots i = s.slots i ∧
      ∀ j, (s.slots j).Ready →
        ((s.handOver submission q position packet rx callbacks).slots j).Ready := by
  let s₁ := (s.note (.delivered q position packet rx)).calls callbacks.receive
  have hacts : Acts (s.note (.delivered q position packet rx)) s₁ := calls_acts _ _
  have hatoms : Atoms s s₁ := .head (.delivered q position packet rx) hacts.atoms
  have hserved : served s₁.log = served s.log ++ [.delivered q position packet rx] := by
    rw [hacts.served, note, served_append]
    rfl
  have hslot : s₁.slots i = s.slots i := (hacts.slot i).2 hsub hquarantined
  unfold handOver
  cases hduplicate : submission.fault.duplicate with
  | false =>
    exact ⟨hatoms, hserved, hslot, fun j => (hacts.slot j).1⟩
  | true =>
    have hacts' : Acts (s₁.note (.delivered q position packet rx))
        ((s₁.note (.delivered q position packet rx)).calls callbacks.again) := calls_acts _ _
    refine ⟨hatoms.trans (.head (.delivered q position packet rx) hacts'.atoms), ?_, ?_, fun j => ?_⟩
    · show served ((s₁.note (.delivered q position packet rx)).calls callbacks.again).log = _
      rw [hacts'.served, note, served_append, hserved, List.append_assoc]
      rfl
    · show ((s₁.note (.delivered q position packet rx)).calls callbacks.again).slots i = _
      have hsub' : (s₁.slots i).submission.isSome := by rw [hslot]; exact hsub
      have hquarantined' : (s₁.slots i).quarantined = false := by rw [hslot]; exact hquarantined
      rw [(hacts'.slot i).2 hsub' hquarantined']
      exact hslot
    · exact fun hready => (hacts'.slot j).1 ((hacts.slot j).1 hready)

/-- The delivery of a submission that is ready for it. -/
theorem deliver_spec {i : Fin n} {submission : TxSubmission} {lease : Lease} (callbacks : Callbacks)
    (hsub : (s.slots i).submission = some submission) (hquarantined : (s.slots i).quarantined = false)
    (hreceive : (s.slots i).receive = some lease) :
    ∃ events result s', s.deliver i submission callbacks = (.ok result, s') ∧
      Outcome s.host.routes submission lease.bytes (s.slots i).sequence events result ∧
      Atoms s s' ∧ served s'.log = served s.log ++ events ∧
      (∃ receive, s'.slots i = { s.slots i with receive }) ∧
      ∀ j, j ≠ i → (s.slots j).Ready → (s'.slots j).Ready := by
  have hsome : (s.slots i).submission.isSome := by rw [hsub]; rfl
  have hkept : ∃ receive, s.slots i = { s.slots i with receive } := ⟨(s.slots i).receive, rfl⟩
  unfold deliver
  simp only
  split
  · next hfail =>
    exact ⟨[], _, s, rfl, .failed hfail, .refl, (List.append_nil _).symm, hkept, fun _ _ => id⟩
  · next hfail =>
    have hfail' : submission.fault.failCompletion = false := by simpa using hfail
    split
    · next hlose =>
      exact ⟨[], _, s, rfl, .lost hfail' hlose, .refl, (List.append_nil _).symm, hkept, fun _ _ => id⟩
    · next hlose =>
      have hlose' : submission.fault.lose = false := by simpa using hlose
      rw [hreceive]
      simp only
      -- the callback `before_decode`
      generalize hbefore : (if callsBeforeDecode s.host.routes submission.source lease.bytes then
        s.calls callbacks.beforeDecode else s) = s₁
      have hacts : Acts s s₁ := by
        rw [← hbefore]
        split
        · exact calls_acts _ _
        · exact .refl
      have hslot : s₁.slots i = s.slots i := (hacts.slot i).2 hsome hquarantined
      split
      · next e hparse =>
        refine ⟨[], _, s₁, rfl, .undecodable e hfail' hlose' hparse, hacts.atoms, ?_, ?_,
          fun j _ => (hacts.slot j).1⟩
        · rw [hacts.served, List.append_nil]
        · rw [hslot]
          exact hkept
      · next packet hparse =>
        obtain ⟨henvelope, ⟨position, route⟩, hlookup⟩ := parse_ok hparse
        obtain ⟨rx, hrx, hcontent⟩ := RxEnvelope.ofPacket_spec henvelope
        rw [hlookup, hrx]
        simp only
        -- the buffer moves into the envelope
        let s₂ := s₁.setSlot i { s₁.slots i with receive := none }
        have hself : s₂.slots i = { s.slots i with receive := none } := by
          rw [← hslot]
          exact Function.update_self ..
        obtain ⟨hatoms, hserved, hslot', hready⟩ := handOver_spec s₂ submission (s.slots i).sequence
          position packet rx callbacks (i := i) (by rw [hself]; exact hsome)
          (by rw [hself]; exact hquarantined)
        refine ⟨_, _, _, rfl, .delivered packet position route rx hfail' hlose' hparse hlookup hrx
          hcontent, ?_, ?_, ⟨none, ?_⟩, fun j hj hj' => ?_⟩
        · refine (hacts.atoms.tail (.touch i (s₁.slots i).processing none)).trans
            (hatoms.tail (.act (.same ⟨rfl, rfl, rfl, rfl, rfl, rfl⟩)))
        · show served (s₂.handOver submission _ position packet rx callbacks).log = _
          rw [hserved]
          show served s₁.log ++ _ = _
          rw [hacts.served]
        · exact hslot'.trans hself
        · refine hready j ?_
          have hother : s₂.slots j = s₁.slots j := Function.update_of_ne hj _ _
          rw [hother]
          exact (hacts.slot j).1 hj'

/-! ## Completion -/

/-- What `finish` leaves in a slot. -/
def Slot.finished (slot : Slot) : Slot :=
  if slot.quarantined then { slot with receive := none, submission := none, processing := false }
  else slot.vacated

/-- A slot is finished with the result of its submission. -/
theorem finish_eq (s : Loopback n) (i : Fin n) (submission : TxSubmission) (result : CompletionResult) :
    (s.finish i submission result).2.slots = Function.update s.slots i (s.slots i).finished ∧
      (s.finish i submission result).2.capabilities = s.capabilities ∧
      (s.finish i submission result).2.nextSequence = s.nextSequence ∧
      (s.finish i submission result).2.host.tickets =
        (submission.completion.publish result s.host.tickets).2 ∧
      (s.finish i submission result).2.host.counters = s.host.counters ∧
      (s.finish i submission result).2.log =
        s.log ++ [.completed (s.slots i).sequence result] := by
  unfold finish Slot.finished
  simp only
  split
  · refine ⟨rfl, rfl, rfl, ?_, ?_, rfl⟩ <;>
      simp only [dropLease] <;> cases (s.slots i).receive <;>
      simp [HostBindings.publish, HostBindings.releaseBlock]
  · obtain ⟨hslots, hcapabilities, hnext, htickets, hcounters, hlog⟩ := releaseSlot_eq
      { s.note (.completed (s.slots i).sequence result) with
        host := (s.host.publish submission result).2 } i
    exact ⟨hslots, hcapabilities, hnext, htickets, hcounters, hlog⟩

/-- A slot whose guard can be armed. -/
theorem arm_ok {slot : Slot} (hready : slot.Ready) (hquarantined : slot.quarantined = false)
    (hretired : slot.retired = false) (storage : TxStorage) :
    slot.quiescence.arm storage = .ok ⟨some storage, slot.quiescence.generation + 1⟩ := by
  obtain ⟨hnone, hlt⟩ := hready.released hquarantined
  have hle := hready.generation_le
  have hgeneration := hlt hretired
  unfold QuiescenceGuard.arm
  rw [rejectIf_of_not (by simp [hnone]), rejectIf_of_not (by omega)]
  rfl

/-- What becomes of the submission of a slot that is progressed. -/
theorem process_spec {i : Fin n} {submission : TxSubmission} (callbacks : Callbacks)
    (hready : ∀ j, (s.slots j).Ready) (hsub : (s.slots i).submission = some submission) :
    ∃ bytes events result, copySegments submission.storage.segments = .ok bytes ∧
      Outcome s.host.routes submission bytes (s.slots i).sequence events result ∧
      served (s.process i submission callbacks).2.log = served s.log ++
        (events ++ [.completed (s.slots i).sequence result]) ∧
      Atoms s (s.process i submission callbacks).2 ∧
      ∀ j, ((s.process i submission callbacks).2.slots j).Ready := by
  obtain ⟨hquarantined, hretired, hhold, lease, hreceive, hcopied⟩ := (hready i).waiting _ hsub
  -- the slot is marked
  let s₀ := s.setSlot i { s.slots i with processing := true }
  have hself : s₀.slots i = { s.slots i with processing := true } := Function.update_self ..
  have hother : ∀ j, j ≠ i → s₀.slots j = s.slots j := fun j hj => Function.update_of_ne hj _ _
  obtain ⟨events, result, s₁, hdeliver, houtcome, hatoms, hserved, ⟨receive, hslot⟩, hkept⟩ :=
    deliver_spec (s := s₀) callbacks (by rw [hself]; exact hsub) (by rw [hself]; exact hquarantined)
      (by rw [hself]; exact hreceive)
  rw [hself] at hslot houtcome
  have hatoms₁ : Atoms s s₁ := .head (.touch i true (s.slots i).receive) hatoms
  have hothers : ∀ j, j ≠ i → (s₁.slots j).Ready := fun j hj =>
    hkept j hj (by rw [hother j hj]; exact hready j)
  refine ⟨lease.bytes, events, result, hcopied, houtcome, ?_⟩
  unfold process
  simp only
  rw [hdeliver]
  simp only
  by_cases hheld : submission.fault.holdQuiescence
  · -- the storage is held
    rw [if_pos hheld]
    have harm : (s₁.slots i).quiescence.arm submission.storage =
        .ok ⟨some submission.storage, (s.slots i).quiescence.generation + 1⟩ := by
      rw [hslot]
      exact arm_ok (hready i) hquarantined hretired _
    rw [harm]
    simp only
    let quiescence : QuiescenceGuard :=
      ⟨some submission.storage, (s.slots i).quiescence.generation + 1⟩
    let s₂ := s₁.setSlot i { s₁.slots i with quiescence, quarantined := true }
    have hself₂ : s₂.slots i = { s₁.slots i with quiescence, quarantined := true } :=
      Function.update_self ..
    obtain ⟨hslots, -, -, -, -, hlog⟩ := s₂.finish_eq i submission result
    refine ⟨?_, hatoms₁.tail (.hold result quiescence (by rw [hslot]; exact hsub)), fun j => ?_⟩
    · rw [hlog, served_append, hself₂, hslot]
      show served s₁.log ++ _ = _
      rw [hserved, List.append_assoc]
      rfl
    · rw [hslots]
      by_cases hj : j = i
      · subst hj
        rw [Function.update_self, hself₂, hslot]
        obtain ⟨-, hlt⟩ := (hready j).released hquarantined
        refine ⟨rfl, fun _ h => (by cases h), fun _ => ⟨hretired, rfl, ?_⟩, nofun, (hready j).generation_le⟩
        exact hlt hretired
      · rw [Function.update_of_ne hj]
        have hj' : s₂.slots j = s₁.slots j := Function.update_of_ne hj _ _
        rw [hj']
        exact hothers j hj
  · rw [if_neg hheld]
    obtain ⟨hslots, -, -, -, -, hlog⟩ := s₁.finish_eq i submission result
    refine ⟨?_, hatoms₁.tail (.complete result (by rw [hslot]; exact hsub)
      (by rw [hslot]; exact hquarantined)), fun j => ?_⟩
    · rw [hlog, served_append, hserved, hslot, List.append_assoc]
      rfl
    · rw [hslots]
      by_cases hj : j = i
      · subst hj
        rw [Function.update_self, Slot.finished, hslot, if_neg (by simp [hquarantined])]
        obtain ⟨hnone, hlt⟩ := (hready j).released hquarantined
        exact Slot.vacated_ready hnone (hlt hretired).le (hready j).generation_le
      · rw [Function.update_of_ne hj]
        exact hothers j hj

/-! ## Runs -/

/-- What holds between calls. -/
structure Settled (s : Loopback n) : Prop where
  progressing : s.progressing = false
  ready : ∀ i, (s.slots i).Ready

/-- `progress` is refused and changes nothing, or it processes the submission of its token. -/
theorem progress_cases (s : Loopback n) (token : TxToken) (callbacks : Callbacks) :
    (∃ e, s.progress token callbacks = (.error e, s)) ∨
      ∃ i submission, token = ⟨i.val, (s.slots i).generation⟩ ∧
        (s.slots i).submission = some submission ∧ s.progress token callbacks =
          ((process { s with progressing := true } i submission callbacks).1,
            { (process { s with progressing := true } i submission callbacks).2 with
              progressing := false }) := by
  unfold progress
  split
  · exact .inl ⟨_, rfl⟩
  · split
    · next hlt =>
      simp only
      split
      · exact .inl ⟨_, rfl⟩
      · next submission hsub =>
        split
        · exact .inl ⟨_, rfl⟩
        · next hfresh =>
          simp only [not_or, not_not] at hfresh
          refine .inr ⟨⟨token.slot, hlt⟩, submission, ?_, hsub, rfl⟩
          rw [hfresh.1]
    · exact .inl ⟨_, rfl⟩

theorem trySend_progressing (s : Loopback n) (submission : TxSubmission) :
    (s.trySend submission).2.progressing = s.progressing := by
  rcases s.trySend_cases submission with ⟨refusal, h⟩ | ⟨lease, packet, l, i, credits, host, -, -, h⟩
  · rw [h]
  · rw [h]
    rfl

/-- A call leaves the mark of a turn in progress as it was. -/
theorem call_progressing (s : Loopback n) (c : Call) : (s.call c).progressing = s.progressing := by
  cases c with
  | send submission =>
    show (if _ then s else _).progressing = _
    split
    · rfl
    · exact s.trySend_progressing submission
  | proveQuiescent token =>
    simp only [call, proveQuiescent]
    split
    · split
      · rfl
      · split <;> rfl
    · rfl
  | close => rfl
  | reserve => rfl
  | publish => rfl
  | outside => rfl
  | install => rfl

/-- The transport but for the flag of `progress`. -/
theorem progressing_atom (s : Loopback n) (b : Bool) : Atom s { s with progressing := b } :=
  .act (.same ⟨rfl, rfl, rfl, rfl, rfl, rfl⟩)

theorem Settled.call (h : s.Settled) (c : Call) : (s.call c).Settled where
  progressing := (s.call_progressing c).trans h.progressing
  ready := fun i => ((s.call_acts c).slot i).1 (h.ready i)

theorem Settled.progress (h : s.Settled) (token : TxToken) (callbacks : Callbacks) :
    (s.progress token callbacks).2.Settled ∧ Atoms s (s.progress token callbacks).2 := by
  rcases s.progress_cases token callbacks with ⟨e, heq⟩ | ⟨i, submission, -, hsub, heq⟩
  · rw [heq]
    exact ⟨h, .refl⟩
  · rw [heq]
    obtain ⟨_, _, _, -, -, -, hatoms, hready⟩ :=
      process_spec (s := { s with progressing := true }) callbacks h.ready hsub
    exact ⟨⟨rfl, hready⟩, .head (s.progressing_atom true) (hatoms.tail (progressing_atom _ false))⟩

/-- Every step leaves the transport settled. -/
theorem Settled.step (h : s.Settled) (m : Move) : (s.step m).Settled ∧ Atoms s (s.step m) := by
  cases m with
  | call c => exact ⟨h.call c, (s.call_acts c).atoms⟩
  | progress token callbacks => exact h.progress token callbacks
  | progressNext callbacks =>
    show (s.progressNext callbacks).2.Settled ∧ Atoms s (s.progressNext callbacks).2
    unfold progressNext
    split
    · exact ⟨h, .refl⟩
    · split
      · exact ⟨h, .refl⟩
      · exact h.progress _ callbacks

/-- A run goes from settled states to settled states, in atoms. -/
theorem Settled.run (h : s.Settled) (moves : List Move) :
    (s.run moves).Settled ∧ Atoms s (s.run moves) := by
  induction moves generalizing s with
  | nil => exact ⟨h, .refl⟩
  | cons m moves ih =>
    obtain ⟨hsettled, hatoms⟩ := h.step m
    obtain ⟨hsettled', hatoms'⟩ := ih hsettled
    exact ⟨hsettled', hatoms.trans hatoms'⟩

/-! ## The binding -/

/-- A slot as a cell. -/
def Slot.cell (slot : Slot) : Cell :=
  { generation := slot.generation
    phase := if slot.submission.isSome then .waiting slot.sequence
      else if slot.quarantined then .held slot.sequence
      else if slot.retired then .retired else .free }

/-- The transport as its binding sees it. -/
def binding (s : Loopback n) : Binding n :=
  { cells := fun i => (s.slots i).cell
    submissions := fun i => (s.slots i).submission
    next := s.nextSequence
    tickets := s.host.tickets
    log := s.log }

/-- A slot is waiting, held, retired or free. -/
structure Slot.Sound (slot : Slot) : Prop where
  waiting : slot.submission.isSome → slot.quarantined = false ∧ slot.retired = false
  held : slot.quarantined → slot.retired = false

def Sound (s : Loopback n) : Prop := ∀ i, (s.slots i).Sound

theorem Slot.vacated_cell {slot : Slot} (h : slot.retired = false) :
    slot.vacated.cell = slot.cell.vacated Binding.lastGeneration := by
  unfold Slot.vacated Slot.cell Cell.vacated
  simp only [Binding.lastGeneration]
  split <;> simp [h]

theorem Slot.vacated_submission (slot : Slot) : slot.vacated.submission = none := by
  unfold Slot.vacated
  simp only
  split <;> rfl

theorem Slot.vacated_sound (slot : Slot) : slot.vacated.Sound := by
  unfold Slot.vacated
  simp only
  split <;> exact ⟨nofun, nofun⟩

theorem binding_same (h : Same s s') : s'.binding = s.binding := by
  unfold binding
  rw [h.slots, h.nextSequence, h.tickets, h.log]

/-- One slot changes. -/
theorem cells_update {i : Fin n} {slot : Slot} (h : s'.slots = Function.update s.slots i slot) :
    s'.binding.cells = Function.update s.binding.cells i slot.cell ∧
      s'.binding.submissions = Function.update s.binding.submissions i slot.submission := by
  simp only [binding, h]
  constructor
  · funext j
    by_cases hj : j = i
    · subst hj
      simp
    · simp only [Function.update_of_ne hj]
  · funext j
    by_cases hj : j = i
    · subst hj
      simp
    · simp only [Function.update_of_ne hj]

theorem Sound.update (hsound : s.Sound) {i : Fin n} {slot : Slot}
    (h : s'.slots = Function.update s.slots i slot) (hslot : slot.Sound) : s'.Sound := by
  intro j
  rw [h]
  by_cases hj : j = i
  · subst hj
    rw [Function.update_self]
    exact hslot
  · rw [Function.update_of_ne hj]
    exact hsound j

/-- A binding is known by its parts. -/
theorem binding_eq {b : Binding n} (hcells : s.binding.cells = b.cells)
    (hsubmissions : s.binding.submissions = b.submissions) (hnext : s.nextSequence = b.next)
    (htickets : s.host.tickets = b.tickets) (hlog : s.log = b.log) : s.binding = b := by
  obtain ⟨cells, submissions, next, tickets, log⟩ := b
  simp only at hcells hsubmissions hnext htickets hlog
  subst hcells hsubmissions hnext htickets hlog
  rfl

/-- A submission's ticket is published and its slot becomes `slot`. -/
theorem binding_finish {i : Fin n} {submission : TxSubmission} {result : CompletionResult} {slot : Slot}
    (hnone : slot.submission = none)
    (hslots : s'.slots = Function.update s.slots i slot) (hnext : s'.nextSequence = s.nextSequence)
    (htickets : s'.host.tickets = (submission.completion.publish result s.host.tickets).2)
    (hlog : s'.log = s.log ++ [.completed (s.slots i).sequence result]) :
    s'.binding = s.binding.complete i submission (s.slots i).sequence result slot.cell := by
  obtain ⟨hcells, hsubmissions⟩ := cells_update hslots
  rw [hnone] at hsubmissions
  exact binding_eq hcells hsubmissions hnext htickets hlog

theorem binding_waiting {i : Fin n} {submission : TxSubmission}
    (h : (s.slots i).submission = some submission) :
    (s.binding.cells i).phase = .waiting (s.slots i).sequence := by
  simp [binding, Slot.cell, h]

/-- A call is a step of the binding, or several. -/
theorem Act.binding_step (h : Act s s') (hsound : s.Sound) :
    s'.Sound ∧ Binding.Steps s.binding s'.binding := by
  cases h with
  | accept hadmitted hcharged =>
    next submission lease packet l i credits host =>
    obtain ⟨-, hnone, hquarantined, hretired⟩ := findSlot_spec hadmitted.slot
    have hslots : (s.admitted submission lease i packet.envelope.envelope.packetCount credits
        host).slots = Function.update s.slots i { s.slots i with
          receive := some lease, credits, sequence := s.nextSequence,
          submission := some submission } := rfl
    refine ⟨hsound.update hslots ⟨fun _ => ⟨hquarantined, hretired⟩, (hsound i).held⟩, ?_⟩
    obtain ⟨hcells, hsubmissions⟩ := cells_update hslots
    have hbinding : (s.admitted submission lease i packet.envelope.envelope.packetCount credits
        host).binding = s.binding.accept i submission packet.envelope.envelope.packetCount :=
      binding_eq hcells hsubmissions rfl hcharged.tickets rfl
    rw [hbinding]
    refine .single (.accept i submission _ ?_ hadmitted.reserved)
    simp [Loopback.binding, Slot.cell, hnone, hquarantined, hretired]
  | release hheld =>
    next i =>
    obtain ⟨hreleased, -, hnext, htickets, -, hlog⟩ :=
      releaseSlot_eq (s.setSlot i (s.slots i).proved) i
    have hslots : ((s.setSlot i (s.slots i).proved).releaseSlot i).slots =
        Function.update s.slots i (s.slots i).proved.vacated := by
      rw [hreleased]
      simp only [setSlot, Function.update_self, Function.update_idem]
    refine ⟨hsound.update hslots (Slot.vacated_sound _), ?_⟩
    have hnone : (s.slots i).submission = none := by
      by_contra hsome
      have := ((hsound i).waiting (Option.isSome_iff_ne_none.mpr hsome)).1
      rw [this] at hheld
      cases hheld
    obtain ⟨hcells, hsubmissions⟩ := cells_update hslots
    have hretired := (hsound i).held hheld
    have hbinding : ((s.setSlot i (s.slots i).proved).releaseSlot i).binding = { s.binding with
        cells := Function.update s.binding.cells i
          ((s.binding.cells i).vacated Binding.lastGeneration) } := by
      refine binding_eq ?_ ?_ hnext htickets hlog
      · rw [hcells, Slot.vacated_cell (show (s.slots i).proved.retired = false from hretired)]
        rfl
      · rw [hsubmissions, Slot.vacated_submission]
        exact Function.update_eq_self_iff.mpr hnone.symm
    rw [hbinding]
    refine .single (.release i (s.slots i).sequence ?_)
    simp [Loopback.binding, Slot.cell, hnone, hheld]
  | reserve ticket => exact ⟨hsound, .single (.reserve ticket)⟩
  | publish ticket result => exact ⟨hsound, .single (.publish ticket result)⟩
  | install batch =>
    refine ⟨hsound, ?_⟩
    have heq : (s.call (.install batch)).binding = s.binding := by
      unfold Loopback.binding
      rw [← install_tickets s.host batch]
      rfl
    rw [heq]
  | same hsame =>
    rw [binding_same hsame]
    refine ⟨fun j => ?_, .refl⟩
    rw [hsame.slots]
    exact hsound j

/-- An atom is a step of the binding, or several. -/
theorem Atom.binding_step (h : Atom s s') (hsound : s.Sound) :
    s'.Sound ∧ Binding.Steps s.binding s'.binding := by
  cases h with
  | act hact => exact hact.binding_step hsound
  | touch i processing receive =>
    have hslots : (s.setSlot i { s.slots i with processing, receive }).slots =
      Function.update s.slots i { s.slots i with processing, receive } := rfl
    refine ⟨hsound.update hslots ⟨(hsound i).waiting, (hsound i).held⟩, ?_⟩
    obtain ⟨hcells, hsubmissions⟩ := cells_update hslots
    have hbinding : (s.setSlot i { s.slots i with processing, receive }).binding = s.binding := by
      refine binding_eq ?_ ?_ rfl rfl rfl
      · rw [hcells]
        exact Function.update_eq_self _ _
      · rw [hsubmissions]
        exact Function.update_eq_self _ _
    rw [hbinding]
  | delivered q route packet rx =>
    refine ⟨hsound, .single (.note (.delivered q route packet rx) rfl ?_)⟩
    intro token q submission count he
    cases he
  | complete result hsub hquarantined =>
    next i submission =>
    obtain ⟨hslots, -, hnext, htickets, -, hlog⟩ := s.finish_eq i submission result
    rw [Slot.finished, if_neg (by simp [hquarantined])] at hslots
    refine ⟨hsound.update hslots (Slot.vacated_sound _), ?_⟩
    rw [binding_finish (Slot.vacated_submission _) hslots hnext htickets hlog,
      Slot.vacated_cell ((hsound i).waiting (by rw [hsub]; rfl)).2]
    exact .single (.complete i submission _ result (binding_waiting hsub) hsub)
  | hold result quiescence hsub =>
    next i submission =>
    let s₁ := s.setSlot i { s.slots i with quiescence, quarantined := true }
    have hself : s₁.slots i = { s.slots i with quiescence, quarantined := true } :=
      Function.update_self ..
    obtain ⟨hslots, -, hnext, htickets, -, hlog⟩ := s₁.finish_eq i submission result
    rw [hself] at hslots hlog
    have hslots' : (s₁.finish i submission result).2.slots = Function.update s.slots i
        { s.slots i with
          quiescence, quarantined := true, receive := none, submission := none,
          processing := false } := by
      rw [hslots]
      exact Function.update_idem ..
    have hretired := ((hsound i).waiting (by rw [hsub]; rfl)).2
    refine ⟨hsound.update hslots' ⟨nofun, fun _ => hretired⟩, ?_⟩
    show Binding.Steps s.binding (s₁.finish i submission result).2.binding
    rw [binding_finish rfl hslots' hnext htickets hlog]
    exact .single (.hold i submission _ result (binding_waiting hsub) hsub)

theorem Atoms.binding_steps (h : Atoms s s') (hsound : s.Sound) :
    s'.Sound ∧ Binding.Steps s.binding s'.binding := by
  induction h with
  | refl => exact ⟨hsound, .refl⟩
  | tail _ hatom ih =>
    obtain ⟨hsound', hsteps⟩ := ih
    obtain ⟨hsound'', hsteps'⟩ := hatom.binding_step hsound'
    exact ⟨hsound'', hsteps.trans hsteps'⟩

/-- The states that a new transport can reach. -/
def Reachable (s : Loopback n) : Prop :=
  ∃ capabilities host moves, s = (new n capabilities host).run moves

theorem settled_new (capabilities : Capabilities) (host : HostBindings) :
    (new n capabilities host).Settled where
  progressing := rfl
  ready := fun _ => Slot.ready_new

theorem sound_new (capabilities : Capabilities) (host : HostBindings) :
    (new n capabilities host).Sound :=
  fun _ => ⟨nofun, nofun⟩

theorem Reachable.settled (h : s.Reachable) : s.Settled := by
  obtain ⟨capabilities, host, moves, rfl⟩ := h
  exact ((settled_new capabilities host).run moves).1

theorem Reachable.steps (h : s.Reachable) : s.Sound ∧ Binding.Steps {} s.binding := by
  obtain ⟨capabilities, host, moves, rfl⟩ := h
  exact Atoms.binding_steps ((settled_new capabilities host).run moves).2 (sound_new capabilities host)

theorem Reachable.inv (h : s.Reachable) : s.Sound ∧ s.binding.Inv :=
  ⟨h.steps.1, Binding.Inv.steps Binding.inv_empty h.steps.2⟩

/-- A ticket of a submission goes through the life that the arena gives it. -/
theorem Reachable.leads (h : s.Reachable) (ticket : ℕ) :
    Completion.Ticket.Leads ⟨1, .free⟩ (Binding.life s.host.tickets ticket) :=
  Binding.Steps.leads Binding.inv_empty h.steps.2 ticket

/-- What holds at first and is kept by atoms holds of every state that can be reached. -/
theorem Reachable.induction {Q : Loopback n → Prop} (hnew : ∀ capabilities host, Q (new n capabilities host))
    (hatom : ∀ s s', Q s → Atom s s' → Q s') (h : s.Reachable) : Q s := by
  obtain ⟨capabilities, host, moves, rfl⟩ := h
  have hatoms := ((settled_new (n := n) capabilities host).run moves).2
  generalize (new n capabilities host).run moves = s at hatoms
  induction hatoms with
  | refl => exact hnew capabilities host
  | tail _ hstep ih => exact hatom _ _ ih hstep

/-! ## Lanes -/

/-- The packet of a submission belongs to a lane. -/
def OnLane (submission : TxSubmission) (l : Lane) : Prop :=
  ∃ header, headerBytes submission.storage.segments [] = .ok header ∧
    l = lane submission.counter.type
      (isCommand submission.counter.type && bit ((wordAt header 0).getD 0) 24)

/-- The header that is copied is the front of the packet. -/
theorem headerBytes_copySegments {segments : List TxSegment} {bytes : Bytes}
    (h : copySegments segments = .ok bytes) (copied : Bytes) :
    headerBytes segments copied = .ok (copied ++ bytes.take (4 - copied.length)) := by
  induction segments generalizing bytes copied with
  | nil =>
    cases h
    simp [headerBytes]
  | cons segment rest ih =>
    simp only [copySegments, bind_eq_ok, pure_eq_ok, Except.ok.injEq] at h
    obtain ⟨part, hpart, more, hmore, rfl⟩ := h
    unfold headerBytes
    split
    · next hlt =>
      rw [hpart]
      show headerBytes rest (copied ++ part.take (4 - copied.length)) = _
      have hrest : 4 - (copied ++ part.take (4 - copied.length)).length =
          4 - copied.length - part.length := by
        rw [List.length_append, List.length_take]
        omega
      rw [ih hmore, List.append_assoc, List.take_append, hrest]
    · next hge =>
      have hzero : 4 - copied.length = 0 := by omega
      rw [hzero, List.take_zero, List.append_nil]
      rfl

/-- The flags of a decoded envelope are those of the header. -/
theorem decodeEnvelope_cancel {bytes : Bytes} {view : EnvelopeView}
    (h : decodeEnvelope bytes = .ok view) : ∃ header, wordAt bytes 0 = some header ∧
      view.envelope.cancel = (isCommand view.envelope.type && bit header 24) := by
  simp only [decodeEnvelope, decodePrologue, bind_eq_ok, rejectIf_eq_ok, load32_eq_ok, Prod.exists,
    pure_eq_ok, Except.ok.injEq, Prod.mk.injEq] at h
  obtain ⟨_, _, ⟨_, -, header, hheader, _, -, _, -, _, -, _, -, _, _, -, _, _, -, _, _, -, _, _, -,
    rfl, -⟩, _, -, _, -, _, -, rfl⟩ := h
  exact ⟨header, hheader, rfl⟩

/-- The lane of the packet is the lane of its header. -/
theorem onLane_packet {submission : TxSubmission} {bytes : Bytes} {packet : PacketView}
    {routes : RouteRegistry} (hcopied : copySegments submission.storage.segments = .ok bytes)
    (hparsed : parse routes submission.source bytes = .ok packet)
    (htype : packet.envelope.envelope.type = submission.counter.type) :
    OnLane submission (lane submission.counter.type packet.envelope.envelope.cancel) := by
  obtain ⟨henvelope, -⟩ := parse_ok hparsed
  obtain ⟨header, hheader, hcancel⟩ := decodeEnvelope_cancel henvelope
  refine ⟨bytes.take 4, ?_, ?_⟩
  · rw [headerBytes_copySegments hcopied]
    rfl
  · rw [Link.wordAt_take (Nat.le_refl 4) hheader, hcancel, htype]
    rfl

theorem Admitted.onLane {submission : TxSubmission} {bytes : Bytes} {packet : PacketView} {l : Lane}
    {i : Fin n} (h : s.Admitted submission bytes packet l i) : OnLane submission l := by
  rw [h.lane]
  exact onLane_packet h.copied h.parsed h.type

/-- Every submission is in a slot of its lane. -/
def InLane (s : Loopback n) : Prop :=
  ∀ token q submission count, .accepted token q submission count ∈ s.log →
    ∃ l, OnLane submission l ∧ ∃ j ∈ l.slots s.capabilities n, token.slot = j.val

/-- What an atom adds to the history. -/
theorem Atom.log (h : Atom s s') : s'.capabilities = s.capabilities ∧ (s'.log = s.log ∨
    ∃ e, s'.log = s.log ++ [e] ∧ ∀ token q submission count,
      e = .accepted token q submission count →
        ∃ bytes packet l i, s.Admitted submission bytes packet l i ∧ token.slot = i.val ∧
          count = packet.envelope.envelope.packetCount ∧
          s.host.counters.accept submission.counter count = .ok s'.host.counters) := by
  cases h with
  | act hact =>
    cases hact with
    | accept hadmitted hcharged =>
      refine ⟨rfl, .inr ⟨_, rfl, fun token q submission count he => ?_⟩⟩
      cases he
      exact ⟨_, _, _, _, hadmitted, rfl, rfl, hcharged.counters⟩
    | release hheld =>
      obtain ⟨-, hcapabilities, -, -, -, hlog⟩ := releaseSlot_eq (s.setSlot _ (s.slots _).proved) _
      exact ⟨hcapabilities, .inl hlog⟩
    | reserve => exact ⟨rfl, .inl rfl⟩
    | publish => exact ⟨rfl, .inl rfl⟩
    | install => exact ⟨rfl, .inl rfl⟩
    | same hsame => exact ⟨hsame.capabilities, .inl hsame.log⟩
  | touch => exact ⟨rfl, .inl rfl⟩
  | delivered q route packet rx =>
    refine ⟨rfl, .inr ⟨.delivered q route packet rx, rfl, fun _ _ _ _ he => ?_⟩⟩
    cases he
  | complete result hsub hquarantined =>
    obtain ⟨-, hcapabilities, -, -, -, hlog⟩ := s.finish_eq _ _ result
    refine ⟨hcapabilities, .inr ⟨_, hlog, fun _ _ _ _ he => ?_⟩⟩
    cases he
  | hold result quiescence hsub =>
    next i submission =>
    obtain ⟨-, hcapabilities, -, -, -, hlog⟩ := (s.setSlot i
      { s.slots i with quiescence, quarantined := true }).finish_eq i submission result
    refine ⟨hcapabilities, .inr ⟨_, hlog, fun _ _ _ _ he => ?_⟩⟩
    cases he

/-- Submissions stay in the slots of their lanes. -/
theorem InLane.atom (hlane : s.InLane) (hatom : Atom s s') : s'.InLane := by
  intro token q submission count hmem
  obtain ⟨hcapabilities, hlog⟩ := hatom.log
  rw [hcapabilities]
  rcases hlog with hlog | ⟨e, hlog, he⟩
  · rw [hlog] at hmem
    exact hlane _ _ _ _ hmem
  · rw [hlog] at hmem
    rcases List.mem_append.mp hmem with hmem | hmem
    · exact hlane _ _ _ _ hmem
    · obtain ⟨bytes, packet, l, i, hadmitted, hi, -, -⟩ :=
        he _ _ _ _ (List.mem_singleton.mp hmem).symm
      exact ⟨l, hadmitted.onLane, i, (findSlot_spec hadmitted.slot).1, hi⟩

theorem Reachable.inLane (h : s.Reachable) : s.InLane :=
  h.induction (Q := InLane) (fun _ _ => by simp [InLane, new]) fun _ _ => InLane.atom

end Loopback

end Vita.Transport
