import Vita.Transport.Udp
import Vita.Transport.Binding

/-!
# The UDP transport keeps its promises

`Atom` lists what a call can do to the parts of the transport that matter for its submissions. Every
call is a sequence of atoms, so an invariant has to be shown for the atoms only.

Main results:
- `Udp.trySend_cases`: a submission is rejected without a trace, or takes a slot of its lane;
- `Udp.run_atoms`: a run is a sequence of atoms;
- `Udp.binding_steps`: the transport refines `Binding`.
-/

namespace Vita.Transport.Udp

open Checked Codec Slots Trace
open Completion (CompletionResult CompletionStatus)
open Transaction (AdmissionPool AdmissionBundle AdmissionRequest Resource)

variable {n : ℕ} {s s' : Udp n}

/-! ## Sending -/

/-- What `try_send` has checked of a submission that it accepts. -/
structure Admitted (s : Udp n) (submission : TxSubmission) (peer : PeerBinding) (l : Lane) (i : Fin n)
    (count : UInt8) : Prop where
  isOpen : s.isOpen
  reserved : submission.completion.isReserved s.host.tickets
  peer : s.findPeer submission.source = some peer
  frame : ∃ frame, inspect submission.storage = .ok frame ∧
    l = lane frame.envelope.type frame.envelope.cancel ∧
    count = frame.envelope.packetCount ∧ frame.packetBytes ≤ s.maximum l ∧
    submission.counter = ⟨submission.source.peer, frame.envelope.streamId, frame.envelope.type⟩
  slot : s.findSlot l = some i
  sequence : s.nextSequence ≠ sizeMax

/-- What the preflight lets pass is admitted. -/
theorem admitted_of_preflight {submission : TxSubmission} {peer : PeerBinding} {l : Lane} {i : Fin n}
    {count : UInt8} (h : s.preflight submission = .ok (peer, l, i, count)) :
    s.Admitted submission peer l i count := by
  unfold preflight at h
  simp only [bind_eq_ok, rejectIf_eq_ok, exists_const] at h
  obtain ⟨hopen, -, hreserved, h⟩ := h
  split at h
  · cases h
  · next peer' hpeer =>
    split at h
    · cases h
    · next frame hframe =>
      simp only [bind_eq_ok, rejectIf_eq_ok, exists_const] at h
      obtain ⟨hsize, hcounter, -, -, h⟩ := h
      split at h
      · cases h
      · next i' hslot =>
        simp only [bind_eq_ok, rejectIf_eq_ok, exists_const, pure_eq_ok, Except.ok.injEq,
          Prod.mk.injEq] at h
        obtain ⟨-, hsequence, rfl, rfl, rfl, rfl⟩ := h
        simp only [not_or, not_not, Bool.not_eq_true, Bool.not_eq_false] at hopen hreserved hcounter
        refine ⟨hopen, hreserved.1, hpeer, ⟨frame, hframe, rfl, rfl, by omega, ?_⟩, hslot, hsequence⟩
        obtain ⟨hsender, hstream, htype⟩ := hcounter
        rw [← hsender, ← hstream, ← htype]

/-- The transport after a submission was accepted. -/
def admitted (s : Udp n) (submission : TxSubmission) (destination : Address) (i : Fin n)
    (count : UInt8) (credits : AdmissionBundle) (admission : AdmissionPool)
    (counters : CounterRegistry) : Udp n :=
  place { s with host := { s.host with admission, counters } } i submission destination credits count

/-- A submission is rejected and nothing has changed, or it takes a slot. -/
theorem trySend_cases (s : Udp n) (submission : TxSubmission) :
    (∃ refusal, s.trySend submission = (.error ⟨refusal, submission⟩, s)) ∨
      ∃ peer l i count credits admission counters, s.Admitted submission peer l i count ∧
        s.host.admission.acquire (creditRequest submission l) = .ok (credits, admission) ∧
        s.host.counters.accept submission.counter count = .ok counters ∧
        s.trySend submission = (.ok ⟨i, (s.slots i).generation⟩,
          s.admitted submission (peer.remote l) i count credits admission counters) := by
  unfold trySend
  split
  · next refusal _ => exact .inl ⟨refusal, rfl⟩
  · next peer l i count hpreflight =>
    split
    · exact .inl ⟨_, rfl⟩
    · next credits admission hacquire =>
      simp only
      split
      · next error _ =>
        refine .inl ⟨.uncounted error, ?_⟩
        rw [HostBindings.resetCredits, reset_acquire hacquire]
      · next counters haccept =>
        exact .inr ⟨peer, l, i, count, credits, admission, counters,
          admitted_of_preflight hpreflight, hacquire, haccept, rfl⟩

/-! ## Atoms -/

/-- The parts of the transport that matter for its submissions are the same. -/
structure Same (s s' : Udp n) : Prop where
  slots : s'.slots = s.slots
  config : s'.config = s.config
  nextSequence : s'.nextSequence = s.nextSequence
  tickets : s'.host.tickets = s.host.tickets
  counters : s'.host.counters = s.host.counters
  log : s'.log = s.log

/-- An elementary step; `P` says which lanes may hand packets to their sockets. -/
inductive Atom (P : Udp n → Lane → Prop) (s : Udp n) : Udp n → Prop
  | accept {submission : TxSubmission} {peer : PeerBinding} {l : Lane} {i : Fin n} {count : UInt8}
      {credits : AdmissionBundle} {admission : AdmissionPool} {counters : CounterRegistry} :
      s.Admitted submission peer l i count →
      s.host.counters.accept submission.counter count = .ok counters →
      Atom P s (s.admitted submission (peer.remote l) i count credits admission counters)
  | sent {l : Lane} {i : Fin n} {submission : TxSubmission} : P s l → s.nextSlot l = some i →
      (s.slots i).submission = some submission → Atom P s (s.note (.sent (s.slots i).sequence))
  | complete {i : Fin n} {submission : TxSubmission} (result : CompletionResult) :
      (s.slots i).submission = some submission → Atom P s (s.complete i submission result).2
  | received (route : ℕ) (packet : PacketView) (rx : RxEnvelope) :
      Atom P s (s.note (.received route packet rx))
  | reserve (ticket : ℕ) : Atom P s (s.call (.reserve ticket))
  | publish (ticket : ℕ) (result : CompletionResult) : Atom P s (s.call (.publish ticket result))
  | install (batch : List CounterKey) : Atom P s (s.call (.install batch))
  | same {s' : Udp n} : Same s s' → Atom P s s'

abbrev Atoms (P : Udp n → Lane → Prop) : Udp n → Udp n → Prop := Relation.ReflTransGen (Atom P)

variable {P : Udp n → Lane → Prop}

theorem Atoms.same (h : Same s s') : Atoms P s s' := .single (.same h)

theorem trySend_atoms (s : Udp n) (submission : TxSubmission) :
    Atoms P s (s.trySend submission).2 := by
  rcases s.trySend_cases submission with ⟨refusal, h⟩ |
    ⟨peer, l, i, count, credits, admission, counters, hadmitted, -, haccept, h⟩
  · rw [h]
  · rw [h]
    exact .single (.accept hadmitted haccept)

theorem failSlot_atoms (s : Udp n) (i : Fin n) : Atoms P s (s.failSlot i) := by
  unfold failSlot
  split
  · exact .refl
  · next submission hsub => exact .single (.complete _ hsub)

theorem foldl_atoms {α : Type} {f : Udp n → α → Udp n} (hf : ∀ s a, Atoms P s (f s a)) (l : List α)
    (s : Udp n) : Atoms P s (l.foldl f s) := by
  induction l generalizing s with
  | nil => exact .refl
  | cons a l ih => exact (hf s a).trans (ih (f s a))

theorem detach_atoms (s : Udp n) : Atoms P s s.detach := by
  unfold detach
  split
  · exact .refl
  · have hclosed : Same s { s with isOpen := false, aborting := true, detached := true } :=
      ⟨rfl, rfl, rfl, rfl, rfl, rfl⟩
    have hfailed := foldl_atoms (P := P) failSlot_atoms (List.finRange n)
      { s with isOpen := false, aborting := true, detached := true }
    exact .head (.same hclosed) (hfailed.tail (.same ⟨rfl, rfl, rfl, rfl, rfl, rfl⟩))

theorem same_ok {r : Result (Udp n)} (h : ∀ s', r = .ok s' → Same s s') : Same s (s.ok r) := by
  cases r with
  | error e => exact ⟨rfl, rfl, rfl, rfl, rfl, rfl⟩
  | ok s' => exact h s' rfl

theorem same_addPeer {peer : PeerBinding} (h : s.addPeer peer = .ok s') : Same s s' := by
  unfold addPeer at h
  simp only [bind_eq_ok, rejectIf_eq_ok, exists_const, pure_eq_ok, Except.ok.injEq] at h
  obtain ⟨-, -, -, -, rfl⟩ := h
  exact ⟨rfl, rfl, rfl, rfl, rfl, rfl⟩

theorem same_associate {batch : List Association} {commit : Bool}
    (h : s.associate batch commit = .ok s') : Same s s' := by
  unfold associate at h
  simp only [bind_eq_ok, rejectIf_eq_ok, exists_const, pure_eq_ok, Except.ok.injEq] at h
  obtain ⟨-, candidate, -, rfl⟩ := h
  cases commit <;> exact ⟨rfl, rfl, rfl, rfl, rfl, rfl⟩

theorem same_beginCycle (s : Udp n) : Same s s.beginCycle := by
  unfold beginCycle
  split <;> exact ⟨rfl, rfl, rfl, rfl, rfl, rfl⟩

/-- A call is a sequence of atomic steps. -/
theorem call_atoms (s : Udp n) (c : Call) : Atoms P s (s.call c) := by
  cases c with
  | send submission =>
    show Atoms P s (if _ then s else _)
    split
    · exact .refl
    · exact s.trySend_atoms submission
  | beginCycle => exact Atoms.same s.same_beginCycle
  | close => exact Atoms.same ⟨rfl, rfl, rfl, rfl, rfl, rfl⟩
  | abort => exact Atoms.same ⟨rfl, rfl, rfl, rfl, rfl, rfl⟩
  | detach => exact s.detach_atoms
  | addPeer peer => exact Atoms.same (same_ok fun s' => same_addPeer)
  | associate batch commit => exact Atoms.same (same_ok fun s' => same_associate)
  | reserve ticket => exact .single (.reserve ticket)
  | publish ticket result => exact .single (.publish ticket result)
  | outside o => exact Atoms.same ⟨rfl, rfl, rfl, rfl, rfl, rfl⟩
  | install batch => exact .single (.install batch)
  | arrive l d => exact Atoms.same ⟨rfl, rfl, rfl, rfl, rfl, rfl⟩

theorem calls_atoms (s : Udp n) (l : List Call) : Atoms P s (s.calls l) := foldl_atoms call_atoms l s

/-! ## Turns -/

theorem countAttempt_same (s : Udp n) (l : Lane) : Same s (s.countAttempt l) := by
  unfold countAttempt
  split <;> exact ⟨rfl, rfl, rfl, rfl, rfl, rfl⟩

theorem nextSlot_same (h : Same s s') (l : Lane) : s'.nextSlot l = s.nextSlot l := by
  unfold nextSlot laneSlots
  rw [h.slots, h.config]

/-- What `transmit` can do: nothing, a failed attempt, a retry, or the completion of the oldest
submission of the lane. -/
theorem transmit_cases (s : Udp n) (l : Lane) (io : Io) :
    (∃ r s', s.transmit l io = (r, s') ∧ (s' = s ∨ s' = s.countAttempt l ∧ s.exhausted l = false) ∧
      r ≠ .ok true) ∨
    ∃ i submission, s.nextSlot l = some i ∧ (s.slots i).submission = some submission ∧
      s.exhausted l = false ∧
      ((s.aborting = false ∧ (∃ e, io.send l = .error e ∧ e.retryable) ∧
          s.transmit l io = (.ok false, (s.countAttempt l).note (.sent (s.slots i).sequence))) ∨
        ∃ r result s', s.transmit l io = (r, (s'.complete i submission result).2) ∧ r ≠ .ok false ∧
          (s.aborting = true ∧ s' = s.countAttempt l ∨
            s.aborting = false ∧ s' = (s.countAttempt l).note (.sent (s.slots i).sequence))) := by
  unfold transmit
  split
  · exact .inl ⟨_, _, rfl, .inl rfl, by simp⟩
  · next i hi =>
    split
    · exact .inl ⟨_, _, rfl, .inl rfl, by simp⟩
    · next submission hsub =>
      split
      · exact .inl ⟨_, _, rfl, .inl rfl, by simp⟩
      · next hexhausted =>
        have haborting : (s.countAttempt l).aborting = s.aborting := by
          unfold countAttempt
          split <;> rfl
        have hslots : (s.countAttempt l).slots = s.slots := (s.countAttempt_same l).slots
        simp only
        split
        · exact .inl ⟨_, _, rfl, .inr ⟨rfl, by simpa using hexhausted⟩, by simp⟩
        · refine .inr ⟨i, submission, hi, hsub, by simpa using hexhausted, ?_⟩
          rw [haborting, hslots]
          cases hab : s.aborting with
          | true =>
            simp only [if_true, Bool.true_eq_false, false_and, false_or, Bool.false_eq_true, if_false]
            refine ⟨_, _, _, rfl, ?_, .inl ⟨trivial, rfl⟩⟩
            split <;> simp
          | false =>
            simp only [Bool.false_eq_true, if_false]
            split
            · next e retry hsend =>
              split
              · next hretry => exact .inl ⟨trivial, ⟨_, hsend, hretry⟩, rfl⟩
              · refine .inr ⟨_, _, _, rfl, ?_, .inr ⟨trivial, rfl⟩⟩
                split <;> simp
            · refine .inr ⟨_, _, _, rfl, ?_, .inr ⟨trivial, rfl⟩⟩
              split <;> simp

/-- So is a transmission. -/
theorem transmit_atoms (s : Udp n) (l : Lane) (io : Io)
    (hP : s.aborting = false → s.exhausted l = false → ∀ s', Same s s' → P s' l) :
    Atoms P s (s.transmit l io).2 := by
  have hcount := s.countAttempt_same l
  rcases s.transmit_cases l io with ⟨r, s', h, hs' | hs', -⟩ |
      ⟨i, submission, hi, hsub, hexhausted, h⟩
  · rw [h, hs']
  · rw [h, hs'.1]
    exact .same hcount
  · have hsub' : ((s.countAttempt l).slots i).submission = some submission := by rwa [hcount.slots]
    have hi' : (s.countAttempt l).nextSlot l = some i := (nextSlot_same hcount l).trans hi
    have hsent : s.aborting = false →
        Atoms P s ((s.countAttempt l).note (.sent (s.slots i).sequence)) := by
      intro haborting
      rw [← hcount.slots]
      exact .head (.same hcount) (.single (.sent (hP haborting hexhausted _ hcount) hi' hsub'))
    rcases h with ⟨haborting, -, h⟩ | ⟨r, result, s', h, -, ⟨-, rfl⟩ | ⟨haborting, rfl⟩⟩
    · rw [h]
      exact hsent haborting
    · rw [h]
      exact .head (.same hcount) (.single (.complete result hsub'))
    · rw [h]
      exact (hsent haborting).tail (.complete result hsub')

/-- So is the delivery of a datagram. -/
theorem dispatch_atoms (s : Udp n) (l : Lane) (source : Address) (wire : Bytes)
    (callbacks : Callbacks) : Atoms P s (s.dispatch l source wire callbacks).2 := by
  unfold dispatch
  split
  · exact .refl
  · split
    · exact .refl
    · next position route _ =>
      have hbefore : Atoms P s (if route.beforeDecode then s.calls callbacks.beforeDecode else s) := by
        split
        · exact s.calls_atoms _
        · exact .refl
      simp only
      split
      · exact hbefore
      · split
        · exact hbefore
        · split
          · exact hbefore
          · split
            · exact hbefore
            · exact (hbefore.tail (.received _ _ _)).trans (calls_atoms _ _)

theorem discard_same (s : Udp n) (l : Lane) (io : Io) : Same s (s.discard l io) := by
  unfold discard
  split <;> exact ⟨rfl, rfl, rfl, rfl, rfl, rfl⟩

/-- A datagram that is accepted is a sequence of atoms. -/
theorem accept_atoms (s : Udp n) (l : Lane) (peeked : Address) (declared : ℕ) (io : Io)
    (callbacks : Callbacks) : Atoms P s (s.accept l peeked declared io callbacks).2 := by
  unfold accept
  split
  · split <;> exact .refl
  · exact .refl
  · have hremoved : Same s (s.removeHead l) := ⟨rfl, rfl, rfl, rfl, rfl, rfl⟩
    simp only
    split
    · exact .same hremoved
    · split
      · exact .same hremoved
      · split
        · exact .same hremoved
        · exact (Atoms.same hremoved).trans (dispatch_atoms _ _ _ _ _)

theorem fill_atoms (s : Udp n) (l : Lane) (peeked : Address) (declared block : ℕ) (pool : ExternalPool)
    (io : Io) (callbacks : Callbacks) :
    Atoms P s (s.fill l peeked declared block pool io callbacks).2 := by
  have htaken : Same s
      { s with host := { s.host with pools := Function.update s.host.pools l pool } } :=
    ⟨rfl, rfl, rfl, rfl, rfl, rfl⟩
  exact .head (.same htaken) ((accept_atoms _ l peeked declared io callbacks).tail
    (.same ⟨rfl, rfl, rfl, rfl, rfl, rfl⟩))

/-- So is a reception. -/
theorem receive_atoms (s : Udp n) (l : Lane) (io : Io) (callbacks : Callbacks) :
    Atoms P s (s.receive l io callbacks).2 := by
  have hdiscard : Atoms P s (s.discard l io) := Atoms.same (s.discard_same l io)
  unfold receive
  split
  · exact .refl
  · split
    · split <;> exact .refl
    · exact .refl
    · simp only
      split
      · exact hdiscard
      · split
        · exact hdiscard
        · split
          · exact hdiscard
          · split
            · exact hdiscard
            · split
              · exact hdiscard
              · split
                · exact hdiscard
                · exact fill_atoms _ _ _ _ _ _ _ _

theorem turn_atoms (hP : ∀ s l, P s l) (s : Udp n) (io : Io) (callbacks : Callbacks) :
    Atoms P s (s.turn io callbacks).2 := by
  have hcursor : Same s { s with cursor := (s.cursor + 1) % 6 } := ⟨rfl, rfl, rfl, rfl, rfl, rfl⟩
  unfold turn
  simp only
  split
  · exact .head (.same hcursor) (receive_atoms _ _ _ _)
  · exact .head (.same hcursor) (transmit_atoms _ _ _ fun _ _ _ _ => hP _ _)

/-- The turns of a call are sequences of atoms. -/
theorem turns_atoms (hP : ∀ s l, P s l) (io : Io) (callbacks : Callbacks) (attempts : ℕ) (s : Udp n) :
    Atoms P s (turns io callbacks attempts s).2 := by
  induction attempts generalizing s with
  | zero => exact .refl
  | succ attempts ih =>
    have hturn := turn_atoms hP s io callbacks
    unfold turns
    split
    · next h => exact h ▸ hturn
    · next h => exact h ▸ hturn
    · next h =>
      rw [h] at hturn
      exact hturn.trans (ih _)

/-- Every step is a sequence of atoms. -/
theorem step_atoms (hP : ∀ s l, P s l) (s : Udp n) (m : Move) : Atoms P s (s.step m) := by
  cases m with
  | call c => exact s.call_atoms c
  | progressNext io callbacks =>
    show Atoms P s (s.progressNext io callbacks).2
    unfold progressNext
    split
    · exact .refl
    · split
      · exact .refl
      · have hstarted : Same s { s with progressing := true } := ⟨rfl, rfl, rfl, rfl, rfl, rfl⟩
        exact .head (.same hstarted) ((turns_atoms hP io callbacks 6 _).tail
          (.same ⟨rfl, rfl, rfl, rfl, rfl, rfl⟩))

theorem run_atoms (hP : ∀ s l, P s l) (s : Udp n) (moves : List Move) : Atoms P s (s.run moves) :=
  foldl_atoms (step_atoms hP) moves s

/-! ## Refinement -/

def Slot.cell (slot : Slot) : Cell :=
  { generation := slot.generation
    phase := if slot.submission.isSome then .waiting slot.sequence
      else if slot.retired then .retired else .free }

/-- The transport as its binding sees it. -/
def binding (s : Udp n) : Binding n :=
  { cells := fun i => (s.slots i).cell
    submissions := fun i => (s.slots i).submission
    next := s.nextSequence
    tickets := s.host.tickets
    log := s.log }

/-- A retired slot is empty. -/
def Sound (s : Udp n) : Prop := ∀ i, (s.slots i).submission.isSome → (s.slots i).retired = false

/-- A slot as `release` leaves it. -/
def Slot.vacated (slot : Slot) : Slot :=
  let slot := { slot with submission := none, credits := none }
  if slot.generation = sizeMax then { slot with retired := true }
  else { slot with generation := slot.generation + 1 }

theorem Slot.vacated_cell {slot : Slot} (h : slot.retired = false) :
    slot.vacated.cell = slot.cell.vacated Binding.lastGeneration := by
  unfold Slot.vacated Slot.cell Cell.vacated
  simp only [Binding.lastGeneration]
  split <;> simp [h]

theorem Slot.vacated_submission (slot : Slot) : slot.vacated.submission = none := by
  unfold Slot.vacated
  simp only
  split <;> rfl

/-- What the completion of a submission changes. -/
theorem complete_eq {i : Fin n} {submission : TxSubmission} (result : CompletionResult)
    (hsub : (s.slots i).submission = some submission) :
    (s.complete i submission result).2.slots = Function.update s.slots i (s.slots i).vacated ∧
      (s.complete i submission result).2.config = s.config ∧
      (s.complete i submission result).2.nextSequence = s.nextSequence ∧
      (s.complete i submission result).2.host.tickets =
        (submission.completion.publish result s.host.tickets).2 ∧
      (s.complete i submission result).2.host.counters = s.host.counters ∧
      (s.complete i submission result).2.log =
        s.log ++ [.completed (s.slots i).sequence result] := by
  simp only [complete, release, note, setSlot, HostBindings.publish, HostBindings.resetCredits, hsub,
    Option.elim_some, dropSubmission_tickets, dropSubmission_counters, and_true]
  rfl

theorem binding_same (h : Same s s') : s'.binding = s.binding := by
  unfold binding
  rw [h.slots, h.nextSequence, h.tickets, h.log]

/-- A slot that is completed is completed in the binding. -/
theorem binding_complete {i : Fin n} {submission : TxSubmission} (result : CompletionResult)
    (hsub : (s.slots i).submission = some submission) (hretired : (s.slots i).retired = false) :
    (s.complete i submission result).2.binding = s.binding.complete i submission (s.slots i).sequence
      result ((s.slots i).cell.vacated Binding.lastGeneration) := by
  obtain ⟨hslots, -, hnext, htickets, -, hlog⟩ := complete_eq result hsub
  unfold binding Binding.complete
  rw [hslots, hnext, htickets, hlog]
  congr 1
  · funext j
    by_cases hj : j = i
    · subst hj
      simp only [Function.update_self]
      exact Slot.vacated_cell hretired
    · simp only [Function.update_of_ne hj]
  · funext j
    by_cases hj : j = i
    · subst hj
      simp only [Function.update_self]
      exact Slot.vacated_submission _
    · simp only [Function.update_of_ne hj]

/-- A slot that is admitted is accepted in the binding. -/
theorem binding_admitted {submission : TxSubmission} {destination : Address} {i : Fin n}
    {count : UInt8} {credits : AdmissionBundle} {admission : AdmissionPool}
    {counters : CounterRegistry} :
    (s.admitted submission destination i count credits admission counters).binding =
      s.binding.accept i submission count := by
  unfold binding Binding.accept admitted place setSlot note
  simp only
  congr 1
  · funext j
    by_cases hj : j = i
    · subst hj
      simp [Slot.cell]
    · simp only [Function.update_of_ne hj]
  · funext j
    by_cases hj : j = i
    · subst hj
      simp
    · simp only [Function.update_of_ne hj]

/-- The slot that is found is free and of its lane. -/
theorem findSlot_spec {l : Lane} {i : Fin n} (h : s.findSlot l = some i) :
    i ∈ s.laneSlots l ∧ (s.slots i).submission = none ∧ (s.slots i).retired = false := by
  have hmem := List.mem_of_find?_eq_some h
  have hfree := List.find?_some h
  simp only [Option.isNone_iff_eq_none, Bool.not_eq_true, Bool.decide_and, Bool.and_eq_true,
    decide_eq_true_eq] at hfree
  exact ⟨hmem, hfree⟩

/-- An atom is a step of the binding, or several. -/
theorem Atom.binding_step (h : Atom P s s') (hsound : s.Sound) :
    s'.Sound ∧ Binding.Steps s.binding s'.binding := by
  cases h with
  | accept hadmitted haccept =>
    next submission peer l i count credits admission counters =>
    obtain ⟨-, hnone, hretired⟩ := findSlot_spec hadmitted.slot
    refine ⟨fun j hj => ?_, ?_⟩
    · by_cases hji : j = i
      · subst hji
        simpa [admitted, place, setSlot, note] using hretired
      · have hslot : (s.admitted submission (peer.remote l) i count credits admission counters).slots j
            = s.slots j := Function.update_of_ne hji _ _
        rw [hslot] at hj ⊢
        exact hsound j hj
    · rw [binding_admitted]
      refine .single (.accept i submission count ?_ hadmitted.reserved)
      simp [Udp.binding, Slot.cell, hnone, hretired]
  | sent hP hi hsub =>
    next l i submission =>
    refine ⟨hsound, .single (.note (.sent (s.slots i).sequence) rfl ?_)⟩
    intro token q submission' count he
    cases he
  | complete result hsub =>
    next i submission =>
    have hretired := hsound i (by rw [hsub]; rfl)
    refine ⟨fun j hj => ?_, ?_⟩
    · rw [(complete_eq result hsub).1] at hj ⊢
      by_cases hji : j = i
      · subst hji
        rw [Function.update_self, Slot.vacated_submission] at hj
        cases hj
      · rw [Function.update_of_ne hji] at hj ⊢
        exact hsound j hj
    · rw [binding_complete result hsub hretired]
      refine .single (.complete i submission _ result ?_ hsub)
      simp [Udp.binding, Slot.cell, hsub]
  | received route packet rx =>
    refine ⟨hsound, .single (.note (.received route packet rx) rfl ?_)⟩
    intro token q submission' count he
    cases he
  | reserve ticket => exact ⟨hsound, .single (.reserve ticket)⟩
  | publish ticket result => exact ⟨hsound, .single (.publish ticket result)⟩
  | install batch =>
    refine ⟨hsound, ?_⟩
    have heq : (s.call (.install batch)).binding = s.binding := by
      unfold Udp.binding
      rw [← install_tickets s.host batch]
      rfl
    rw [heq]
  | same hsame =>
    rw [binding_same hsame]
    refine ⟨fun j hj => ?_, .refl⟩
    rw [hsame.slots] at hj ⊢
    exact hsound j hj

theorem Atoms.binding_steps (h : Atoms P s s') (hsound : s.Sound) :
    s'.Sound ∧ Binding.Steps s.binding s'.binding := by
  induction h with
  | refl => exact ⟨hsound, .refl⟩
  | tail _ hatom ih =>
    obtain ⟨hsound', hsteps⟩ := ih
    obtain ⟨hsound'', hsteps'⟩ := hatom.binding_step hsound'
    exact ⟨hsound'', hsteps.trans hsteps'⟩

/-- The states that a new transport can reach. -/
def Reachable (s : Udp n) : Prop :=
  ∃ config host moves, config.usable n ∧ s = (new n config host).run moves

theorem Reachable.steps (h : s.Reachable) : s.Sound ∧ Binding.Steps {} s.binding := by
  obtain ⟨config, host, moves, -, rfl⟩ := h
  have hsound : (new n config host).Sound := fun i hi => rfl
  exact (run_atoms (P := fun _ _ => True) (fun _ _ => trivial) (new n config host) moves).binding_steps
    hsound

theorem Reachable.inv (h : s.Reachable) : s.Sound ∧ s.binding.Inv :=
  ⟨h.steps.1, Binding.Inv.steps Binding.inv_empty h.steps.2⟩

/-- A ticket of a submission goes through the life that the arena gives it. -/
theorem Reachable.leads (h : s.Reachable) (ticket : ℕ) :
    Completion.Ticket.Leads ⟨1, .free⟩ (Binding.life s.host.tickets ticket) :=
  Binding.Steps.leads Binding.inv_empty h.steps.2 ticket

/-- What holds at first and is kept by atoms holds of every state that can be reached. -/
theorem Reachable.induction {Q : Udp n → Prop} (hnew : ∀ config host, Q (new n config host))
    (hatom : ∀ s s', s.Sound → s.binding.Inv → Q s → Atom (fun _ _ => True) s s' → Q s')
    (h : s.Reachable) : Q s := by
  obtain ⟨config, host, moves, -, rfl⟩ := h
  have hatoms := run_atoms (P := fun _ _ => True) (fun _ _ => trivial) (new n config host) moves
  generalize (new n config host).run moves = s at hatoms
  have hall : s.Sound ∧ s.binding.Inv ∧ Q s := by
    induction hatoms with
    | refl => exact ⟨fun _ _ => rfl, Binding.inv_empty, hnew config host⟩
    | tail _ hstep ih =>
      obtain ⟨hsound, hinv, hQ⟩ := ih
      obtain ⟨hsound', hsteps⟩ := hstep.binding_step hsound
      exact ⟨hsound', hinv.steps hsteps, hatom _ _ hsound hinv hQ hstep⟩
  exact hall.2.2

/-! ## Lanes -/

/-- The packet of a submission belongs to a lane. -/
def OnLane (submission : TxSubmission) (l : Lane) : Prop :=
  ∃ frame, inspect submission.storage = .ok frame ∧ submission.counter.type = frame.envelope.type ∧
    lane frame.envelope.type frame.envelope.cancel = l

theorem onLane_unique {submission : TxSubmission} {l l' : Lane} (h : OnLane submission l)
    (h' : OnLane submission l') : l = l' := by
  obtain ⟨frame, hframe, -, rfl⟩ := h
  obtain ⟨frame', hframe', -, rfl⟩ := h'
  rw [hframe] at hframe'
  cases hframe'
  rfl

/-- Every submission is in a slot of its lane. -/
def InLane (s : Udp n) : Prop :=
  ∀ token q submission count, .accepted token q submission count ∈ s.log →
    ∃ l, OnLane submission l ∧ ∃ j ∈ s.laneSlots l, token.slot = j.val

theorem Admitted.onLane {submission : TxSubmission} {peer : PeerBinding} {l : Lane} {i : Fin n}
    {count : UInt8} (h : s.Admitted submission peer l i count) : OnLane submission l := by
  obtain ⟨frame, hframe, rfl, -, -, hcounter⟩ := h.frame
  exact ⟨frame, hframe, by rw [hcounter], rfl⟩

/-- What an atom adds to the history. -/
theorem Atom.log (h : Atom P s s') : s'.config = s.config ∧ (s'.log = s.log ∨
    ∃ e, s'.log = s.log ++ [e] ∧ match e with
      | .accepted token q submission count => ∃ peer l i, s.Admitted submission peer l i count ∧
          token.slot = i.val ∧ q = s.nextSequence ∧
          ∃ counters, s.host.counters.accept submission.counter count = .ok counters ∧
            s'.host.counters = counters
      | .sent q => ∃ l i submission, P s l ∧ s.nextSlot l = some i ∧
          (s.slots i).submission = some submission ∧ q = (s.slots i).sequence
      | .delivered .. => False
      | _ => True) := by
  cases h with
  | accept hadmitted haccept =>
    exact ⟨rfl, .inr ⟨_, rfl, _, _, _, hadmitted, rfl, rfl, _, haccept, rfl⟩⟩
  | sent hP hi hsub => exact ⟨rfl, .inr ⟨_, rfl, _, _, _, hP, hi, hsub, rfl⟩⟩
  | complete result hsub =>
    obtain ⟨-, hconfig, -, -, -, hlog⟩ := complete_eq result hsub
    exact ⟨hconfig, .inr ⟨_, hlog, trivial⟩⟩
  | received => exact ⟨rfl, .inr ⟨_, rfl, trivial⟩⟩
  | reserve => exact ⟨rfl, .inl rfl⟩
  | publish => exact ⟨rfl, .inl rfl⟩
  | install => exact ⟨rfl, .inl rfl⟩
  | same hsame => exact ⟨hsame.config, .inl hsame.log⟩

/-- A slot is of one lane. -/
theorem mem_laneSlots_unique {l l' : Lane} {i : Fin n} (h : i ∈ s.laneSlots l)
    (h' : i ∈ s.laneSlots l') : l = l' := by
  unfold laneSlots Lane.slots at h h'
  simp only [List.mem_filter, List.mem_finRange, true_and, Bool.decide_and, Bool.and_eq_true,
    decide_eq_true_eq] at h h'
  cases l <;> cases l' <;> simp only [Lane.range] at h h' <;> first | rfl | omega

/-- Every atomic step keeps the slots in their lanes. -/
theorem InLane.atom (hlane : s.InLane) (hatom : Atom P s s') : s'.InLane := by
  intro token q submission count hmem
  obtain ⟨hconfig, hlog⟩ := hatom.log
  have hslots : ∀ l, s'.laneSlots l = s.laneSlots l := by
    intro l
    unfold laneSlots
    rw [hconfig]
  simp only [hslots]
  rcases hlog with hlog | ⟨e, hlog, he⟩
  · rw [hlog] at hmem
    exact hlane _ _ _ _ hmem
  · rw [hlog] at hmem
    rcases List.mem_append.mp hmem with hmem | hmem
    · exact hlane _ _ _ _ hmem
    · obtain rfl := List.mem_singleton.mp hmem
      obtain ⟨peer, l, i, hadmitted, hi, -⟩ := he
      exact ⟨l, hadmitted.onLane, i, (findSlot_spec hadmitted.slot).1, hi⟩

theorem Reachable.inLane (h : s.Reachable) : s.InLane :=
  h.induction (Q := InLane) (fun _ _ => by simp [InLane, new]) fun _ _ _ _ => InLane.atom

/-- A packet that is handed to a socket was accepted and is not completed; what its lane accepted
before it is. -/
def InOrder (log : List TxEvent) (e : TxEvent) : Prop :=
  ∀ q, e = .sent q → ∃ token submission count l, .accepted token q submission count ∈ log ∧
    OnLane submission l ∧ (∀ result, .completed q result ∉ log) ∧
    ∀ token' q' submission' count', .accepted token' q' submission' count' ∈ log →
      OnLane submission' l → q' < q → ∃ result, .completed q' result ∈ log

/-- The slot that a lane serves next. -/
theorem nextSlot_spec {l : Lane} {i : Fin n} (h : s.nextSlot l = some i) :
    i ∈ s.laneSlots l ∧ (s.slots i).submission.isSome ∧
      ∀ j ∈ s.laneSlots l, (s.slots j).submission.isSome → (s.slots i).sequence ≤ (s.slots j).sequence :=
  oldest_some h

theorem binding_waiting {i : Fin n} {submission : TxSubmission}
    (h : (s.slots i).submission = some submission) :
    (s.binding.cells i).phase = .waiting (s.slots i).sequence := by
  simp [binding, Slot.cell, h]

theorem waiting_binding {i : Fin n} {q : ℕ} (h : (s.binding.cells i).phase = .waiting q) :
    (s.slots i).submission.isSome ∧ (s.slots i).sequence = q := by
  simp only [binding, Slot.cell] at h
  split at h
  · next hsome =>
    simp only [Phase.waiting.injEq] at h
    exact ⟨hsome, h⟩
  · split at h <;> cases h

/-- The submission in a slot was accepted, and it is not completed. -/
theorem waiting_accepted (hinv : s.binding.Inv) {i : Fin n} {submission : TxSubmission}
    (h : (s.slots i).submission = some submission) :
    ∃ count, .accepted ⟨i, (s.slots i).generation⟩ (s.slots i).sequence submission count ∈ s.log ∧
      ∀ result, .completed (s.slots i).sequence result ∉ s.log := by
  have hwaiting := binding_waiting h
  obtain ⟨submission', count, hsub, hmem⟩ := hinv.waiting i _ hwaiting
  obtain rfl : submission = submission' := Option.some.inj (h.symm.trans hsub)
  refine ⟨count, hmem, fun result hdone => ?_⟩
  have hzero := hinv.table.count_waiting hwaiting
  exact List.count_eq_zero.mp hzero (List.mem_filterMap.mpr ⟨_, hdone, rfl⟩)

/-- In every run the lanes are served in order. -/
theorem Reachable.inOrder (h : s.Reachable) : Traced InOrder s.log := by
  suffices hall : s.InLane ∧ Traced InOrder s.log from hall.2
  refine h.induction (Q := fun s => s.InLane ∧ Traced InOrder s.log)
    (fun _ _ => ⟨by simp [InLane, new], traced_nil _⟩) ?_
  intro s s' _ hinv ⟨hlane, horder⟩ hatom
  refine ⟨hlane.atom hatom, ?_⟩
  rcases hatom.log.2 with hlog | ⟨e, hlog, he⟩
  · rw [hlog]
    exact horder
  · rw [hlog]
    refine traced_concat.mpr ⟨horder, fun q hq => ?_⟩
    subst hq
    obtain ⟨l, i, submission, -, hnext, hsub, rfl⟩ := he
    obtain ⟨hi, -, hleast⟩ := nextSlot_spec hnext
    obtain ⟨count, hmem, hdone⟩ := waiting_accepted hinv hsub
    obtain ⟨l', honlane, j, hj, hslot⟩ := hlane _ _ _ _ hmem
    obtain rfl : i = j := Fin.ext hslot
    obtain rfl := mem_laneSlots_unique hi hj
    refine ⟨_, submission, count, l, hmem, honlane, hdone, ?_⟩
    intro token' q' submission' count' hmem' honlane' hlt
    refine hinv.completed_of_least (q := (s.slots i).sequence) (l := s.laneSlots l) ?_ hmem' ?_ hlt
    · intro j hj q'' hq''
      obtain ⟨hsome, rfl⟩ := waiting_binding hq''
      exact hleast j hj hsome
    · obtain ⟨l'', honlane'', hslot'⟩ := hlane _ _ _ _ hmem'
      obtain rfl := onLane_unique honlane' honlane''
      exact hslot'

end Vita.Transport.Udp
