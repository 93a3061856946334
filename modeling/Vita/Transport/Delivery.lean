import Vita.Transport.LoopbackTheorems
import Vita.Transport.UdpTheorems

/-!
# What becomes of a submission

Both transports refine `Binding`, so what is known of a binding is known of them: every accepted
submission is completed once, and its slot is not taken before that. What differs is how they serve.
The loopback serves the oldest submission of all, the UDP transport the oldest of each lane.

Main results:
- `Loopback.progressNext_spec`: what a call of `progress_next` serves;
- `Loopback.trySend_full`, `Udp.trySend_full`: a lane lacks a slot only when its own packets fill it;
- `submission_fates`: the two transports side by side.
-/

namespace Vita.Transport

open Words Checked Codec Slots Trace
open Completion (CompletionResult CompletionStatus)

/-- A refusal that is neither for lack of a slot nor for the count of the packet. -/
def Refusal.Plain (refusal : Refusal) : Prop := refusal.noSlot = false ∧ refusal.stale = false

theorem Refusal.plain_of {α : Type} {r : Result α} {refusal : Refusal}
    (h : Refusal.of r = .error refusal) : refusal.Plain := by
  cases r with
  | ok a => cases h
  | error e =>
    cases h
    exact ⟨rfl, rfl⟩

theorem Refusal.plain_mk {e : Error} {refusal : Refusal} (h : ({ error := e } : Refusal) = refusal) :
    refusal.Plain := by
  subst h
  exact ⟨rfl, rfl⟩

/-! ## The loopback transport -/

namespace Loopback

variable {n : ℕ} {s : Loopback n}

/-- The token is outstanding, but its submission has been completed. -/
def quarantined (s : Loopback n) (token : TxToken) : Prop :=
  ∃ h : token.slot < n, (s.slots ⟨token.slot, h⟩).generation = token.generation ∧
    (s.slots ⟨token.slot, h⟩).quarantined

theorem binding_outstanding (hsound : s.Sound) (token : TxToken) :
    s.binding.outstanding token = s.outstanding token := by
  unfold Binding.outstanding outstanding
  by_cases hlt : token.slot < n
  · simp only [hlt, exists_true_left, dif_pos, binding, Slot.cell]
    obtain ⟨-, hheld⟩ := hsound ⟨token.slot, hlt⟩
    cases hsub : (s.slots ⟨token.slot, hlt⟩).submission <;>
      cases hquarantined : (s.slots ⟨token.slot, hlt⟩).quarantined <;>
      cases hretired : (s.slots ⟨token.slot, hlt⟩).retired <;> simp
  · simp [hlt]

theorem binding_quarantined (hsound : s.Sound) {token : TxToken} (h : s.quarantined token) :
    s.binding.quarantined token := by
  obtain ⟨hlt, hgeneration, hquarantined⟩ := h
  refine ⟨hlt, (s.slots ⟨token.slot, hlt⟩).sequence, ?_⟩
  have hnone : (s.slots ⟨token.slot, hlt⟩).submission.isSome = false := by
    by_contra hsome
    have := ((hsound ⟨token.slot, hlt⟩).waiting (Bool.eq_true_of_not_eq_false hsome)).1
    rw [this] at hquarantined
    cases hquarantined
  simp [binding, Slot.cell, hgeneration, hnone, hquarantined]

/-- The slot of a token holds the submission, or the storage of the submission that was completed. -/
def Occupies (s : Loopback n) (token : TxToken) (q : ℕ) (submission : TxSubmission) : Prop :=
  ∃ h : token.slot < n, (s.slots ⟨token.slot, h⟩).sequence = q ∧
    ((s.slots ⟨token.slot, h⟩).submission = some submission ∧ Binding.completions s.log q = 0 ∨
      (s.slots ⟨token.slot, h⟩).quarantined ∧ Binding.completions s.log q = 1)

theorem waiting_binding {i : Fin n} {q : ℕ} (h : (s.binding.cells i).phase = .waiting q) :
    (s.slots i).submission.isSome ∧ (s.slots i).sequence = q := by
  simp only [binding, Slot.cell] at h
  split at h
  · next hsome =>
    simp only [Phase.waiting.injEq] at h
    exact ⟨hsome, h⟩
  · split at h
    · cases h
    · split at h <;> cases h

theorem held_binding {i : Fin n} {q : ℕ} (h : (s.binding.cells i).phase = .held q) :
    (s.slots i).quarantined ∧ (s.slots i).sequence = q := by
  simp only [binding, Slot.cell] at h
  split at h
  · cases h
  · split at h
    · next hquarantined =>
      simp only [Phase.held.injEq] at h
      exact ⟨hquarantined, h⟩
    · split at h <;> cases h

/-- A token that is outstanding is of its own submission. -/
theorem Reachable.occupies (h : s.Reachable) {token : TxToken} {q : ℕ} {submission : TxSubmission}
    {count : UInt8} (hmem : .accepted token q submission count ∈ s.log)
    (hout : s.outstanding token) : s.Occupies token q submission := by
  obtain ⟨hsound, hinv⟩ := h.inv
  rw [← binding_outstanding hsound] at hout
  obtain ⟨hlt, ⟨hcell, hsub, hzero⟩ | ⟨hcell, hone⟩⟩ := hinv.occupant hmem hout
  · have hphase := congrArg Cell.phase hcell
    exact ⟨hlt, (waiting_binding hphase).2, .inl ⟨hsub, hzero⟩⟩
  · have hphase := congrArg Cell.phase hcell
    obtain ⟨hquarantined, hsequence⟩ := held_binding hphase
    exact ⟨hlt, hsequence, .inr ⟨hquarantined, hone⟩⟩

/-- A token that is not outstanding is refused. -/
theorem stale_refused (token : TxToken) (callbacks : Callbacks) (h : ¬s.outstanding token) :
    (∃ e, s.progress token callbacks = (.error e, s)) ∧ ∃ e, s.proveQuiescent token = (.error e, s) := by
  constructor
  · rcases s.progress_cases token callbacks with hrefused | ⟨i, submission, rfl, hsub, -⟩
    · exact hrefused
    · refine absurd ?_ h
      simp [outstanding, hsub]
  · unfold proveQuiescent
    split
    · next hlt =>
      simp only
      split
      · exact ⟨_, rfl⟩
      · next hheld =>
        simp only [not_or, not_not] at hheld
        refine absurd ?_ h
        simp [outstanding, hlt, hheld.1, hheld.2]
    · exact ⟨_, rfl⟩

/-- A call of `progress` that serves a submission: what it delivers and how it completes. -/
def Serves (s s' : Loopback n) (q : ℕ) (submission : TxSubmission) : Prop :=
  ∃ bytes events result, copySegments submission.storage.segments = .ok bytes ∧
    Outcome s.host.routes submission bytes q events result ∧
    served s'.log = served s.log ++ (events ++ [.completed q result])

/-- The submission in a slot was accepted, and it is not completed. -/
theorem waiting_accepted (hinv : s.binding.Inv) {i : Fin n} {submission : TxSubmission}
    (h : (s.slots i).submission = some submission) :
    ∃ count, .accepted ⟨i, (s.slots i).generation⟩ (s.slots i).sequence submission count ∈ s.log ∧
      ∀ result, .completed (s.slots i).sequence result ∉ s.log := by
  have hwaiting := binding_waiting h
  obtain ⟨submission', count, hsub, hmem⟩ := hinv.waiting i _ hwaiting
  obtain rfl : submission = submission' := Option.some.inj (h.symm.trans hsub)
  refine ⟨count, hmem, fun result hdone => ?_⟩
  have hzero := hinv.table.count_waiting hwaiting
  exact List.count_eq_zero.mp hzero (List.mem_filterMap.mpr ⟨_, hdone, rfl⟩)

/-- The call serves a slot that holds a submission. -/
theorem Settled.progress_eq (h : s.Settled) {i : Fin n} {submission : TxSubmission}
    (hsub : (s.slots i).submission = some submission) (callbacks : Callbacks) :
    s.progress ⟨i, (s.slots i).generation⟩ callbacks =
      ((process { s with progressing := true } i submission callbacks).1,
        { (process { s with progressing := true } i submission callbacks).2 with
          progressing := false }) := by
  have hready := h.ready i
  obtain ⟨hquarantined, -⟩ := hready.waiting _ hsub
  unfold Loopback.progress
  rw [if_neg (by simp [h.progressing]), dif_pos i.isLt]
  simp only [Fin.eta, hsub]
  rw [if_neg (by simp [hready.processing, hquarantined])]

theorem Settled.progress_serves (h : s.Settled) {i : Fin n} {submission : TxSubmission}
    (hsub : (s.slots i).submission = some submission) (callbacks : Callbacks) :
    s.Serves (s.progress ⟨i, (s.slots i).generation⟩ callbacks).2 (s.slots i).sequence submission := by
  obtain ⟨bytes, events, result, hcopied, houtcome, hserved, -, -⟩ :=
    process_spec (s := { s with progressing := true }) callbacks h.ready hsub
  rw [h.progress_eq hsub]
  exact ⟨bytes, events, result, hcopied, houtcome, hserved⟩

/-- A call of `progress` is refused, or serves the submission of its token. -/
theorem Reachable.progress_spec (h : s.Reachable) (token : TxToken) (callbacks : Callbacks) :
    (∃ e, s.progress token callbacks = (.error e, s)) ∨
      ∃ q submission count, .accepted token q submission count ∈ s.log ∧
        (∀ result, .completed q result ∉ s.log) ∧
        s.Serves (s.progress token callbacks).2 q submission := by
  obtain ⟨-, hinv⟩ := h.inv
  rcases s.progress_cases token callbacks with hrefused | ⟨i, submission, rfl, hsub, -⟩
  · exact .inl hrefused
  · obtain ⟨count, hmem, hdone⟩ := waiting_accepted hinv hsub
    exact .inr ⟨_, submission, count, hmem, hdone, h.settled.progress_serves hsub callbacks⟩

/-- The numbers do not run over. -/
theorem Atom.nextSequence_le {s' : Loopback n} (hatom : Atom s s') (h : s.nextSequence ≤ sizeMax) :
    s'.nextSequence ≤ sizeMax := by
  cases hatom with
  | act hact =>
    cases hact with
    | accept hadmitted hcharged =>
      have hne := hadmitted.sequence
      show s.nextSequence + 1 ≤ sizeMax
      omega
    | release => exact h
    | reserve => exact h
    | publish => exact h
    | install => exact h
    | same hsame =>
      rw [hsame.nextSequence]
      exact h
  | touch => exact h
  | delivered => exact h
  | complete result hsub hquarantined =>
    rw [(s.finish_eq _ _ result).2.2.1]
    exact h
  | hold result quiescence hsub =>
    rw [(finish_eq _ _ _ result).2.2.1]
    exact h

theorem Reachable.nextSequence_le (h : s.Reachable) : s.nextSequence ≤ sizeMax :=
  h.induction (Q := fun s => s.nextSequence ≤ sizeMax) (fun _ _ => by simp [new, sizeMax])
    fun _ _ hle hatom => hatom.nextSequence_le hle

/-- Nothing waits, or the oldest submission is served. -/
theorem Reachable.progressNext_spec (h : s.Reachable) (callbacks : Callbacks) :
    (s.progressNext callbacks = (.ok false, s) ∧
      ∀ token q submission count, .accepted token q submission count ∈ s.log →
        ∃ result, .completed q result ∈ s.log) ∨
    ∃ token q submission count, .accepted token q submission count ∈ s.log ∧
      (∀ result, .completed q result ∉ s.log) ∧
      (∀ token' q' submission' count', .accepted token' q' submission' count' ∈ s.log → q' < q →
        ∃ result, .completed q' result ∈ s.log) ∧
      s.Serves (s.progressNext callbacks).2 q submission := by
  obtain ⟨-, hinv⟩ := h.inv
  have hsettled := h.settled
  -- no slot is being processed between calls
  have hpending : ∀ i, (s.slots i).submission.isSome →
      (decide ((s.slots i).submission.isSome ∧ ¬(s.slots i).processing)) = true := by
    intro i hsome
    simp [hsome, (hsettled.ready i).processing]
  have hslot : ∀ {token q submission count}, .accepted token q submission count ∈ s.log →
      ∃ j ∈ List.finRange n, token.slot = j.val :=
    fun hmem => ⟨⟨_, (hinv.accepted _ _ _ _ hmem).1⟩, List.mem_finRange _, rfl⟩
  unfold progressNext
  rw [if_neg (by simp [hsettled.progressing])]
  cases hnext : s.nextSlot with
  | none =>
    refine .inl ⟨rfl, fun token q submission count hmem => ?_⟩
    refine hinv.completed_of_least (q := s.nextSequence) (l := List.finRange n) ?_ hmem
      (hslot hmem) (hinv.accepted _ _ _ _ hmem).2.1
    intro j _ q' hq'
    obtain ⟨hsome, rfl⟩ := waiting_binding hq'
    exact h.nextSequence_le.trans (oldest_none hnext (List.mem_finRange j) (hpending j hsome))
  | some i =>
    obtain ⟨-, hi, hleast⟩ := oldest_some hnext
    simp only [Bool.not_eq_true, Bool.decide_and, Bool.and_eq_true, decide_eq_true_eq] at hi
    obtain ⟨submission, hsub⟩ := Option.isSome_iff_exists.mp hi.1
    obtain ⟨count, hmem, hdone⟩ := waiting_accepted hinv hsub
    refine .inr ⟨_, _, submission, count, hmem, hdone, fun token' q' submission' count' hmem' hlt => ?_, ?_⟩
    · refine hinv.completed_of_least (q := (s.slots i).sequence) (l := List.finRange n) ?_ hmem'
        (hslot hmem') hlt
      intro j _ q'' hq''
      obtain ⟨hsome, rfl⟩ := waiting_binding hq''
      exact hleast j (List.mem_finRange j) (hpending j hsome)
    · exact hsettled.progress_serves hsub callbacks

/-- The packets of a lane fill it. -/
def Full (s : Loopback n) (l : Lane) : Prop :=
  ∀ i ∈ l.slots s.capabilities n, (s.slots i).retired ∨ ∃ token q submission count,
    .accepted token q submission count ∈ s.log ∧ token = ⟨i, (s.slots i).generation⟩ ∧
      OnLane submission l ∧ s.outstanding token

/-- A slot is of one lane. -/
theorem mem_slots_unique {c : Capabilities} {l l' : Lane} {i : Fin n} (h : i ∈ l.slots c n)
    (h' : i ∈ l'.slots c n) : l = l' := by
  unfold Lane.slots at h h'
  simp only [List.mem_filter, List.mem_finRange, true_and, Bool.decide_and, Bool.and_eq_true,
    decide_eq_true_eq] at h h'
  cases l <;> cases l' <;> simp only [Lane.range] at h h' <;> first | rfl | omega

/-- The refusals before the buffer: a lane without a slot, or another reason. -/
theorem preflight_refused {submission : TxSubmission} {refusal : Refusal}
    (h : s.preflight submission = .error refusal) : refusal.stale = false ∧
      (refusal.noSlot → ∃ l, OnLane submission l ∧ s.findSlot l = none) := by
  have hplain : refusal.Plain → refusal.stale = false ∧
      (refusal.noSlot → ∃ l, OnLane submission l ∧ s.findSlot l = none) := by
    rintro ⟨hno, hstale⟩
    exact ⟨hstale, fun h => by rw [hno] at h; cases h⟩
  unfold preflight at h
  simp only [bind_eq_error, rejectIf_eq_error, rejectIf_eq_ok, exists_const] at h
  rcases h with h | ⟨-, h | ⟨_, -, h | ⟨_, -, h | ⟨-, h | ⟨-, h | ⟨-, h | ⟨-, h | ⟨header, hheader, h⟩⟩⟩⟩⟩⟩⟩⟩
  · exact hplain (Refusal.plain_mk h.2)
  · exact hplain (Refusal.plain_of h)
  · exact hplain (Refusal.plain_of h)
  · exact hplain (Refusal.plain_mk h.2)
  · exact hplain (Refusal.plain_mk h.2)
  · exact hplain (Refusal.plain_mk h.2)
  · exact hplain (Refusal.plain_mk h.2)
  · exact hplain (Refusal.plain_of h)
  · rcases h with h | ⟨-, h⟩
    · exact hplain (Refusal.plain_mk h.2)
    · split at h
      · next hnone =>
        cases h
        exact ⟨rfl, fun _ => ⟨_, ⟨header, Refusal.of_eq_ok.mp hheader, rfl⟩, hnone⟩⟩
      · simp only [bind_eq_error, rejectIf_eq_error, rejectIf_eq_ok, exists_const, pure_eq_ok,
          reduceCtorEq, and_false, or_false] at h
        exact hplain (Refusal.plain_mk h.2)

/-- The count of a packet is not the next one. -/
def Miscounted (s : Loopback n) (submission : TxSubmission) : Prop :=
  ∃ bytes view expected, copySegments submission.storage.segments = .ok bytes ∧
    decodeEnvelope bytes = .ok view ∧ s.host.counters.next submission.counter = .ok expected ∧
    expected ≠ view.envelope.packetCount

/-- The refusals of the packet itself. -/
theorem checkPacket_refused {submission : TxSubmission} {i : Fin n} {refusal : Refusal}
    (h : s.checkPacket submission i = .error refusal) :
    (refusal.stale → s.Miscounted submission) ∧
      (refusal.noSlot → ∃ l, OnLane submission l ∧ s.findSlot l = none) := by
  have hplain : refusal.Plain → (refusal.stale → s.Miscounted submission) ∧
      (refusal.noSlot → ∃ l, OnLane submission l ∧ s.findSlot l = none) := by
    rintro ⟨hno, hstale⟩
    exact ⟨(fun h => by rw [hstale] at h; cases h), (fun h => by rw [hno] at h; cases h)⟩
  unfold checkPacket at h
  simp only [bind_eq_error] at h
  rcases h with h | ⟨bytes, hbytes, h⟩
  · exact hplain (Refusal.plain_of h)
  · have hcopied := Refusal.of_eq_ok.mp hbytes
    split at h
    · exact hplain (Refusal.plain_mk (Except.error.inj h))
    · next packet hparsed =>
      simp only [bind_eq_error, rejectIf_eq_error, rejectIf_eq_ok, exists_const] at h
      rcases h with h | ⟨hkey, h | ⟨expected, hexpected, h | ⟨-, h⟩⟩⟩
      · exact hplain (Refusal.plain_mk h.2)
      · exact hplain (Refusal.plain_of h)
      · refine ⟨fun _ => ⟨bytes, packet.envelope, expected, hcopied, (parse_ok hparsed).1,
          Refusal.of_eq_ok.mp hexpected, h.1⟩, fun hno => ?_⟩
        rw [← h.2] at hno
        cases hno
      · split at h
        · cases h
        · next hdata =>
          split at h
          · next hnone =>
            cases h
            refine ⟨by simp, fun _ => ⟨_, onLane_packet hcopied hparsed (by tauto), ?_⟩⟩
            rw [lane, if_neg hdata]
            exact hnone
          · cases h

/-- A submission is refused for lack of a slot only when its own lane is full. -/
theorem Reachable.trySend_full (h : s.Reachable) {submission : TxSubmission} {refusal : Refusal}
    (hrefused : (s.trySend submission).1 = .error ⟨refusal, submission⟩) (hno : refusal.noSlot) :
    ∃ l, OnLane submission l ∧ s.Full l := by
  have hlane : ∃ l, OnLane submission l ∧ s.findSlot l = none := by
    unfold trySend at hrefused
    split at hrefused
    · next r hr =>
      cases hrefused
      exact (preflight_refused hr).2 hno
    · split at hrefused
      · cases hrefused
        cases hno
      · simp only at hrefused
        split at hrefused
        · next r hr =>
          cases hrefused
          -- the buffer that was taken does not matter for the slots
          exact (checkPacket_refused hr).2 hno
        · split at hrefused
          · cases hrefused
            cases hno
          · split at hrefused
            · cases hrefused
              cases hno
            · cases hrefused
  obtain ⟨l, hl, hnone⟩ := hlane
  refine ⟨l, hl, fun i hi => ?_⟩
  obtain ⟨hsound, hinv⟩ := h.inv
  have hbusy := List.find?_eq_none.mp hnone i hi
  simp only [Slot.available, Option.isNone_iff_eq_none, Bool.not_eq_true, Bool.decide_and,
    Bool.and_eq_true, decide_eq_true_eq, not_and, Bool.not_eq_false] at hbusy
  by_cases hretired : (s.slots i).retired
  · exact .inl hretired
  · right
    -- the cell is occupied, so what it took last is still outstanding
    have hphase : ∃ q, (s.binding.cells i).phase = .waiting q ∨ (s.binding.cells i).phase = .held q := by
      refine ⟨(s.slots i).sequence, ?_⟩
      cases hsub : (s.slots i).submission with
      | some submission' => exact .inl (binding_waiting hsub)
      | none =>
        right
        have hquarantined : (s.slots i).quarantined = true := by
          by_contra hfree
          exact hretired (hbusy hsub (by simpa using hfree))
        simp [binding, Slot.cell, hsub, hquarantined]
    obtain ⟨q, hq⟩ := hphase
    obtain ⟨submission', count, hmem⟩ := hinv.occupied hq
    obtain ⟨l', hl', j, hj, hslot⟩ := h.inLane _ _ _ _ hmem
    obtain rfl : i = j := Fin.ext hslot
    obtain rfl := mem_slots_unique hi hj
    refine ⟨_, q, submission', count, hmem, rfl, hl', ?_⟩
    rw [← binding_outstanding hsound]
    simp only [Binding.outstanding, Fin.eta, decide_eq_true_eq]
    exact ⟨i.isLt, trivial, by rcases hq with hq | hq <;> simp [hq]⟩

end Loopback

/-! ## The UDP transport -/

namespace Udp

variable {n : ℕ} {s : Udp n}

theorem binding_outstanding (token : TxToken) : s.binding.outstanding token = s.outstanding token := by
  unfold Binding.outstanding outstanding
  by_cases hlt : token.slot < n
  · simp only [hlt, exists_true_left, dif_pos, binding, Slot.cell]
    cases hsub : (s.slots ⟨token.slot, hlt⟩).submission <;>
      cases hretired : (s.slots ⟨token.slot, hlt⟩).retired <;> simp
  · simp [hlt]

/-- The slot of a token holds the submission. -/
def Occupies (s : Udp n) (token : TxToken) (q : ℕ) (submission : TxSubmission) : Prop :=
  ∃ h : token.slot < n, (s.slots ⟨token.slot, h⟩).sequence = q ∧
    (s.slots ⟨token.slot, h⟩).submission = some submission ∧ Binding.completions s.log q = 0

/-- No slot is held. -/
theorem not_held (i : Fin n) (q : ℕ) : (s.binding.cells i).phase ≠ .held q := by
  simp only [binding, Slot.cell]
  split
  · simp
  · split <;> simp

/-- A token that is outstanding is of its own submission. -/
theorem Reachable.occupies (h : s.Reachable) {token : TxToken} {q : ℕ} {submission : TxSubmission}
    {count : UInt8} (hmem : .accepted token q submission count ∈ s.log)
    (hout : s.outstanding token) : s.Occupies token q submission := by
  obtain ⟨-, hinv⟩ := h.inv
  rw [← binding_outstanding] at hout
  obtain ⟨hlt, ⟨hcell, hsub, hzero⟩ | ⟨hcell, -⟩⟩ := hinv.occupant hmem hout
  · have hphase := congrArg Cell.phase hcell
    exact ⟨hlt, (waiting_binding hphase).2, hsub, hzero⟩
  · exact absurd (congrArg Cell.phase hcell) (not_held _ q)

/-- The packets of a lane fill it. -/
def Full (s : Udp n) (l : Lane) : Prop :=
  ∀ i ∈ s.laneSlots l, (s.slots i).retired ∨ ∃ token q submission count,
    .accepted token q submission count ∈ s.log ∧ token = ⟨i, (s.slots i).generation⟩ ∧
      OnLane submission l ∧ s.outstanding token

/-- The refusals of the checks: a lane without a slot, or another reason. -/
theorem preflight_refused {submission : TxSubmission} {refusal : Refusal}
    (h : s.preflight submission = .error refusal) : refusal.stale = false ∧
      (refusal.noSlot → ∃ l, OnLane submission l ∧ s.findSlot l = none) := by
  have hplain : refusal.Plain → refusal.stale = false ∧
      (refusal.noSlot → ∃ l, OnLane submission l ∧ s.findSlot l = none) := by
    rintro ⟨hno, hstale⟩
    exact ⟨hstale, fun h => by rw [hno] at h; cases h⟩
  unfold preflight at h
  simp only [bind_eq_error, rejectIf_eq_error, rejectIf_eq_ok, exists_const] at h
  rcases h with h | ⟨-, h | ⟨-, h | ⟨-, h⟩⟩⟩
  · exact hplain (Refusal.plain_mk h.2)
  · exact hplain (Refusal.plain_mk h.2)
  · exact hplain (Refusal.plain_mk h.2)
  · split at h
    · exact hplain (Refusal.plain_mk (Except.error.inj h))
    · split at h
      · exact hplain (Refusal.plain_mk (Except.error.inj h))
      · next frame hframe =>
        simp only [bind_eq_error, rejectIf_eq_error, rejectIf_eq_ok, exists_const] at h
        rcases h with h | ⟨-, h | ⟨hcounter, h | ⟨_, -, h⟩⟩⟩
        · exact hplain (Refusal.plain_mk h.2)
        · exact hplain (Refusal.plain_mk h.2)
        · exact hplain (Refusal.plain_of h)
        · split at h
          · next hnone =>
            cases h
            exact ⟨rfl, fun _ => ⟨_, ⟨frame, hframe, by tauto, rfl⟩, hnone⟩⟩
          · simp only [bind_eq_error, rejectIf_eq_error, rejectIf_eq_ok, exists_const, pure_eq_ok,
              reduceCtorEq, and_false, or_false] at h
            rcases h with h | ⟨-, h⟩
            · exact hplain (Refusal.plain_mk h.2)
            · exact hplain (Refusal.plain_mk h.2)

/-- A submission is refused for lack of a slot only when its own lane is full. -/
theorem Reachable.trySend_full (h : s.Reachable) {submission : TxSubmission} {refusal : Refusal}
    (hrefused : (s.trySend submission).1 = .error ⟨refusal, submission⟩) (hno : refusal.noSlot) :
    ∃ l, OnLane submission l ∧ s.Full l := by
  have hlane : ∃ l, OnLane submission l ∧ s.findSlot l = none := by
    unfold trySend at hrefused
    split at hrefused
    · next r hr =>
      cases hrefused
      exact (preflight_refused hr).2 hno
    · split at hrefused
      · cases hrefused
        cases hno
      · simp only at hrefused
        split at hrefused
        · cases hrefused
          cases hno
        · cases hrefused
  obtain ⟨l, hl, hnone⟩ := hlane
  refine ⟨l, hl, fun i hi => ?_⟩
  obtain ⟨-, hinv⟩ := h.inv
  have hbusy := List.find?_eq_none.mp hnone i hi
  simp only [Option.isNone_iff_eq_none, Bool.not_eq_true, Bool.decide_and, Bool.and_eq_true,
    decide_eq_true_eq, not_and, Bool.not_eq_false] at hbusy
  by_cases hretired : (s.slots i).retired
  · exact .inl hretired
  · right
    obtain ⟨submission', hsub⟩ : ∃ submission', (s.slots i).submission = some submission' :=
      Option.ne_none_iff_exists'.mp fun hfree => hretired (hbusy hfree)
    obtain ⟨count, hmem, -⟩ := waiting_accepted hinv hsub
    obtain ⟨l', hl', j, hj, hslot⟩ := h.inLane _ _ _ _ hmem
    obtain rfl : i = j := Fin.ext hslot
    obtain rfl := mem_laneSlots_unique hi hj
    refine ⟨_, _, submission', count, hmem, rfl, hl', ?_⟩
    simp [outstanding, hsub]

end Udp

/-! ## Both -/

/-- Every accepted submission is completed once, in order of its lane, and the lanes do not take each
other's slots. -/
theorem submission_fates :
    (∀ (n : ℕ) (s : Loopback n), s.Reachable →
      (∀ token q submission count, .accepted token q submission count ∈ s.log →
        -- the ticket is published once when the submission is no longer outstanding
        (¬s.outstanding token ∨ s.quarantined token → Binding.completions s.log q = 1 ∧
          s.host.tickets.publications submission.completion.ticket = 1) ∧
        -- a token that is outstanding is of its own submission
        (s.outstanding token → s.Occupies token q submission)) ∧
      Traced Binding.Reuse s.log ∧
      (∀ token callbacks, ¬s.outstanding token →
        (∃ e, s.progress token callbacks = (.error e, s)) ∧
          ∃ e, s.proveQuiescent token = (.error e, s)) ∧
      -- what is served, and when
      (∀ c, Loopback.served (s.call c).log = Loopback.served s.log) ∧
      (∀ token callbacks, (∃ e, s.progress token callbacks = (.error e, s)) ∨
        ∃ q submission count, .accepted token q submission count ∈ s.log ∧
          (∀ result, .completed q result ∉ s.log) ∧
          s.Serves (s.progress token callbacks).2 q submission) ∧
      (∀ callbacks, (s.progressNext callbacks = (.ok false, s) ∧
          ∀ token q submission count, .accepted token q submission count ∈ s.log →
            ∃ result, .completed q result ∈ s.log) ∨
        ∃ token q submission count, .accepted token q submission count ∈ s.log ∧
          (∀ result, .completed q result ∉ s.log) ∧
          (∀ token' q' submission' count', .accepted token' q' submission' count' ∈ s.log →
            q' < q → ∃ result, .completed q' result ∈ s.log) ∧
          s.Serves (s.progressNext callbacks).2 q submission) ∧
      ∀ submission refusal, (s.trySend submission).1 = .error ⟨refusal, submission⟩ →
        refusal.noSlot → ∃ l, Loopback.OnLane submission l ∧ s.Full l) ∧
    ∀ (n : ℕ) (s : Udp n), s.Reachable →
      (∀ token q submission count, .accepted token q submission count ∈ s.log →
        (¬s.outstanding token → Binding.completions s.log q = 1 ∧
          s.host.tickets.publications submission.completion.ticket = 1) ∧
        (s.outstanding token → s.Occupies token q submission)) ∧
      Traced Binding.Reuse s.log ∧
      Traced Udp.InOrder s.log ∧
      ∀ submission refusal, (s.trySend submission).1 = .error ⟨refusal, submission⟩ →
        refusal.noSlot → ∃ l, Udp.OnLane submission l ∧ s.Full l := by
  constructor
  · intro n s h
    obtain ⟨hsound, hinv⟩ := h.inv
    refine ⟨fun token q submission count hmem => ⟨fun hout => ?_, h.occupies hmem⟩, hinv.reuse,
      s.stale_refused, fun c => (s.call_acts c).served, h.progress_spec, h.progressNext_spec,
      fun _ _ => h.trySend_full⟩
    refine hinv.settled hmem (hout.imp ?_ (Loopback.binding_quarantined hsound))
    rw [Loopback.binding_outstanding hsound]
    exact id
  · intro n s h
    obtain ⟨-, hinv⟩ := h.inv
    refine ⟨fun token q submission count hmem => ⟨fun hout => ?_, h.occupies hmem⟩, hinv.reuse,
      h.inOrder, fun _ _ => h.trySend_full⟩
    refine hinv.settled hmem (.inl ?_)
    rw [Udp.binding_outstanding]
    exact hout

namespace Loopback.Bench

/-- A packet of Data of stream 7. -/
def data : TxSubmission where
  storage := {
    segments := [{ lease := { contents := [0x10000003, 7, 0].flatMap be32 }, offset := 0, length := 12
                   nonempty := by decide, inside := by decide }]
    count := by decide }
  completion := { ticket := 1 }
  source := ⟨1, 1⟩
  counter := ⟨1, some 7, .signal⟩

def host : HostBindings where
  admission := { capacities := fun _ => 4 }
  routes := { capacity := 4, frozen := true
              routes := [{ key := { source := ⟨1, 1⟩, streamId := some 7 }, context := 1 }] }
  counters := { capacity := 4, entries := [(data.counter, 0)], frozen := true }
  pools := fun l =>
    { provider := match l with
        | .data => 0
        | .control => 1
        | .cancellation => 2
      blocks := [{ capacity := 64 }] }

/-- The packet is sent and delivered. -/
def delivery : Loopback 3 :=
  (new 3 {} host).run [.call (.reserve 1), .call (.send data), .progressNext {}]

end Loopback.Bench

open Loopback.Bench in
theorem submission_fates_delivery : delivery.Reachable ∧ delivery.outstanding ⟨0, 1⟩ = false ∧
    .accepted ⟨0, 1⟩ 1 data 0 ∈ delivery.log ∧ Binding.completions delivery.log 1 = 1 ∧
    delivery.host.tickets.publications 1 = 1 := by
  have hreachable : delivery.Reachable := ⟨{}, Loopback.Bench.host, _, rfl⟩
  have hmem : .accepted ⟨0, 1⟩ 1 data 0 ∈ delivery.log :=
    List.mem_of_head? (show delivery.log.head? = some (.accepted ⟨0, 1⟩ 1 data 0) from rfl)
  obtain ⟨hfates, -⟩ := submission_fates.1 3 delivery hreachable
  obtain ⟨hone, hpublished⟩ := (hfates ⟨0, 1⟩ 1 data 0 hmem).1 (.inl Bool.false_ne_true)
  exact ⟨hreachable, rfl, hmem, hone, hpublished⟩

end Vita.Transport
