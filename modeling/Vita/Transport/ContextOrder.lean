import Vita.Transport.UdpTheorems

/-!
# Context before Data

A publisher counts on an accepted Context packet being ordered before the Data that follows it. The UDP
transport has the two on lanes of their own, which are served in turn and retried each for itself, so
Data can leave while the Context still waits.

Main results:
- `Udp.data_overtakes`: a run in which Data leaves first;
- `Udp.context_first`: a run keeps the order if no call of `progress_next` gets to the data lane while
  an older Context of the stream that is next there waits.
-/

namespace Vita.Transport.Udp

open Checked Codec Slots Trace
open Completion (CompletionResult CompletionStatus)
open Transaction (AdmissionPool AdmissionBundle AdmissionRequest Resource)

variable {n : ℕ} {s s' : Udp n}

def isContext (t : PacketType) : Bool := t = .context ∨ t = .extensionContext

/-- A Context packet and a Data packet are of one stream. -/
def SameStream (context data : TxSubmission) : Prop :=
  isContext context.counter.type ∧ isData data.counter.type ∧
    context.counter.sender = data.counter.sender ∧ context.counter.streamId = data.counter.streamId

/-- When a packet of Data is handed to its socket, the Context packets of its stream that were accepted
before it have left their slots. -/
def ContextFirst (log : List TxEvent) (e : TxEvent) : Prop :=
  ∀ q, e = .sent q → ∀ token data count, .accepted token q data count ∈ log →
    ∀ token' q' context count', .accepted token' q' context count' ∈ log →
      SameStream context data → q' < q → ∃ result, .completed q' result ∈ log

/-! ## When the order is kept -/

/-- No Context waits that is older than the next packet of Data and of its stream. -/
def Clear (s : Udp n) : Prop :=
  ∀ i data, s.nextSlot .data = some i → (s.slots i).submission = some data →
    ∀ j context, (s.slots j).submission = some context → SameStream context data →
      (s.slots i).sequence < (s.slots j).sequence

/-- The control lane is next to be sent from, and its oldest packet leaves. -/
def ControlFirst (s : Udp n) (io : Io) : Prop :=
  (s.cursor = 1 ∨ s.cursor = 2) ∧ s.exhausted .control = false ∧
    (∃ i submission bytes, s.nextSlot .control = some i ∧ (s.slots i).submission = some submission ∧
      copySegments submission.storage.segments = .ok bytes) ∧
    ∀ e, io.send .control = .error e → ¬e.retryable

/-- A call of `progress_next` sends no Data, sends control first, or finds no older Context. -/
def Yields (s : Udp n) (io : Io) : Prop :=
  s.aborting ∨ s.exhausted .data ∨ s.ControlFirst io ∨ s.Clear

/-- Every call of `progress_next` in a run yields. -/
def Yielding (s : Udp n) : List Move → Prop
  | [] => True
  | .call c :: moves => Yielding (s.call c) moves
  | .progressNext io callbacks :: moves =>
    s.Yields io ∧ Yielding (s.progressNext io callbacks).2 moves

/-! ## Turns -/

/-- Data is sent only where no older Context waits. -/
abbrev Ordered : Udp n → Lane → Prop := fun s l => l = .data → s.Clear

theorem Clear.of_eq (h : s.Clear) (hslots : s'.slots = s.slots) (hconfig : s'.config = s.config) :
    s'.Clear := by
  unfold Clear nextSlot laneSlots at h ⊢
  rw [hslots, hconfig]
  exact h

theorem answer_ne (published : Bool) (e : Error) :
    (if published then .ok true else .error e : Result Bool) ≠ .ok false := by
  cases published <;> simp

/-- A lane that can send and need not retry does something. -/
theorem transmit_conclusive {l : Lane} {io : Io} {i : Fin n} {submission : TxSubmission} {bytes : Bytes}
    (hnext : s.nextSlot l = some i) (hsub : (s.slots i).submission = some submission)
    (hexhausted : s.exhausted l = false) (hbytes : copySegments submission.storage.segments = .ok bytes)
    (hsend : ∀ e, io.send l = .error e → ¬e.retryable) : (s.transmit l io).1 ≠ .ok false := by
  unfold transmit
  simp only [hnext, hsub, hexhausted, hbytes, Bool.false_eq_true, if_false]
  split
  · next e retry hsent =>
    have hretry : retry = false := by
      split at hsent
      · cases hsent
        rfl
      · simpa using hsend _ hsent
    simp only [hretry, Bool.false_eq_true, if_false]
    exact answer_ne _ _
  · exact answer_ne _ _

/-- A turn that has done nothing leaves the slots alone. -/
structure Idle (s s' : Udp n) : Prop where
  slots : s'.slots = s.slots
  config : s'.config = s.config
  aborting : s'.aborting = s.aborting
  cursor : s'.cursor = s.cursor

/-- A transmission that sends nothing leaves the lanes as they are. -/
theorem transmit_idle {l : Lane} {io : Io} (h : (s.transmit l io).1 = .ok false) :
    Idle s (s.transmit l io).2 ∧
      (l ≠ .data ∨ s.exhausted .data → (s.transmit l io).2.dataAttempts = s.dataAttempts) := by
  have hcount : Idle s (s.countAttempt l) ∧
      (l ≠ .data → (s.countAttempt l).dataAttempts = s.dataAttempts) := by
    unfold countAttempt
    split
    · next hl => exact ⟨⟨rfl, rfl, rfl, rfl⟩, fun hne => absurd hl hne⟩
    · exact ⟨⟨rfl, rfl, rfl, rfl⟩, fun _ => rfl⟩
  rcases s.transmit_cases l io with ⟨r, s', heq, hs' | hs', -⟩ |
      ⟨i, submission, -, -, hexhausted, hsent | hdone⟩
  · rw [heq, hs']
    exact ⟨⟨rfl, rfl, rfl, rfl⟩, fun _ => rfl⟩
  · rw [heq, hs'.1]
    refine ⟨hcount.1, fun hl => hcount.2 (hl.elim id fun hdata hl => ?_)⟩
    rw [hl, hdata] at hs'
    exact nomatch hs'.2
  · obtain ⟨-, -, heq⟩ := hsent
    rw [heq]
    obtain ⟨hidle, hattempts⟩ := hcount
    refine ⟨⟨hidle.slots, hidle.config, hidle.aborting, hidle.cursor⟩, fun hl => hattempts ?_⟩
    refine hl.elim id fun hdata hl => ?_
    rw [hl, hdata] at hexhausted
    exact nomatch hexhausted
  · obtain ⟨r, result, s', heq, hr, -⟩ := hdone
    rw [heq] at h
    exact absurd h hr

/-- What a receive keeps that finds nothing. -/
structure Untouched (s s' : Udp n) : Prop extends Idle s s' where
  dataAttempts : s'.dataAttempts = s.dataAttempts
  controlAttempts : s'.controlAttempts = s.controlAttempts

theorem Untouched.refl (s : Udp n) : Untouched s s := ⟨⟨rfl, rfl, rfl, rfl⟩, rfl, rfl⟩

/-- A packet that is dispatched counts as progress. -/
theorem dispatch_ne {l : Lane} {source : Address} {wire : Bytes} {callbacks : Callbacks} :
    (s.dispatch l source wire callbacks).1 ≠ .ok false := by
  unfold dispatch
  split
  · simp
  · split
    · simp
    · simp only
      split
      · simp
      · split
        · simp
        · split
          · simp
          · split <;> simp

/-- A datagram that is not accepted changes nothing. -/
theorem accept_idle {l : Lane} {peeked : Address} {declared : ℕ} {io : Io} {callbacks : Callbacks}
    (h : (s.accept l peeked declared io callbacks).1 = .ok false) :
    Untouched s (s.accept l peeked declared io callbacks).2 := by
  unfold accept at h ⊢
  split at h
  · split at h
    · next hretry =>
      simp only [if_pos hretry]
      exact .refl s
    · cases h
  · exact .refl s
  · simp only at h
    split at h
    · cases h
    · split at h
      · cases h
      · split at h
        · cases h
        · exact absurd h dispatch_ne

/-- Neither does a reception that takes none. -/
theorem receive_idle {l : Lane} {io : Io} {callbacks : Callbacks}
    (h : (s.receive l io callbacks).1 = .ok false) : Untouched s (s.receive l io callbacks).2 := by
  unfold receive at h ⊢
  split at h
  · next hclosed =>
    rw [if_pos hclosed]
    exact .refl s
  · next hopen =>
    rw [if_neg hopen]
    split at h
    · split at h
      · next hretry =>
        simp only [if_pos hretry]
        exact .refl s
      · cases h
    · exact .refl s
    · simp only at h ⊢
      split at h
      · cases h
      · next hpeer =>
        rw [if_neg hpeer]
        split at h
        · cases h
        · next hfour =>
          rw [if_neg hfour]
          split at h
          · cases h
          · next hlane =>
            rw [if_neg hlane]
            split at h
            · cases h
            · next hsmall =>
              rw [if_neg hsmall]
              split at h
              · cases h
              · next hlarge =>
                rw [if_neg hlarge]
                split at h
                · cases h
                · have hidle := accept_idle h
                  exact ⟨⟨hidle.slots, hidle.config, hidle.aborting, hidle.cursor⟩,
                    hidle.dataAttempts, hidle.controlAttempts⟩

/-- A turn keeps the order, and so does the next one if this one has done nothing. -/
theorem turn_yields {io : Io} {callbacks : Callbacks} (h : s.Yields io) :
    Atoms Ordered s (s.turn io callbacks).2 ∧
      ((s.turn io callbacks).1 = .ok false → (s.turn io callbacks).2.Yields io) := by
  have hcursor : Same s { s with cursor := (s.cursor + 1) % 6 } := ⟨rfl, rfl, rfl, rfl, rfl, rfl⟩
  unfold turn
  simp only
  split
  · -- receiving sends nothing
    next hodd =>
    refine ⟨.head (.same hcursor) (receive_atoms _ _ _ _), fun hfalse => ?_⟩
    have hidle := receive_idle hfalse
    rcases h with habort | hdata | hcontrol | hclear
    · left
      rw [hidle.aborting]
      exact habort
    · right; left
      simp only [exhausted, if_true, decide_eq_true_eq] at hdata ⊢
      rw [hidle.dataAttempts]
      exact hdata
    · right; right; left
      obtain ⟨hposition, hexhausted, hnext, hsend⟩ := hcontrol
      refine ⟨?_, ?_, ?_, hsend⟩
      · right
        rw [hidle.cursor]
        simp only
        omega
      · simp only [exhausted, reduceCtorEq, if_false] at hexhausted ⊢
        rw [hidle.controlAttempts]
        exact hexhausted
      · unfold nextSlot laneSlots at hnext ⊢
        rw [hidle.slots, hidle.config]
        exact hnext
    · right; right; right
      exact hclear.of_eq hidle.slots hidle.config
  · next heven =>
    refine ⟨.head (.same hcursor) (transmit_atoms _ _ _ fun haborting hexhausted s' hsame hl => ?_),
      fun hfalse => ?_⟩
    · -- the data lane is served
      rw [hl] at hexhausted
      rcases h with habort | hdata | hcontrol | hclear
      · rw [habort] at haborting
        cases haborting
      · rw [show s.exhausted .data = false from hexhausted] at hdata
        cases hdata
      · -- the cursor is at the control lane
        rcases hcontrol.1 with hone | htwo
        · omega
        · rw [htwo] at hl
          cases hl
      · exact hclear.of_eq hsame.slots hsame.config
    · obtain ⟨hidle, hattempts⟩ := transmit_idle hfalse
      rcases h with habort | hdata | hcontrol | hclear
      · left
        rw [hidle.aborting]
        exact habort
      · right; left
        have hkept := hattempts (.inr hdata)
        simp only [exhausted, if_true, decide_eq_true_eq] at hdata ⊢
        rw [hkept]
        exact hdata
      · -- the control lane would have done something
        obtain ⟨hposition, hexhausted, ⟨i, submission, bytes, hnext, hsub, hbytes⟩, hsend⟩ := hcontrol
        have htwo : s.cursor = 2 := by omega
        rw [htwo] at hfalse
        exact absurd hfalse (transmit_conclusive hnext hsub hexhausted hbytes hsend)
      · right; right; right
        exact hclear.of_eq hidle.slots hidle.config

/-- Turns that yield keep to the order. -/
theorem turns_yield {io : Io} {callbacks : Callbacks} (attempts : ℕ) (h : s.Yields io) :
    Atoms Ordered s (turns io callbacks attempts s).2 := by
  induction attempts generalizing s with
  | zero => exact .refl
  | succ attempts ih =>
    have hturn := @turn_yields n s io callbacks h
    unfold turns
    split
    · next heq => exact heq ▸ hturn.1
    · next heq => exact heq ▸ hturn.1
    · next heq =>
      rw [heq] at hturn
      exact hturn.1.trans (ih (hturn.2 rfl))

/-- A call that yields keeps to the order. -/
theorem progressNext_yields {io : Io} {callbacks : Callbacks} (h : s.Yields io) :
    Atoms Ordered s (s.progressNext io callbacks).2 := by
  unfold progressNext
  split
  · exact .refl
  · split
    · exact .refl
    · have hstarted : Same s { s with progressing := true } := ⟨rfl, rfl, rfl, rfl, rfl, rfl⟩
      have hyields : Yields { s with progressing := true } io := h
      exact .head (.same hstarted) ((turns_yield 6 hyields).tail
        (.same ⟨rfl, rfl, rfl, rfl, rfl, rfl⟩))

/-! ## Runs -/

theorem Yielding.atoms {moves : List Move} (h : s.Yielding moves) : Atoms Ordered s (s.run moves) := by
  induction moves generalizing s with
  | nil => exact .refl
  | cons m moves ih =>
    cases m with
    | call c => exact (s.call_atoms c).trans (ih h)
    | progressNext io callbacks => exact (progressNext_yields h.1).trans (ih h.2)

/-- Where the next packet of Data finds no older Context, handing it over keeps the order. -/
theorem contextFirst_sent (hinv : s.binding.Inv) (hlane : s.InLane) {l : Lane} {i : Fin n}
    {submission : TxSubmission} (hordered : Ordered s l) (hnext : s.nextSlot l = some i)
    (hsub : (s.slots i).submission = some submission) :
    ContextFirst s.log (.sent (s.slots i).sequence) := by
  intro q hq token data count hdata token' q' context count' hcontext hstream hlt
  cases hq
  -- the packet that is handed over is the one in the slot
  obtain ⟨count'', hmem, -⟩ := waiting_accepted hinv hsub
  obtain rfl : data = submission := hinv.unique _ _ _ _ _ _ _ hdata hmem
  -- its lane is the data lane, as it is Data
  obtain ⟨l', ⟨frame, -, htype, hl'⟩, j, hj, hslot⟩ := hlane _ _ _ _ hmem
  obtain rfl : i = j := Fin.ext hslot
  obtain rfl := mem_laneSlots_unique (nextSlot_spec hnext).1 hj
  have hisdata : isData frame.envelope.type := htype ▸ hstream.2.1
  have hl : l = .data := by
    rw [← hl', lane, if_pos hisdata]
  subst hl
  have hclear := hordered rfl i data hnext hsub
  -- the Context is still in its slot, or has been completed
  obtain ⟨hlt', hfate⟩ := hinv.fate hcontext
  rcases hfate with hw | hw | hgone
  · exfalso
    have hw' : s.binding.cells ⟨token'.slot, hlt'⟩ = ⟨token'.generation, .waiting q'⟩ := hw
    have hphase : (s.binding.cells ⟨token'.slot, hlt'⟩).phase = .waiting q' := by rw [hw']
    obtain ⟨context', count''', hsub', hmem'⟩ := hinv.waiting _ _ hphase
    obtain rfl : context = context' := hinv.unique _ _ _ _ _ _ _ hcontext hmem'
    have hseq := (waiting_binding hphase).2
    have := hclear _ context hsub' hstream
    omega
  · exact Binding.exists_completed ‹_›
  · exact Binding.exists_completed ‹_›

/-- A sequence of atomic steps that are in order keeps Context before Data. -/
theorem Atoms.contextFirst (h : Atoms Ordered s s') (hsound : s.Sound) (hinv : s.binding.Inv)
    (hlane : s.InLane) (hfirst : Traced ContextFirst s.log) : Traced ContextFirst s'.log := by
  suffices hall : s'.Sound ∧ s'.binding.Inv ∧ s'.InLane ∧ Traced ContextFirst s'.log from hall.2.2.2
  induction h with
  | refl => exact ⟨hsound, hinv, hlane, hfirst⟩
  | tail _ hatom ih =>
    obtain ⟨hsound, hinv, hlane, hfirst⟩ := ih
    obtain ⟨hsound', hsteps⟩ := hatom.binding_step hsound
    refine ⟨hsound', hinv.steps hsteps, hlane.atom hatom, ?_⟩
    rcases hatom.log.2 with hlog | ⟨e, hlog, he⟩
    · rw [hlog]
      exact hfirst
    · rw [hlog]
      refine traced_concat.mpr ⟨hfirst, ?_⟩
      cases e with
      | sent q =>
        obtain ⟨l, i, submission, hordered, hnext, hsub, rfl⟩ := he
        exact contextFirst_sent hinv hlane hordered hnext hsub
      | accepted => exact nofun
      | delivered => exact nofun
      | received => exact nofun
      | completed => exact nofun

/-- In every run whose calls of `progress_next` yield, no packet of Data is handed to its socket while
a Context packet of its stream that was accepted before it waits. -/
theorem context_first (config : Config) (host : HostBindings) (moves : List Move)
    (h : (new n config host).Yielding moves) :
    Traced ContextFirst ((new n config host).run moves).log :=
  h.atoms.contextFirst (fun _ _ => rfl) Binding.inv_empty (by simp [InLane, new]) (traced_nil _)

/-! ## Data that overtakes -/

namespace Bench

/-- A packet in one segment. -/
def storage (words : List UInt32) (h : 0 < (words.flatMap Words.be32).length) : TxStorage where
  segments := [{ lease := { contents := words.flatMap Words.be32 }, offset := 0
                 length := (words.flatMap Words.be32).length, nonempty := h, inside := by simp }]
  count := by simp

/-- A Context packet and a packet of Data of stream 7. -/
def context : TxSubmission where
  storage := storage [0x40000002, 7] (by decide)
  completion := { ticket := 0 }
  source := ⟨1, 1⟩
  counter := ⟨1, some 7, .context⟩

def data : TxSubmission where
  storage := storage [0x10000003, 7, 0] (by decide)
  completion := { ticket := 1 }
  source := ⟨1, 1⟩
  counter := ⟨1, some 7, .signal⟩

def host : HostBindings where
  admission := { capacities := fun _ => 4 }
  routes := { capacity := 4 }
  counters := { capacity := 4, entries := [(context.counter, 0), (data.counter, 0)], frozen := true }
  pools := fun _ => { provider := 0 }

def peer : PeerBinding where
  localSource := ⟨1, 1⟩
  remoteSource := ⟨2, 1⟩
  remote := fun _ => { port := 9 }

/-- A socket that takes every packet. -/
def io : Io where
  send := fun _ => .ok 12

/-- Context and Data are accepted in this order. -/
def setup : List Move :=
  [.call (.addPeer peer), .call (.reserve 0), .call (.reserve 1), .call (.send context),
    .call (.send data)]

end Bench

open Bench in
/-- Context is accepted before Data, and the first call of `progress_next` sends the Data. -/
theorem data_overtakes : Config.usable {} 3 ∧
    ¬Traced ContextFirst ((new 3 {} Bench.host).run (setup ++ [.progressNext io {}])).log := by
  refine ⟨by decide, fun h => ?_⟩
  have hlog : ((new 3 {} Bench.host).run (setup ++ [.progressNext io {}])).log =
      [.accepted ⟨1, 1⟩ 1 context 0, .accepted ⟨0, 1⟩ 2 data 0] ++
        .sent 2 :: [.completed 2 { value := 12 }] := rfl
  have hsent := h _ _ _ hlog 2 rfl ⟨0, 1⟩ data 0 (by simp) ⟨1, 1⟩ 1 context 0 (by simp)
    ⟨rfl, rfl, rfl, rfl⟩ (by decide)
  obtain ⟨result, hmem⟩ := hsent
  simp at hmem

namespace Bench

/-- The Data is accepted only after the Context has left. -/
def patient : List Move :=
  [.call (.addPeer peer), .call (.reserve 0), .call (.reserve 1), .call (.send context),
    .progressNext io {}, .call (.send data), .progressNext io {}]

theorem patient_yields : (new 3 {} host).Yielding patient := by
  refine ⟨.inr (.inr (.inr fun i data hnext => nomatch hnext)), .inr (.inr (.inr ?_)), trivial⟩
  intro i data hnext hsub j context hj hstream
  -- the only submission is the Data itself
  match j with
  | 0 =>
    cases hj
    exact nomatch hstream.1
  | 1 => exact nomatch hj
  | 2 => exact nomatch hj

end Bench

open Bench in
theorem context_first_patient : (new 3 {} Bench.host).Yielding patient ∧
    Traced ContextFirst ((new 3 {} Bench.host).run patient).log :=
  ⟨patient_yields, context_first {} Bench.host patient patient_yields⟩

end Vita.Transport.Udp
