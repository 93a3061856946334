import Vita.Transaction.Ports

/-!
# What is known when an event is logged

Every event of the log is written by one move, and what that move knows is known of the event. A
statement about all events of a run is shown for one event at a time.

Main definitions:
- `Source`: where an outcome comes from;
- `Emits`: the events of a move, each with all that is known when it is written.

Main results:
- `Act.events`: every move writes only such events;
- `Act.outcome_cases`: how the outcome of a field changes.
-/

namespace Vita.Transaction.Engine

open Checked Timing State Codec Trace

variable {σ : Type} {c : Config σ} {p p' : Phase} {w w' : Engine σ}

/-! ## Outcomes -/

/-- The outcome that a transaction records for a reported one. -/
def recordedOutcome (c : Config σ) (w : Engine σ) (i field : ℕ) (reported : FieldOutcome) : FieldOutcome :=
  settledOutcome c w.quiescing (w.slots i) ((w.slots i).execution.fields field) reported

/-- Where the outcome of a field comes from: the completion of the running field, a batch, or a
simulation. -/
inductive Source (c : Config σ) (i : ℕ) (w : Engine σ) : Phase → ℕ → FieldOutcome → Prop
  | settled {o : Option FieldOutcome} (hactive : (w.slots i).active) (hrunning : (w.slots i).running)
      (hclaimed : Port.Claimed w.env.port (capability i (w.slots i) (w.slots i).runningField) o) :
      Source c i w .idle (w.slots i).runningField (recordedOutcome c w i (w.slots i).runningField
        (o.getD (unknownOutcome ((w.slots i).execution.fields (w.slots i).runningField).id)))
  | batch {k : ℕ} (hk : k < 4) (reported : FieldOutcome) :
      Source c i w (.batch i k) k (recordedOutcome c w i k reported)
  | simulated {now : OperationContext} {field : ℕ} (reported : FieldOutcome)
      (hstep : (w.slots i).step < (w.slots i).execution.count)
      (hfield : field = (w.slots i).execution.order (w.slots i).step)
      (heligible : (w.slots i).eligible field) (haction : (w.slots i).action = 1) :
      Source c i w (.walking i now) field (recordedOutcome c w i field reported)

/-- The outcome of a field is settled from a reported one. -/
theorem Source.eq {i field : ℕ} {o : FieldOutcome} (h : Source c i w p field o) :
    ∃ reported, o = recordedOutcome c w i field reported := by
  cases h with
  | settled => exact ⟨_, rfl⟩
  | batch _ reported => exact ⟨reported, rfl⟩
  | simulated reported => exact ⟨reported, rfl⟩

theorem Source.id {i field : ℕ} {o : FieldOutcome} (h : Source c i w p field o) :
    o.id = ((w.slots i).execution.fields field).id := by
  obtain ⟨reported, rfl⟩ := h.eq
  exact settledOutcome_id ..

theorem Source.not_pending {i field : ℕ} {o : FieldOutcome} (h : Source c i w p field o) :
    o.status ≠ .pending := by
  obtain ⟨reported, rfl⟩ := h.eq
  exact settledOutcome_ne_pending _ _ _ _ _

theorem Source.simulated_iff {i field : ℕ} {o : FieldOutcome} (h : Source c i w p field o) :
    o.simulated ↔ (w.slots i).action = 1 := by
  obtain ⟨reported, rfl⟩ := h.eq
  rw [recordedOutcome, settledOutcome_simulated, decide_eq_true_eq]

/-- Only fields of a transaction get outcomes. -/
theorem Source.lt {i field : ℕ} {o : FieldOutcome} (hb : Base c p w) (h : Source c i w p field o) :
    (w.slots i).active ∧ field < (w.slots i).execution.count := by
  cases h with
  | settled hactive hrunning _ =>
    have hr := (hb.slot i hactive).running hrunning
    rw [hr.order]
    exact ⟨hactive, hr.permuted.lt hr.step⟩
  | batch hk =>
    obtain ⟨hactive, -, hin⟩ := hb.turn rfl
    rw [(isBatch_count (hin.batch (by simp [Phase.isBatch]))).1]
    exact ⟨hactive, hk⟩
  | simulated _ _ _ heligible _ =>
    obtain ⟨hactive, hs, -⟩ := hb.turn rfl
    exact ⟨hactive, (hs.sound _ heligible).1⟩

/-! ## Events -/

/-- The events that a move for the transaction of the slot `i` writes, confirmations apart. -/
inductive Emits (c : Config σ) (i : ℕ) (w : Engine σ) : Phase → Event → Prop
  | admitted {now : OperationContext} (hidle : (w.slots i).active = false)
      (hfresh : Fresh c now (w.slots i)) :
      Emits c i w .idle (.admitted w.nextSequence (w.slots i).request now)
  | dispatched {p : Phase} {d : Dispatch} (h : Sends c i w p d) : Emits c i w p (.dispatched d)
  | disarmed (hactive : (w.slots i).active) (hrunning : (w.slots i).running) :
      Emits c i w .idle (.disarmed (w.slots i).sequence)
  | deferred {now : OperationContext} (hvalid : (w.slots i).revalidated) :
      Emits c i w (.planning i now) (.deferred (w.slots i).sequence)
  | blocked {now : OperationContext} :
      Emits c i w (.walking i now) (.blocked (w.slots i).sequence (w.slots i).request.cam)
  | disordered {p : Phase} (hturn : p.slot = some i) :
      Emits c i w p (.disordered (w.slots i).sequence)
  | told {p : Phase} {field : ℕ} {o : FieldOutcome} {e : Event} (h : Source c i w p field o)
      (he : Told (w.slots i) ((w.slots i).execution.fields field) o e) (hlive : ¬o.simulated) :
      Emits c i w p e
  | recorded {p : Phase} {field : ℕ} {o : FieldOutcome} (h : Source c i w p field o) :
      Emits c i w p (.recorded (w.slots i).sequence (w.slots i).request.cam o)
  | published (event : EffectiveEvent) : Emits c i w (.batch i 4) (.effect (w.slots i).sequence event)
  | completed : Emits c i w (.closing i) (.completed (w.slots i).sequence)

theorem Emits.not_confirmed {i tx : ℕ} {id : FieldId} : ¬Emits c i w p (.confirmed tx id) := by
  intro h
  cases h with
  | told _ he => cases he

/-- The cancellation of a field of the slot `i` is confirmed. -/
structure Confirmation (i : ℕ) (w : Engine σ) (f : ℕ) (id : FieldId) : Prop where
  active : (w.slots i).active
  action : (w.slots i).action = 2
  lt : f < (w.slots i).execution.count
  id : ((w.slots i).execution.fields f).id = id
  pending : ((w.slots i).outcomes f).status = .pending
  state : if (w.slots i).running ∧ (w.slots i).runningField = f then
      Disarmed w.env.port (capability i (w.slots i) f)
    else (w.slots i).cancelled f

/-- The events of an outcome. -/
theorem applied_events {i field : ℕ} {reported : FieldOutcome} (publish : Bool) (port : Port)
    (h : Source c i w p field (recordedOutcome c w i field reported)) :
    ∃ new, (applyOutcome c publish i field reported (w.setPort port)).log = w.log ++ new ∧
      ∀ e ∈ new, Emits c i w p e := by
  obtain ⟨told, hlog, htold, hsim⟩ :=
    (applyOutcome_applied (c := c) publish i field reported (w.setPort port)).log
  refine ⟨told ++ [_], by rw [hlog, List.append_assoc]; rfl, fun e he => ?_⟩
  rcases List.mem_append.mp he with he | he
  · refine .told h (htold e he) fun hs => ?_
    rw [hsim hs] at he
    cases he
  · rw [List.mem_singleton.mp he]
    exact .recorded h

/-- A move confirms a cancellation and does nothing else, or writes events without a confirmation. -/
theorem Act.events {i : ℕ} (h : Ports c w) (hb : Base c p w) (hact : Act c i p w p' w') :
    (p = .idle ∧ p' = .idle ∧ ∃ f id, Confirmation i w f id ∧
      w' = w.emit (.confirmed (w.slots i).sequence id)) ∨
    ∃ new, w'.log = w.log ++ new ∧ ∀ e ∈ new, Emits c i w p e := by
  cases hact with
  | settle htake hfind =>
    obtain ⟨hactive, hrunning, o, port, hclaimed, heq⟩ := h.settles hb htake hfind
    right
    rw [heq]
    exact applied_events true port (.settled hactive hrunning hclaimed)
  | own | enter | query | unscheduled | single | unchanged | stuck | exhaust | drain | pass | unready
  | schedule | boundary | scratch | drop =>
    exact .inr ⟨[], (List.append_nil _).symm, by simp⟩
  | @defer _ now hvalid =>
    refine .inr ⟨[_], rfl, fun e he => ?_⟩
    rw [List.mem_singleton.mp he, (reschedule_rescheduled (c := c) now (w.slots i)).slot]
    exact .deferred hvalid
  | activate _ hidle hfresh =>
    refine .inr ⟨[_], rfl, fun e he => ?_⟩
    rw [List.mem_singleton.mp he]
    exact .admitted hidle hfresh
  | disarm hactive hrunning =>
    refine .inr ⟨[_], rfl, fun e he => ?_⟩
    rw [List.mem_singleton.mp he]
    exact .disarmed hactive hrunning
  | @confirm _ f id hactive haction hf hid hpending hstate =>
    exact .inl ⟨rfl, rfl, f, id, ⟨hactive, haction, hf, hid, hpending, hstate⟩, rfl⟩
  | revalidate hnot =>
    obtain ⟨-, hslot, -⟩ := hb.turn rfl
    obtain ⟨s, env, new, heq, -, -, hnew⟩ := revalidate_spec (c := c) hnot hslot.count_le
    rw [heq]
    refine .inr ⟨new, rfl, fun e he => ?_⟩
    rcases hnew with ⟨-, rfl⟩ | rfl
    · cases he
    · rw [List.mem_singleton.mp he]
      exact .disordered rfl
  | recheck =>
    obtain ⟨-, hslot, -⟩ := hb.turn rfl
    obtain ⟨s, env, new, heq, -, -, hnew, -⟩ := revalidateBatch_spec (c := c) _ hslot.count_le
    rw [heq]
    refine .inr ⟨new, rfl, fun e he => ?_⟩
    rcases hnew with ⟨-, rfl⟩ | ⟨-, rfl⟩
    · cases he
    · rw [List.mem_singleton.mp he]
      exact .disordered rfl
  | commit hready hvalid heligible =>
    obtain ⟨d, hlog, hd⟩ := commit_sends hb hready hvalid heligible
    refine .inr ⟨[_], hlog, fun e he => ?_⟩
    rw [List.mem_singleton.mp he]
    exact .dispatched hd
  | apply hk reported =>
    exact .inr (applied_events false w.env.port (.batch hk reported))
  | simulate reported hstep hfield heligible haction =>
    exact .inr (applied_events true w.env.port (.simulated reported hstep hfield heligible haction))
  | publish version event =>
    right
    rcases recordEvent_cases (c := c) i event { w with state := { w.state with version } } with
      heq | ⟨env, credits, revisions, -, heq⟩ <;> rw [heq]
    · exact ⟨[], (List.append_nil _).symm, by simp⟩
    · refine ⟨[_], rfl, fun e he => ?_⟩
      rw [List.mem_singleton.mp he]
      exact .published event
  | @block _ field _ =>
    right
    rcases blockField_cases i field w with heq | heq <;> rw [heq]
    · exact ⟨[], (List.append_nil _).symm, by simp⟩
    · refine ⟨_, rfl, fun e he => ?_⟩
      split at he
      · rw [List.mem_singleton.mp he]
        exact .blocked
      · cases he
  | start hstart hbegun =>
    refine .inr ⟨[_], rfl, fun e he => ?_⟩
    rw [List.mem_singleton.mp he]
    exact .dispatched (.field hstart hbegun)
  | finish now =>
    obtain ⟨s, env, hs, -, heq⟩ := finish_spec (c := c) i now w
    rw [heq]
    refine .inr ⟨[_], rfl, fun e he => ?_⟩
    rw [List.mem_singleton.mp he]
    exact .completed
  | reserve _ _ _ _ h =>
    obtain ⟨publisher, port, field, -, rfl⟩ := reserveTicket_spec h
    exact .inr ⟨[], (List.append_nil _).symm, by simp⟩
  | release h =>
    obtain ⟨-, -, rfl⟩ := release_spec h
    exact .inr ⟨[], (List.append_nil _).symm, by simp⟩

/-! ## Changes of the outcomes -/

/-- The outcome of a field after a move: it is the old one, or recorded from its source, or that of a
field that is passed over. -/
inductive Becomes (c : Config σ) (i : ℕ) (w : Engine σ) (p : Phase) (f : ℕ) : FieldOutcome → Prop
  | same : Becomes c i w p f ((w.slots i).outcomes f)
  | source {o : FieldOutcome} (h : Source c i w p f o) : Becomes c i w p f o
  | passed {o : FieldOutcome} (hidle : ¬(w.slots i).running)
      (hstatus : o.status = .cancelled ∨ o.status = .notExecuted) : Becomes c i w p f o

/-- An outcome has the source that the field had. -/
theorem Source.becomes {i field : ℕ} {reported : FieldOutcome} (publish : Bool) (port : Port)
    (h : Source c i w p field (recordedOutcome c w i field reported)) (f : ℕ) : Becomes c i w p f
      (((applyOutcome c publish i field reported (w.setPort port)).slots i).outcomes f) := by
  obtain ⟨hypothetical, credits, revisions, hs⟩ :=
    (applyOutcome_applied (c := c) publish i field reported (w.setPort port)).slots
  rw [hs, Function.update_self, recordOutcome_eq]
  dsimp only
  by_cases hf : f = field
  · subst hf
    rw [Function.update_self]
    exact .source h
  · rw [Function.update_of_ne hf]
    exact .same

/-- An outcome after an act is the old one, or has a source, or is that of a field passed over. -/
theorem Act.outcome_cases {i : ℕ} (h : Ports c w) (hb : Base c p w) (hact : Act c i p w p' w')
    (hactive : (w.slots i).active) (hactive' : (w'.slots i).active) (f : ℕ) :
    Becomes c i w p f ((w'.slots i).outcomes f) := by
  have hsame : ∀ s : Slot, s.outcomes = (w.slots i).outcomes → w'.slots i = s →
      Becomes c i w p f ((w'.slots i).outcomes f) := by
    intro s ho hs
    rw [hs, ho]
    exact .same
  have hnone : (w.slots i).active = false → Becomes c i w p f ((w'.slots i).outcomes f) := by
    intro hidle
    rw [hidle] at hactive
    cases hactive
  cases hact with
  | settle htake hfind =>
    obtain ⟨hact, hrunning, o, port, hclaimed, heq⟩ := h.settles hb htake hfind
    rw [heq]
    exact Source.becomes true port (.settled hact hrunning hclaimed) f
  | own | enter | query | unscheduled | single | unchanged | stuck | exhaust | disarm | confirm =>
    exact .same
  | drain hlive hrunning =>
    rw [cancelPending, setSlot_slots, Function.update_self]
    dsimp only
    split
    · exact .passed hrunning (.inl rfl)
    · exact .same
  | revalidate hnot =>
    obtain ⟨-, hslot, -⟩ := hb.turn rfl
    obtain ⟨s, env, new, heq, -, hr, -⟩ := revalidate_spec (c := c) hnot hslot.count_le
    rw [heq] at hsame ⊢
    exact hsame s (by rw [hr.slot]) (Function.update_self ..)
  | @defer _ now =>
    have hr := reschedule_rescheduled (c := c) now (w.slots i)
    exact hsame _ (by rw [hr.slot]) (Function.update_self ..)
  | @schedule _ now =>
    have hr := (reschedule_rescheduled (c := c) now (w.slots i)).trans (checkWindow_rescheduled now _)
    exact hsame _ (by rw [hr.slot]) (Function.update_self ..)
  | boundary =>
    have hr := validateBoundaryState_rescheduled (c := c) w.timeline (w.slots i)
    exact hsame _ (by rw [hr.slot]) (Function.update_self ..)
  | unready => exact hsame (withdrawFour (w.slots i)) rfl (Function.update_self ..)
  | recheck =>
    obtain ⟨-, hslot, -⟩ := hb.turn rfl
    obtain ⟨s, env, new, heq, -, hr, -⟩ := revalidateBatch_spec (c := c) _ hslot.count_le
    rw [heq] at hsame ⊢
    exact hsame (withdrawFour s) (by rw [withdrawFour, hr.slot]) (by simp)
  | @commit _ now commit _ _ _ =>
    obtain ⟨-, hslot, -⟩ := hb.turn rfl
    obtain ⟨s, env, new, heq, -, hr, -⟩ := revalidateBatch_spec (c := c) now hslot.count_le
    rw [heq] at hsame ⊢
    exact hsame s (by rw [hr.slot]) (Function.update_self ..)
  | apply hk reported =>
    exact Source.becomes false w.env.port (.batch hk reported) f
  | simulate reported hstep hfield heligible haction =>
    exact Source.becomes true w.env.port (.simulated reported hstep hfield heligible haction) f
  | publish version event =>
    rcases recordEvent_cases (c := c) i event { w with state := { w.state with version } } with
      heq | ⟨env, credits, revisions, -, heq⟩ <;> rw [heq] at hsame ⊢
    · exact .same
    · exact hsame { w.slots i with credits, revisions } rfl (Function.update_self ..)
  | @pass _ field _ o hpassed =>
    obtain ⟨-, -, hin⟩ := hb.turn rfl
    rw [setSlot_slots, Function.update_self, skip]
    dsimp only
    by_cases hf : f = field
    · rw [hf, Function.update_self]
      exact .passed hin.idle hpassed.status
    · rw [Function.update_of_ne hf]
      exact .same
  | @block _ field _ =>
    rcases blockField_cases i field w with heq | heq <;> rw [heq] at hsame ⊢
    · exact .same
    · exact hsame (blockedSlot (w.slots i) field) rfl (Function.update_self ..)
  | @start _ field =>
    exact hsame { w.slots i with running := true, runningField := field } rfl (Function.update_self ..)
  | finish now =>
    obtain ⟨s, env, hs, -, heq⟩ := finish_spec (c := c) i now w
    rw [heq] at hsame ⊢
    exact hsame { s with complete := true } (by rw [hs]) (Function.update_self ..)
  | scratch hidle => exact hnone hidle
  | reserve hidle => exact hnone hidle
  | drop hidle => exact hnone hidle
  | activate _ hidle => exact hnone hidle
  | release h =>
    obtain ⟨-, -, rfl⟩ := release_spec h
    simp at hactive'

end Vita.Transaction.Engine
