import Vita.Transaction.Invariants

/-!
# The effect lane

Effects are dispatched by the transaction that owns the lane. A transaction keeps the lane from its
first effect until it is complete, unless its boundary is moved into the future in between: then it
gives the lane back and waits, and so do all of its remaining fields.

Main results:
- `dispatches_exclusive`: effects of different transactions do not interleave unless a transaction is
  deferred after its first effect;
- `first_dispatch_fresh`: the first effect of a transaction is dispatched on a validation against the
  present state unless the transaction was deferred before.
-/

namespace Vita.Transaction.Engine

open Checked Timing State Codec Trace

variable {σ : Type} {c : Config σ} {p p' : Phase} {w w' : Engine σ}

/-! ## Dispatches -/

/-- What is known when an effect is dispatched. -/
inductive Sends (c : Config σ) (i : ℕ) (w : Engine σ) : Phase → Dispatch → Prop
  | field {now : OperationContext} {field : ℕ} (hstart : c.backend.start.isSome) (h : Begun w i field) :
      Sends c i w (.walking i now)
        { tx := (w.slots i).sequence, batch := false
          fields := [((w.slots i).execution.fields field).id], cam := (w.slots i).request.cam
          plan := (w.slots i).execution, cancelled := (w.slots i).cancelled
          version := w.state.version, armed := armed c w i, now }
  | batch {now : OperationContext} {s : Slot} (hready : Ready c w i)
      (hplan : Planned { w.slots i with dataRunning := now.dataRunning } s w.state.version true)
      (heligible : ∀ f < 4, s.eligible f)
      (haccepted : ∀ f < (w.slots i).request.count,
        Accepted c { w.slots i with dataRunning := now.dataRunning } w.state (armed c w i)
          ((w.slots i).request.field f)) :
      Sends c i w (.checked i now)
        { tx := (w.slots i).sequence, batch := true, fields := planIds s.execution
          cam := (w.slots i).request.cam, plan := s.execution, cancelled := (w.slots i).cancelled
          version := w.state.version, armed := armed c w i, now }

/-- Whether a start is armed does not depend on the transaction that asks. -/
theorem armed_of_slots {i : ℕ} (h : ∀ j, j ≠ i → w'.slots j = w.slots j) :
    armed c w' i = armed c w i := by
  unfold armed
  congr 1
  refine propext (exists_congr fun j => and_congr_right fun _ => and_congr_right fun hj => ?_)
  rw [h j hj]

/-- The settings of a radio are dispatched together. -/
theorem commit_sends {i : ℕ} {now : OperationContext}
    {commit : ExecutionPlan → Boundary → σ → Reply σ BatchOutcome} (hb : Base c (.checked i now) w)
    (hready : Ready c w i) (hvalid : (revalidateBatch c now i w).1)
    (heligible : ∀ f < 4, ((revalidateBatch c now i w).2.slots i).eligible f) :
    ∃ d, (callCommit c commit now i (revalidateBatch c now i w).2).2.log = w.log ++ [.dispatched d] ∧
      Sends c i w (.checked i now) d := by
  obtain ⟨-, hslot, -⟩ := hb.turn rfl
  obtain ⟨s, env, new, heq, -, hplan, hnew, haccepted⟩ :=
    revalidateBatch_spec (c := c) now hslot.count_le
  have hcount : (w.slots i).request.count = 4 := by
    rw [← hslot.count]
    exact (isBatch_count hready.batch).1
  obtain rfl : new = [] := by
    rcases hnew with ⟨-, h⟩ | ⟨h, -⟩
    · exact h
    · exact absurd hvalid h
  rw [hvalid] at hplan
  rw [heq] at heligible ⊢
  simp only [Function.update_self] at heligible
  refine ⟨_, ?_, .batch hready hplan heligible fun f hf => haccepted f hf (heligible f (by omega))⟩
  simp only [callCommit, call, emit, List.append_nil, Function.update_self]
  have harmed : armed c { w with slots := Function.update w.slots i s, env, log := w.log } i =
      armed c w i :=
    armed_of_slots fun j hj => Function.update_of_ne hj _ _
  rw [harmed, hplan.slot]

/-- A move dispatches nothing or one effect. -/
theorem Act.sends {i : ℕ} (hb : Base c p w) (h : Act c i p w p' w') :
    (∃ new, w'.log = w.log ++ new ∧ ∀ d, .dispatched d ∉ new) ∨
      ∃ d, w'.log = w.log ++ [.dispatched d] ∧ Sends c i w p d := by
  have happlied : ∀ {field : ℕ} {o : FieldOutcome} {v : Engine σ}, Applied i field o v w' →
      v.log = w.log → ∃ new, w'.log = w.log ++ new ∧ ∀ d, .dispatched d ∉ new := by
    intro field o v h hv
    obtain ⟨told, hlog, htold, -⟩ := h.log
    rw [List.append_assoc, hv] at hlog
    refine ⟨_, hlog, fun d hd => ?_⟩
    rcases List.mem_append.mp hd with hd | hd
    · cases htold _ hd
    · simp at hd
  cases h with
  | @settle _ t record port htake hfind =>
    obtain ⟨reported, heq, -⟩ := consume_applied port hfind
    rw [heq]
    rw [heq] at happlied
    exact .inl (happlied (applyOutcome_applied ..) rfl)
  | own | enter | query | unscheduled | single | unchanged | stuck | exhaust | drain | pass | unready
  | schedule | boundary | scratch | drop =>
    exact .inl ⟨[], (List.append_nil _).symm, by simp⟩
  | defer | activate | disarm | confirm => exact .inl ⟨[_], rfl, by simp⟩
  | revalidate hnot =>
    obtain ⟨-, hslot, -⟩ := hb.turn rfl
    obtain ⟨s, env, new, heq, -, -, hnew⟩ := revalidate_spec (c := c) hnot hslot.count_le
    rw [heq]
    refine .inl ⟨new, rfl, ?_⟩
    rcases hnew with ⟨-, rfl⟩ | rfl <;> simp
  | recheck =>
    obtain ⟨-, hslot, -⟩ := hb.turn rfl
    obtain ⟨s, env, new, heq, -, -, hnew, -⟩ := revalidateBatch_spec (c := c) _ hslot.count_le
    rw [heq]
    refine .inl ⟨new, rfl, ?_⟩
    rcases hnew with ⟨-, rfl⟩ | ⟨-, rfl⟩ <;> simp
  | commit hready hvalid heligible => exact .inr (commit_sends hb hready hvalid heligible)
  | apply | simulate => exact .inl (happlied (applyOutcome_applied ..) rfl)
  | publish version event =>
    rcases recordEvent_cases (c := c) i event { w with state := { w.state with version } } with
      heq | ⟨env, credits, revisions, -, heq⟩ <;> rw [heq]
    · exact .inl ⟨[], (List.append_nil _).symm, by simp⟩
    · exact .inl ⟨[_], rfl, by simp⟩
  | @block _ field _ =>
    rcases blockField_cases i field w with heq | heq <;> rw [heq]
    · exact .inl ⟨[], (List.append_nil _).symm, by simp⟩
    · refine .inl ⟨_, rfl, ?_⟩
      split <;> simp
  | start hstart h => exact .inr ⟨_, rfl, .field hstart h⟩
  | finish now =>
    obtain ⟨s, env, -, -, heq⟩ := finish_spec (c := c) i now w
    rw [heq]
    exact .inl ⟨[_], rfl, by simp⟩
  | reserve _ _ _ _ h =>
    obtain ⟨publisher, port, field, -, rfl⟩ := reserveTicket_spec h
    exact .inl ⟨[], (List.append_nil _).symm, by simp⟩
  | release h =>
    obtain ⟨-, -, rfl⟩ := release_spec h
    exact .inl ⟨[], (List.append_nil _).symm, by simp⟩

/-- Only the owner of the lane dispatches. -/
theorem Sends.owner {i : ℕ} {d : Dispatch} (hb : Base c p w) (h : Sends c i w p d) :
    (w.slots i).active ∧ (w.slots i).action = 2 ∧ w.effectOwner = some i := by
  cases h with
  | field _ h =>
    obtain ⟨hactive, hs, hin⟩ := hb.turn rfl
    have haction : (w.slots i).action = 2 := by
      have h0 := (hin.action (by simp [Phase.isClosing])).1
      have h1 := h.action
      have h2 := hs.action_le
      omega
    exact ⟨hactive, haction, (hin.action (by simp [Phase.isClosing])).2 haction⟩
  | batch hready =>
    obtain ⟨hactive, -, hin⟩ := hb.turn rfl
    have haction := (isBatch_count hready.batch).2
    exact ⟨hactive, haction, (hin.action (by simp [Phase.isClosing])).2 haction⟩

/-- The lane changes hands only with the transaction that holds it. -/
theorem Act.owner_cases {i : ℕ} (hb : Base c p w) (h : Act c i p w p' w') :
    w'.effectOwner = w.effectOwner ∨ w.effectOwner = none ∨
      w.effectOwner = some i ∧ w'.effectOwner = none ∧
        (w'.log = w.log ++ [.deferred (w.slots i).sequence] ∨
          w'.log = w.log ++ [.completed (w.slots i).sequence]) := by
  cases h with
  | @settle _ t record port htake hfind =>
    obtain ⟨reported, heq, -⟩ := consume_applied port hfind
    rw [heq]
    exact .inl (applyOutcome_applied (c := c) true i _ reported (w.setPort port)).owner
  | own hnone => exact .inr (.inl hnone)
  | enter | query | unscheduled | single | unchanged | stuck | exhaust | drain | pass | unready
  | schedule | boundary | scratch | drop | activate | disarm | confirm | start => exact .inl rfl
  | @defer _ now hvalid hwaits =>
    obtain ⟨hactive, hs, hin⟩ := hb.turn rfl
    have hr := reschedule_rescheduled (c := c) now (w.slots i)
    have haction : (w.slots i).action = 2 := by
      simp only [waits, decide_eq_true_eq] at hwaits
      have h2 := hwaits.2.1
      rwa [Slot.action, hr.slot] at h2
    refine .inr (.inr ⟨(hin.action (by simp [Phase.isClosing])).2 haction, rfl, .inl ?_⟩)
    rw [emit_log, hr.slot]
    rfl
  | revalidate hnot =>
    obtain ⟨-, hslot, -⟩ := hb.turn rfl
    obtain ⟨s, env, new, heq, -⟩ := revalidate_spec (c := c) hnot hslot.count_le
    rw [heq]
    exact .inl rfl
  | recheck | commit =>
    obtain ⟨-, hslot, -⟩ := hb.turn rfl
    obtain ⟨s, env, new, heq, -⟩ := revalidateBatch_spec (c := c) _ hslot.count_le
    rw [heq]
    exact .inl rfl
  | apply | simulate => exact .inl (applyOutcome_applied ..).owner
  | publish version event =>
    rcases recordEvent_cases (c := c) i event { w with state := { w.state with version } } with
      heq | ⟨env, credits, revisions, -, heq⟩ <;> rw [heq] <;> exact .inl rfl
  | @block _ field _ =>
    rcases blockField_cases i field w with heq | heq <;> rw [heq] <;> exact .inl rfl
  | finish now =>
    obtain ⟨s, env, -, -, heq⟩ := finish_spec (c := c) i now w
    rw [heq]
    by_cases ho : w.effectOwner = some i
    · exact .inr (.inr ⟨ho, if_pos ho, .inr rfl⟩)
    · exact .inl (if_neg ho)
  | reserve _ _ _ _ h =>
    obtain ⟨publisher, port, field, -, rfl⟩ := reserveTicket_spec h
    exact .inl rfl
  | release h =>
    obtain ⟨-, -, rfl⟩ := release_spec h
    exact .inl rfl

theorem Sends.tx {i : ℕ} {d : Dispatch} (h : Sends c i w p d) : d.tx = (w.slots i).sequence := by
  cases h <;> rfl

/-- Only the owner of the lane changes the state. -/
theorem Act.state_cases {i : ℕ} (hb : Base c p w) (h : Act c i p w p' w') :
    w'.state = w.state ∨ w.effectOwner = some i ∧ ((w.slots i).running ∨ p.isBatch) := by
  cases h with
  | settle htake hfind =>
    obtain ⟨-, hactive, hrunning, -⟩ := findRunning_eq_some hfind
    exact .inr ⟨((hb.slot i hactive).running hrunning).owner, .inl hrunning⟩
  | own | enter | query | unscheduled | single | unchanged | stuck | exhaust | drain | pass | unready
  | schedule | boundary | scratch | drop | defer | activate | disarm | confirm | start => exact .inl rfl
  | revalidate hnot =>
    obtain ⟨-, hslot, -⟩ := hb.turn rfl
    obtain ⟨s, env, new, heq, -⟩ := revalidate_spec (c := c) hnot hslot.count_le
    rw [heq]
    exact .inl rfl
  | recheck | commit =>
    obtain ⟨-, hslot, -⟩ := hb.turn rfl
    obtain ⟨s, env, new, heq, -⟩ := revalidateBatch_spec (c := c) _ hslot.count_le
    rw [heq]
    exact .inl rfl
  | apply | publish =>
    obtain ⟨-, -, hin⟩ := hb.turn rfl
    have haction := (isBatch_count (hin.batch (by simp [Phase.isBatch]))).2
    exact .inr ⟨(hin.action (by simp [Phase.isClosing])).2 haction, .inr (by simp [Phase.isBatch])⟩
  | simulate reported _ _ _ haction => exact .inl (applyOutcome_simulated _ _ reported haction).1
  | @block _ field _ =>
    rcases blockField_cases i field w with heq | heq <;> rw [heq] <;> exact .inl rfl
  | finish now =>
    obtain ⟨s, env, -, -, heq⟩ := finish_spec (c := c) i now w
    rw [heq]
    exact .inl rfl
  | reserve _ _ _ _ h =>
    obtain ⟨publisher, port, field, -, rfl⟩ := reserveTicket_spec h
    exact .inl rfl
  | release h =>
    obtain ⟨-, -, rfl⟩ := release_spec h
    exact .inl rfl

/-- The transaction of a slot stays the same while it is there. -/
theorem ActFrame.sequence_eq {i : ℕ} (h : ActFrame i p w p' w') {j : ℕ} (hactive : (w.slots j).active)
    (hactive' : (w'.slots j).active) : (w'.slots j).sequence = (w.slots j).sequence := by
  by_cases hj : j = i
  · subst hj
    rcases h.sequence hactive' with ⟨-, hseq, -⟩ | ⟨hidle, -⟩
    · exact hseq
    · rw [hidle] at hactive
      cases hactive
  · rw [h.slots j hj]

/-- A property of all dispatches, from an invariant of the engine. -/
theorem dispatched_invariant {I : Phase → Engine σ → Prop} {P : List Event → Dispatch → Prop}
    (hinitial : ∀ ext pool state timeline, I .idle (initial ext pool state timeline))
    (hact : ∀ p w i p' w', Base c p w → I p w → Act c i p w p' w' → I p' w')
    (hstill : ∀ p w w', Base c p w → I p w → Still p w w' → I p w')
    (hsends : ∀ p w i d, Base c p w → I p w → Sends c i w p d → P w.log d) (h : Reachable c w) :
    Traced (fun pre e => ∀ d, e = .dispatched d → P pre d) w.log := by
  refine (base_invariant (P := fun p w => I p w ∧
    Traced (fun pre e => ∀ d, e = .dispatched d → P pre d) w.log) ?_ ?_ ?_ h).2.2
  · exact fun ext pool state timeline => ⟨hinitial ext pool state timeline, traced_nil _⟩
  · intro p w i p' w' hb ⟨hi, htraced⟩ h
    refine ⟨hact p w i p' w' hb hi h, ?_⟩
    rcases h.sends hb with ⟨new, hlog, hnone⟩ | ⟨d, hlog, hd⟩
    · rw [hlog]
      refine htraced.append fun pre e he d hd => ?_
      rw [hd] at he
      exact absurd he (hnone d)
    · rw [hlog, traced_concat]
      refine ⟨htraced, fun d' hd' => ?_⟩
      obtain rfl := Event.dispatched.inj hd'
      exact hsends p w i d hb hi hd
  · intro p w w' hb ⟨hi, htraced⟩ h
    exact ⟨hstill p w w' hb hi h, by rwa [h.log]⟩

/-! ## Interleaving -/

/-- Whenever an effect is dispatched, all transactions with earlier effects are complete. -/
def Exclusive (log : List Event) : Prop :=
  Traced (fun pre e => ∀ d, e = .dispatched d → ∀ d', .dispatched d' ∈ pre → d'.tx ≠ d.tx →
    .completed d'.tx ∈ pre) log

/-- No transaction gives the lane back after its first effect. -/
def NeverDeferredLate (log : List Event) : Prop :=
  Traced (fun pre e => ∀ tx, e = .deferred tx → ∀ d, .dispatched d ∈ pre → d.tx ≠ tx) log

/-- A transaction with an effect is complete or owns the lane. -/
def Occupied (w : Engine σ) : Prop :=
  ∀ d, .dispatched d ∈ w.log → .completed d.tx ∈ w.log ∨
    ∃ j, w.effectOwner = some j ∧ (w.slots j).sequence = d.tx

/-- Every act keeps the lane with the transaction that has had an effect, unless it is deferred late. -/
theorem Occupied.act {i : ℕ} (hb : Base c p w) (hocc : Occupied w) (h : Act c i p w p' w')
    (hdefer : NeverDeferredLate w'.log) : Occupied w' := by
  have hb' := hb.act h
  have hf := h.frame hb
  -- an earlier effect
  have hold : ∀ d, .dispatched d ∈ w.log → .completed d.tx ∈ w'.log ∨
      ∃ j, w'.effectOwner = some j ∧ (w'.slots j).sequence = d.tx := by
    intro d hd
    rcases hocc d hd with hdone | ⟨j, hj, hseq⟩
    · obtain ⟨new, hnew, -⟩ := hf.log
      exact .inl (by rw [hnew]; exact List.mem_append_left _ hdone)
    · rcases h.owner_cases hb with hsame | hnone | ⟨hi, -, hlog | hlog⟩
      · refine .inr ⟨j, hsame.trans hj, ?_⟩
        rw [hf.sequence_eq (hb.owner j hj) (hb'.owner j (hsame.trans hj))]
        exact hseq
      · rw [hnone] at hj
        cases hj
      · obtain rfl := Option.some.inj (hi.symm.trans hj)
        rw [hlog, NeverDeferredLate, traced_concat] at hdefer
        exact absurd hseq.symm (hdefer.2 _ rfl d hd)
      · obtain rfl := Option.some.inj (hi.symm.trans hj)
        exact .inl (by rw [hlog, hseq]; simp)
  intro d hd
  rcases h.sends hb with ⟨new, hlog, hnone⟩ | ⟨d', hlog, hsends⟩
  · rw [hlog] at hd
    exact hold d ((List.mem_append.mp hd).resolve_right (hnone d))
  · rw [hlog] at hd
    rcases List.mem_append.mp hd with hd | hd
    · exact hold d hd
    · obtain rfl := Event.dispatched.inj (List.mem_singleton.mp hd)
      obtain ⟨hactive, -, howner⟩ := hsends.owner hb
      have hkept : w'.effectOwner = w.effectOwner := by
        rcases h.owner_cases hb with hsame | hnone | ⟨-, -, hlog' | hlog'⟩
        · exact hsame
        · rw [howner] at hnone
          cases hnone
        · rw [hlog] at hlog'
          simp at hlog'
        · rw [hlog] at hlog'
          simp at hlog'
      refine .inr ⟨i, hkept.trans howner, ?_⟩
      rw [hf.sequence_eq hactive (hb'.owner i (hkept.trans howner)), hsends.tx]

theorem Occupied.still (hocc : Occupied w) (h : Still p w w') : Occupied w' := by
  intro d hd
  rw [h.log] at hd
  rcases hocc d hd with hdone | ⟨j, hj, hseq⟩
  · exact .inl (by rwa [h.log])
  · exact .inr ⟨j, h.owner.trans hj, by rw [h.slots]; exact hseq⟩

/-- Effects of different transactions do not interleave, unless a transaction is deferred after its
first effect. -/
theorem dispatches_exclusive (h : Reachable c w) (hdefer : NeverDeferredLate w.log) :
    Exclusive w.log := by
  have hlog := dispatched_invariant (I := fun _ w => NeverDeferredLate w.log → Occupied w)
    (P := fun pre d => NeverDeferredLate pre → ∀ d', .dispatched d' ∈ pre → d'.tx ≠ d.tx →
      .completed d'.tx ∈ pre) ?_ ?_ ?_ ?_ h
  · intro pre e post hsplit d hd
    exact hlog pre e post hsplit d hd (Traced.of_append (hsplit ▸ hdefer))
  · intro ext pool state timeline _ d hd
    simp [initial] at hd
  · intro p w i p' w' hb ih hact hdefer
    obtain ⟨new, hnew, -⟩ := (hact.frame hb).log
    exact (ih (Traced.of_append (by rwa [hnew] at hdefer))).act hb hact hdefer
  · intro p w w' _ ih hstill hdefer
    rw [hstill.log] at hdefer
    exact (ih hdefer).still hstill
  · intro p w i d hb hocc hsends hdefer d' hmem hne
    rcases hocc hdefer d' hmem with hdone | ⟨j, hj, hseq⟩
    · exact hdone
    · obtain ⟨-, -, howner⟩ := hsends.owner hb
      obtain rfl := Option.some.inj (howner.symm.trans hj)
      exact absurd (hseq.symm.trans hsends.tx.symm) hne

/-! ### A device with two fields -/

namespace Bench

/-- A command with word fields. -/
def command (messageId cam : UInt32) (time : Timestamp) (fields : List (FieldId × UInt8)) : PacketView :=
  { envelope := { envelope :=
      { type := .command, streamId := some 1, timestamp := time
        command := some { cam, messageId } } }
    fields := fields.map fun f =>
      { id := f.1, attr := .current, kind := .values, bytes := [0, 0, 0, f.2] } }

/-- A command with the reference point, the sample rate and the state events, in the order of the wire. -/
def threeFields (messageId cam : UInt32) : PacketView :=
  let word (id : FieldId) (last : UInt8) : FieldView :=
    { id, attr := .current, kind := .values, bytes := [0, 0, 0, last] }
  { command messageId cam {} [] with
    fields := [word Field.referencePoint 1,
      { id := Field.sampleRate, attr := .current, kind := .values, bytes := [0, 0, 0, 0, 0, 16, 0, 0] },
      word Field.stateEvent 2] }

/-- Executed at once, or exactly at a time. -/
def immediate : UInt32 := 0x01000000

def timed : UInt32 := 0x01001000

def utc (seconds : UInt32) : Timestamp := { tsi := .utc, tsf := .picoseconds, integer := seconds }

/-- Effects are begun and completed later. -/
def config : Config Unit where
  transactions := 2
  profile := .genericVirtualTest
  backend := { start := some fun _ _ cap s => { value := true, next := s, actions := [.copy cap] } }

def start : Engine Unit := initial () { capacities := fun _ => 100000 } {} none

/-- A locked clock and the sample boundaries, in seconds. -/
def now (seconds : ℕ) (boundaries : List ℕ) : OperationContext where
  clock := { state := .locked, time := { seconds }, epoch := .utc }
  boundaries := boundaries.map fun b => { time := { seconds := b }, sampleOrdinal := b }
  timing := { deviceLatePs := 100000000000000, qualified := true, horizonNs := 100000000000 }

/-- The first field of a slot is executed with a value. -/
def execute (slot : ℕ) (id : FieldId) (value : UInt32) : Input Unit :=
  .backend ()
    [.claim { publisher := { slot := slot * 4, generation := 1 }, index := slot * 4 }
      { id, status := .executed, validity := .known, value := .word value }, .write 0]

/-- The kind of an event, and its transaction. -/
def mark : Event → ℕ × ℕ
  | .dispatched d => (1, d.tx)
  | .deferred tx => (2, tx)
  | .completed tx => (3, tx)
  | .blocked tx _ => (4, tx)
  | .disordered tx => (5, tx)
  | e => (0, e.tx)

theorem mark_dispatched {e : Event} {tx : ℕ} (h : mark e = (1, tx)) :
    ∃ d, e = .dispatched d ∧ d.tx = tx := by
  cases e with
  | dispatched d => exact ⟨d, rfl, congrArg Prod.snd h⟩
  | _ => cases h

/-- The entry at a position of a log whose marks are known. -/
theorem entry {log : List Event} {marks : List (ℕ × ℕ)} (h : log.map mark = marks) {k : ℕ}
    {m : ℕ × ℕ} (hk : marks[k]? = some m) : ∃ e, log[k]? = some e ∧ mark e = m := by
  rw [← h, List.getElem?_map, Option.map_eq_some_iff] at hk
  exact hk

theorem entry_before {log : List Event} {marks : List (ℕ × ℕ)} (h : log.map mark = marks) {k : ℕ}
    {m : ℕ × ℕ} (hm : m ∈ marks.take k) : ∃ e ∈ log.take k, mark e = m := by
  rw [← h, ← List.map_take, List.mem_map] at hm
  exact hm

theorem not_logged {log : List Event} {marks : List (ℕ × ℕ)} (h : log.map mark = marks) {e : Event}
    (hm : mark e ∉ marks) : e ∉ log := by
  intro he
  refine hm ?_
  rw [← h]
  exact List.mem_map_of_mem he

theorem not_before {log : List Event} {marks : List (ℕ × ℕ)} (h : log.map mark = marks) {k : ℕ}
    {e : Event} (hm : mark e ∉ marks.take k) : e ∉ log.take k := by
  have htake : (log.take k).map mark = marks.take k := by rw [List.map_take, h]
  exact not_logged htake hm

/-- Two fields at the time 10, of which the second is deferred to the time 30, and a second
transaction in between. -/
def deferral : List (Input Unit) :=
  [.accept (command 1 timed (utc 10) [(Field.referencePoint, 1), (Field.stateEvent, 2)]) (now 1 [10]),
    .accept (command 2 immediate {} [(Field.referencePoint, 5)]) (now 1 [10]),
    .progress (now 10 [10]), execute 0 Field.referencePoint 1, .progress (now 20 [30]),
    .progress (now 20 [30])]

theorem deferral_log : (run config start deferral).log.map mark =
    [(0, 1), (0, 2), (1, 1), (0, 1), (0, 1), (2, 1), (1, 2)] := by
  decide +kernel

/-- The same without a change of the boundary. -/
def sequential : List (Input Unit) :=
  [.accept (command 1 timed (utc 10) [(Field.referencePoint, 1)]) (now 1 [10]),
    .accept (command 2 immediate {} [(Field.referencePoint, 5)]) (now 1 [10]),
    .progress (now 10 [10]), execute 0 Field.referencePoint 1, .progress (now 20 [10]),
    .progress (now 20 [10])]

theorem sequential_log : (run config start sequential).log.map mark =
    [(0, 1), (0, 2), (1, 1), (0, 1), (0, 1), (3, 1), (1, 2)] := by
  decide +kernel

theorem never_deferred (pre post : List Event) (tx : ℕ) :
    (run config start sequential).log ≠ pre ++ .deferred tx :: post := by
  intro hlog
  have hmem : .deferred tx ∈ (run config start sequential).log := by
    rw [hlog]
    simp
  exact not_logged sequential_log (by simp [mark]) hmem

end Bench

open Bench in
/-- A transaction that is deferred after its first effect lets another one in. -/
theorem not_exclusive_deferred : ∃ w, Reachable config w ∧ ¬Exclusive w.log := by
  refine ⟨run config start deferral, ⟨(), _, {}, none, _, rfl⟩, fun h => ?_⟩
  obtain ⟨e, hk, he⟩ := entry deferral_log (k := 6) (m := (1, 2)) rfl
  obtain ⟨d, rfl, hd⟩ := mark_dispatched he
  obtain ⟨e', hbefore, he'⟩ := entry_before deferral_log (k := 6) (m := (1, 1)) (by decide)
  obtain ⟨d', rfl, hd'⟩ := mark_dispatched he'
  have hdone := h.get hk d rfl d' hbefore (by omega)
  exact not_before deferral_log (by rw [mark, hd']; decide) hdone

open Bench in
/-- The lane in a run without a deferral. -/
theorem dispatches_exclusive_sequential :
    Reachable config (run config start sequential) ∧
      NeverDeferredLate (run config start sequential).log ∧
      Exclusive (run config start sequential).log := by
  have hreachable : Reachable config (run config start sequential) := ⟨(), _, {}, none, _, rfl⟩
  have hdefer : NeverDeferredLate (run config start sequential).log := by
    rintro pre e post hlog tx rfl
    exact absurd hlog (never_deferred pre post tx)
  exact ⟨hreachable, hdefer, dispatches_exclusive hreachable hdefer⟩

/-! ## Freshness -/

/-- The first effect of a transaction is dispatched on a plan that was validated against the state at
that time. -/
def FreshFirst (log : List Event) : Prop :=
  Traced (fun pre e => ∀ d, e = .dispatched d → (∀ d', .dispatched d' ∈ pre → d'.tx ≠ d.tx) →
    d.plan.expectedStateVersion = d.version) log

/-- No transaction gives the lane back before its first effect. -/
def NeverDeferredEarly (log : List Event) : Prop :=
  Traced (fun pre e => ∀ tx, e = .deferred tx → ∃ d, .dispatched d ∈ pre ∧ d.tx = tx) log

/-- The transaction has had an effect. -/
def Effected (log : List Event) (s : Slot) : Prop := ∃ d, .dispatched d ∈ log ∧ d.tx = s.sequence

theorem Effected.mono {log new : List Event} {s s' : Slot} (hseq : s'.sequence = s.sequence)
    (h : Effected log s) : Effected (log ++ new) s' := by
  obtain ⟨d, hd, htx⟩ := h
  exact ⟨d, List.mem_append_left _ hd, htx.trans hseq.symm⟩

/-- A transaction in its turn has a plan for the present state; others cannot have an effect. -/
def UpToDate (c : Config σ) (p : Phase) (w : Engine σ) (j : ℕ) : Prop :=
  p.slot = some j ∧ (w.slots j).execution.expectedStateVersion = w.state.version ∨
    w.effectOwner = some j ∧ (uint64Max - 4 < w.state.version ∨ c.backend.start = none)

/-- A transaction that was validated again and has had no effect is up to date. -/
structure Pristine (c : Config σ) (p : Phase) (w : Engine σ) : Prop where
  slot : ∀ j, (w.slots j).live → (w.slots j).action = 2 → (w.slots j).revalidated →
    ¬Effected w.log (w.slots j) → UpToDate c p w j
  running : ∀ j, (w.slots j).active → (w.slots j).running → Effected w.log (w.slots j)
  batch : p.isBatch → ∀ j, p.slot = some j → Effected w.log (w.slots j)

theorem UpToDate.keep {j : ℕ} (h : UpToDate c p w j) (hphase : p.slot = some j → p'.slot = some j)
    (hplan : (w'.slots j).execution.expectedStateVersion = (w.slots j).execution.expectedStateVersion)
    (hstate : w'.state = w.state) (howner : w'.effectOwner = w.effectOwner) : UpToDate c p' w' j := by
  rcases h with ⟨hp, hv⟩ | ⟨ho, hv⟩
  · exact .inl ⟨hphase hp, by rw [hplan, hstate]; exact hv⟩
  · exact .inr ⟨howner.trans ho, by rw [hstate]; exact hv⟩

/-- The slot of another transaction stays up to date. -/
theorem UpToDate.other {i j : ℕ} (hb : Base c p w) (hact : Act c i p w p' w') (hj : j ≠ i)
    (h : UpToDate c p w j) : UpToDate c p' w' j := by
  have hf := hact.frame hb
  rcases h with ⟨hp, -⟩ | ⟨ho, hv⟩
  · exact absurd (hf.before j hp) hj
  · have hother : w.effectOwner ≠ some i := by
      rw [ho]
      exact fun heq => hj (Option.some.inj heq)
    refine .inr ⟨?_, ?_⟩
    · rcases hact.owner_cases hb with hsame | hnone | ⟨hi, -⟩
      · exact hsame.trans ho
      · rw [hnone] at ho
        cases ho
      · exact absurd hi hother
    · rcases hact.state_cases hb with hsame | ⟨hi, -⟩
      · rwa [hsame]
      · exact absurd hi hother

/-- A move for one slot keeps the others up to date. -/
theorem Pristine.act_of {i : ℕ} (hb : Base c p w) (hpr : Pristine c p w) (hact : Act c i p w p' w')
    (hslot : (w'.slots i).live → (w'.slots i).action = 2 → (w'.slots i).revalidated →
      ¬Effected w'.log (w'.slots i) → UpToDate c p' w' i)
    (hrunning : (w'.slots i).active → (w'.slots i).running → Effected w'.log (w'.slots i))
    (hbatch : p'.isBatch → Effected w'.log (w'.slots i)) : Pristine c p' w' := by
  have hf := hact.frame hb
  obtain ⟨new, hnew, -⟩ := hf.log
  refine ⟨fun j hlive haction hvalid hnot => ?_, fun j hactive hrun => ?_, fun hp j hj => ?_⟩
  · by_cases hj : j = i
    · subst hj
      exact hslot hlive haction hvalid hnot
    · rw [hf.slots j hj] at hlive haction hvalid hnot
      refine (hpr.slot j hlive haction hvalid fun h => hnot ?_).other hb hact hj
      rw [hnew]
      exact h.mono rfl
  · by_cases hj : j = i
    · subst hj
      exact hrunning hactive hrun
    · rw [hf.slots j hj] at hactive hrun ⊢
      rw [hnew]
      exact (hpr.running j hactive hrun).mono rfl
  · obtain rfl := hf.after j hj
    exact hbatch hp

/-- A move that changes nothing of the slot that matters here. -/
theorem Pristine.same {i : ℕ} (hb : Base c p w) (hpr : Pristine c p w) (hact : Act c i p w p' w')
    (hlive : (w'.slots i).live = (w.slots i).live) (hactive : (w'.slots i).active = (w.slots i).active)
    (hrequest : (w'.slots i).request = (w.slots i).request)
    (hvalid : (w'.slots i).revalidated = (w.slots i).revalidated)
    (hrunning : (w'.slots i).running = (w.slots i).running)
    (hseq : (w'.slots i).sequence = (w.slots i).sequence)
    (hplan : (w'.slots i).execution.expectedStateVersion = (w.slots i).execution.expectedStateVersion)
    (hstate : w'.state = w.state) (howner : w'.effectOwner = w.effectOwner)
    (hphase : p.slot = some i → p'.slot = some i) (hbatch : ¬p'.isBatch) : Pristine c p' w' := by
  obtain ⟨new, hnew, -⟩ := (hact.frame hb).log
  refine hpr.act_of hb hact (fun hl ha hv hnot => ?_) (fun ha hr => ?_) fun hp => absurd hp hbatch
  · rw [hlive] at hl
    rw [Slot.action, hrequest] at ha
    rw [hvalid] at hv
    refine (hpr.slot i hl ha hv fun h => hnot ?_).keep hphase hplan hstate howner
    rw [hnew]
    exact h.mono hseq
  · rw [hactive] at ha
    rw [hrunning] at hr
    rw [hnew]
    exact (hpr.running i ha hr).mono hseq

/-- A new boundary sends nothing. -/
theorem Pristine.rescheduled {i : ℕ} {s : Slot} (hb : Base c p w) (hpr : Pristine c p w)
    (hact : Act c i p w p' (w.setSlot i s)) (hp' : p'.slot = some i) (h : Rescheduled (w.slots i) s)
    (hbatch : ¬p'.isBatch) : Pristine c p' (w.setSlot i s) := by
  have hs := h.slot
  refine hpr.same hb hact ?_ ?_ ?_ ?_ ?_ ?_ ?_ rfl rfl (fun _ => hp') hbatch
  all_goals rw [setSlot_slots, Function.update_self]
  · simp only [Slot.live]
    rw [hs]
  · rw [hs]
  · rw [hs]
  · rw [hs]
  · rw [hs]
  · rw [hs]
  · exact h.plan.expected

/-- Every act keeps them so, where none is deferred before its first effect. -/
theorem Pristine.act {i : ℕ} (hb : Base c p w) (hpr : Pristine c p w) (h : Act c i p w p' w')
    (hdefer : NeverDeferredEarly w'.log) : Pristine c p' w' := by
  have hact := h
  have hf := h.frame hb
  obtain ⟨new, hnew, -⟩ := hf.log
  -- a transaction that has its first effect now
  have hsent : Effected w'.log (w'.slots i) → Pristine c p' w' := by
    intro he'
    exact hpr.act_of hb hact (fun _ _ _ hnot => absurd he' hnot) (fun _ _ => he') fun _ => he'
  -- a transaction that had an effect before
  have heffected : Effected w.log (w.slots i) → (w'.slots i).sequence = (w.slots i).sequence →
      Pristine c p' w' := by
    intro he hseq
    have he' : Effected w'.log (w'.slots i) := by
      rw [hnew]
      exact he.mono hseq
    exact hsent he'
  -- a slot without a transaction
  have hidle : (w'.slots i).active = false → ¬p'.isBatch → Pristine c p' w' := by
    intro hi hp
    refine hpr.act_of hb hact (fun hl => ?_) (fun ha => ?_) fun hb => absurd hb hp
    · rw [live_iff, hi] at hl
      cases hl.1
    · rw [hi] at ha
      cases ha
  cases h with
  | @settle _ t record port htake hfind =>
    obtain ⟨-, hactive, hrunning, -⟩ := findRunning_eq_some hfind
    refine heffected (hpr.running i hactive hrunning) (hf.sequence_eq hactive ?_)
    have happlied := consume_applied (c := c) port hfind
    obtain ⟨reported, heq, -⟩ := happlied
    obtain ⟨hyp, credits, revisions, hs⟩ := (applyOutcome_applied (c := c) true i
      (w.slots i).runningField reported (w.setPort port)).slots
    rw [heq, hs, Function.update_self, recordOutcome_eq]
    exact hactive
  | own hnone hlive haction =>
    refine hpr.act_of hb hact (fun hl ha hv hnot => ?_) (hpr.running i) (by simp [Phase.isBatch])
    rcases hpr.slot i hl ha hv hnot with ⟨hp, -⟩ | ⟨ho, -⟩
    · cases hp
    · rw [hnone] at ho
      cases ho
  | enter | query =>
    exact hpr.same hb hact rfl rfl rfl rfl rfl rfl rfl rfl rfl (by simp [Phase.slot])
      (by simp [Phase.isBatch])
  | unscheduled | single | exhaust =>
    exact hpr.same hb hact rfl rfl rfl rfl rfl rfl rfl rfl rfl (by simp [Phase.slot])
      (by simp [Phase.isBatch])
  | drain | pass | unready =>
    refine hpr.same hb hact ?_ ?_ ?_ ?_ ?_ ?_ ?_ rfl rfl (by simp [Phase.slot]) (by simp [Phase.isBatch])
    all_goals simp [cancelPending, skip, withdrawFour, Slot.live]
  | disarm | confirm =>
    exact hpr.same hb hact rfl rfl rfl rfl rfl rfl rfl rfl rfl (by simp [Phase.slot])
      (by simp [Phase.isBatch])
  | @revalidate _ now hnot =>
    obtain ⟨-, hs, hin⟩ := hb.turn rfl
    obtain ⟨s, env, new, heq, -, hr, -⟩ := revalidate_spec (c := c) hnot hs.count_le
    refine hpr.act_of hb hact (fun _ _ _ _ => .inl ⟨rfl, ?_⟩) (fun _ hrun => ?_)
      (by simp [Phase.isBatch])
    · rw [heq]
      simpa using hr.expected
    · rw [heq] at hrun
      simp only [Function.update_self] at hrun
      rw [hr.slot] at hrun
      exact absurd hrun hin.idle
  | @defer _ now hvalid hwaits =>
    have hr := reschedule_rescheduled (c := c) now (w.slots i)
    have hseq : (reschedule c now (w.slots i)).sequence = (w.slots i).sequence := by rw [hr.slot]
    rw [emit_log, NeverDeferredEarly, traced_concat] at hdefer
    obtain ⟨d, hd, htx⟩ := hdefer.2 _ rfl
    exact heffected ⟨d, hd, htx.trans hseq⟩ (by simpa using hseq)
  | @schedule _ now =>
    have hr := (reschedule_rescheduled (c := c) now (w.slots i)).trans (checkWindow_rescheduled now _)
    exact hpr.rescheduled hb hact rfl hr (by simp [Phase.isBatch])
  | boundary =>
    exact hpr.rescheduled hb hact rfl (validateBoundaryState_rescheduled _ _) (by simp [Phase.isBatch])
  | recheck =>
    obtain ⟨-, hs, hin⟩ := hb.turn rfl
    obtain ⟨s, env, new, heq, -, hr, -⟩ := revalidateBatch_spec (c := c) _ hs.count_le
    refine hpr.act_of hb hact (fun _ _ _ _ => .inl ⟨rfl, ?_⟩) (fun _ hrun => ?_)
      (by simp [Phase.isBatch])
    · rw [heq]
      simp only [setSlot_slots, Function.update_self]
      exact hr.expected
    · rw [heq] at hrun
      simp only [setSlot_slots, Function.update_self, withdrawFour] at hrun
      rw [hr.slot] at hrun
      exact absurd hrun hin.idle
  | commit =>
    obtain ⟨-, hs, -⟩ := hb.turn rfl
    obtain ⟨s, env, new, heq, -⟩ := revalidateBatch_spec (c := c) _ hs.count_le
    refine hsent ?_
    rw [heq]
    exact ⟨_, List.mem_append_right _ (List.mem_singleton.mpr rfl), rfl⟩
  | apply =>
    obtain ⟨hyp, credits, revisions, hs⟩ := (applyOutcome_applied (c := c) false i _ _ w).slots
    refine heffected (hpr.batch (by simp [Phase.isBatch]) i rfl) ?_
    rw [hs, Function.update_self, recordOutcome_eq]
  | unchanged => exact heffected (hpr.batch (by simp [Phase.isBatch]) i rfl) rfl
  | publish version event =>
    refine heffected (hpr.batch (by simp [Phase.isBatch]) i rfl) ?_
    rcases recordEvent_cases (c := c) i event { w with state := { w.state with version } } with
      heq | ⟨env, credits, revisions, -, heq⟩ <;> rw [heq]
    simp
  | @block _ field _ =>
    rcases blockField_cases i field w with heq | heq <;> rw [heq] at hact ⊢
    · exact hpr
    · refine hpr.same hb hact ?_ ?_ ?_ ?_ ?_ ?_ ?_ rfl rfl (fun h => h) (by simp [Phase.isBatch])
      all_goals simp [blockedSlot, Slot.live]
  | simulate reported _ _ _ haction =>
    obtain ⟨hyp, credits, revisions, hs⟩ := (applyOutcome_applied (c := c) true i _ reported w).slots
    refine hpr.act_of hb hact (fun _ h2 => ?_) (fun _ hrun => ?_) (by simp [Phase.isBatch])
    · rw [hs, Function.update_self, Slot.action, recordOutcome_eq] at h2
      exact absurd (haction.symm.trans h2) (by decide)
    · rw [hs, Function.update_self, recordOutcome_eq] at hrun
      cases hrun
  | stuck heligible hreason =>
    obtain ⟨hactive, -, hin⟩ := hb.turn rfl
    refine hpr.act_of hb hact (fun hl ha hv hnot => .inr ?_)
      (fun _ hrun => absurd hrun hin.idle) (by simp [Phase.isBatch])
    refine ⟨(hin.action (by simp [Phase.isClosing])).2 ha, ?_⟩
    rcases hreason with h | h | h
    · exact .inl h
    · exact .inr h
    · omega
  | start => exact hsent ⟨_, List.mem_append_right _ (List.mem_singleton.mpr rfl), by simp [dispatchField]⟩
  | finish now =>
    obtain ⟨-, -, hin⟩ := hb.turn rfl
    obtain ⟨s, env, hledger, -, heq⟩ := finish_spec (c := c) i now w
    rw [Slot.Ledger] at hledger
    refine hpr.act_of hb hact (fun hl => ?_) (fun _ hrun => ?_) (by simp [Phase.isBatch])
    · rw [heq, live_iff] at hl
      simp at hl
    · rw [heq] at hrun
      simp only [Function.update_self] at hrun
      rw [hledger] at hrun
      exact absurd hrun hin.idle
  | scratch _ hinactive => exact hidle (by simpa using hinactive) (by simp [Phase.isBatch])
  | reserve hi _ _ _ h =>
    obtain ⟨publisher, port, field, -, rfl⟩ := reserveTicket_spec h
    exact hidle (by simpa using hi) (by simp [Phase.isBatch])
  | drop hi => exact hidle (by simpa [dropTokens] using hi) (by simp [Phase.isBatch])
  | activate _ _ hfresh =>
    refine hpr.act_of hb hact (fun _ _ hv => ?_) (fun _ hrun => ?_) (by simp [Phase.isBatch])
    · simp [hfresh.revalidated] at hv
    · simp [hfresh.running] at hrun
  | release h =>
    obtain ⟨-, -, rfl⟩ := release_spec h
    exact hidle (by simp) (by simp [Phase.isBatch])

/-- So do the moves that leave the slots as they are. -/
theorem Pristine.still (hpr : Pristine c p w) (h : Still p w w') : Pristine c p w' := by
  refine ⟨fun j hl ha hv hnot => ?_, fun j ha hr => ?_, fun hp j hj => ?_⟩
  · rw [h.log] at hnot
    rw [h.slots j] at hl ha hv hnot
    rcases hpr.slot j hl ha hv hnot with ⟨hp, hver⟩ | ⟨ho, hver⟩
    · have hidle : p ≠ .idle := by
        rintro rfl
        cases hp
      exact .inl ⟨hp, by rw [h.slots j, (h.turn hidle).1]; exact hver⟩
    · refine .inr ⟨h.owner.trans ho, hver.imp_left fun hlt => ?_⟩
      exact lt_of_lt_of_le hlt (h.version j (live_iff.mp hl).1)
  · rw [h.slots j] at ha hr ⊢
    rw [h.log]
    exact hpr.running j ha hr
  · rw [h.slots j, h.log]
    exact hpr.batch hp j hj

/-- The first effect of a transaction is dispatched on a validation against the present state, unless
the transaction was deferred before. -/
theorem first_dispatch_fresh (h : Reachable c w) (hdefer : NeverDeferredEarly w.log) :
    FreshFirst w.log := by
  have hlog := dispatched_invariant (I := fun p w => NeverDeferredEarly w.log → Pristine c p w)
    (P := fun pre d => NeverDeferredEarly pre → (∀ d', .dispatched d' ∈ pre → d'.tx ≠ d.tx) →
      d.plan.expectedStateVersion = d.version) ?_ ?_ ?_ ?_ h
  · intro pre e post hsplit d hd
    exact hlog pre e post hsplit d hd (Traced.of_append (hsplit ▸ hdefer))
  · intro ext pool state timeline _
    refine ⟨fun j hl => ?_, fun j ha => ?_, fun hp => ?_⟩
    · simp [initial, Slot.live] at hl
    · simp [initial] at ha
    · simp [Phase.isBatch] at hp
  · intro p w i p' w' hb ih hact hdefer
    obtain ⟨new, hnew, -⟩ := (hact.frame hb).log
    exact (ih (Traced.of_append (by rwa [hnew] at hdefer))).act hb hact hdefer
  · intro p w w' _ ih hstill hdefer
    rw [hstill.log] at hdefer
    exact (ih hdefer).still hstill
  · intro p w i d hb hpr hsends hdefer hfirst
    obtain ⟨hactive, haction, -⟩ := hsends.owner hb
    cases hsends with
    | field hstart hbegun =>
      obtain ⟨-, -, hin⟩ := hb.turn rfl
      have hnot : ¬Effected w.log (w.slots i) := by
        rintro ⟨d, hd, htx⟩
        exact hfirst d hd htx
      rcases (hpr hdefer).slot i (live_iff.mpr ⟨hactive, hin.live⟩) haction
        (hin.valid (by simp [Phase.isValid])) hnot with ⟨-, hv⟩ | ⟨-, hv | hv⟩
      · exact hv
      · exact absurd hbegun.version (Nat.not_le_of_lt hv)
      · rw [hv] at hstart
        cases hstart
    | batch _ hplan => exact hplan.expected

namespace Bench

/-- A transaction is deferred to the time 30 after its validation, and another one changes the state
before it is executed. -/
def overtaken : List (Input Unit) :=
  [.accept (command 1 timed (utc 10) [(Field.referencePoint, 1)]) (now 1 [10]),
    .progress (now 20 [30]),
    .accept (command 2 immediate {} [(Field.stateEvent, 5)]) (now 21 [30]),
    .progress (now 21 [30]), execute 1 Field.stateEvent 5, .progress (now 30 [30]),
    .progress (now 30 [30])]

/-- The version that an effect expects, and that of the state. -/
def versions : Event → Option (ℕ × ℕ)
  | .dispatched d => some (d.plan.expectedStateVersion, d.version)
  | _ => none

theorem overtaken_log : (run config start overtaken).log.map mark =
    [(0, 1), (2, 1), (0, 2), (1, 2), (0, 2), (0, 2), (3, 2), (1, 1)] := by
  decide +kernel

theorem overtaken_versions : ((run config start overtaken).log[7]?).bind versions = some (0, 1) := by
  decide +kernel

end Bench

open Bench in
/-- A transaction that is deferred after its validation is executed on an older state. -/
theorem not_freshFirst_overtaken : ∃ w, Reachable config w ∧ ¬FreshFirst w.log := by
  refine ⟨run config start overtaken, ⟨(), _, {}, none, _, rfl⟩, fun h => ?_⟩
  obtain ⟨e, hk, he⟩ := entry overtaken_log (k := 7) (m := (1, 1)) rfl
  obtain ⟨d, rfl, hd⟩ := mark_dispatched he
  have hfirst : ∀ d', .dispatched d' ∈ (run config start overtaken).log.take 7 → d'.tx ≠ d.tx := by
    intro d' hd' htx
    refine not_before overtaken_log ?_ hd'
    rw [mark, htx, hd]
    decide
  have hfresh := h.get hk d rfl hfirst
  have hversions := overtaken_versions
  rw [hk] at hversions
  simp only [versions, Option.bind_some, Option.some.injEq, Prod.mk.injEq] at hversions
  omega

open Bench in
/-- The versions in a run without a deferral. -/
theorem first_dispatch_fresh_sequential :
    Reachable config (run config start sequential) ∧
      NeverDeferredEarly (run config start sequential).log ∧
      FreshFirst (run config start sequential).log := by
  have hreachable : Reachable config (run config start sequential) := ⟨(), _, {}, none, _, rfl⟩
  have hdefer : NeverDeferredEarly (run config start sequential).log := by
    rintro pre e post hlog tx rfl
    exact absurd hlog (never_deferred pre post tx)
  exact ⟨hreachable, hdefer, first_dispatch_fresh hreachable hdefer⟩

end Vita.Transaction.Engine
