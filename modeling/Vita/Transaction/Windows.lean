import Vita.Transaction.Lane

/-!
# Timed effects

A timed command is dispatched when its boundary has come, on a usable clock and inside the window of its
timing mode. The window is checked in the turn that dispatches, so it holds again for every field.

Main results:
- `reschedule_valid`: what a valid schedule means;
- `dispatches_timely`: every dispatch of a timed command is inside its window.
-/

namespace Vita.Transaction.Engine

open Checked Timing State Codec Trace

variable {σ : Type} {c : Config σ} {p p' : Phase} {w w' : Engine σ}

/-! ## Windows -/

/-- The clock's time with its uncertainty lies inside the execution window of a timed command. -/
def WithinWindow (mode : ℕ) (requested : ProtocolTime) (clock : ClockSnapshot)
    (timing : TimingCapabilities) : Prop :=
  ∃ first last window, subtract clock.time (.fromPicoseconds clock.uncertaintyPs) = .ok first ∧
    add clock.time (.fromPicoseconds clock.uncertaintyPs) = .ok last ∧
    executionWindow mode requested timing = .ok window ∧
    ¬first.before window.earliest ∧ ¬window.latest.before last

/-- A time that the check accepts is within the window. -/
theorem within_of_inWindow {mode : ℕ} {requested : ProtocolTime} {clock : ClockSnapshot}
    {timing : TimingCapabilities} (hmode : mode ≠ 0)
    (h : inWindow mode requested clock.time clock.uncertaintyPs timing) :
    WithinWindow mode requested clock timing := by
  unfold inWindow at h
  rcases hfirst : subtract clock.time (.fromPicoseconds clock.uncertaintyPs) with err | first
  · simp [hfirst] at h
  · rcases hlast : add clock.time (.fromPicoseconds clock.uncertaintyPs) with err | last
    · simp [hfirst, hlast] at h
    · simp only [hfirst, hlast, decide_eq_true_eq, effectIntervalAllowed, bind_eq_ok] at h
      obtain ⟨_, -, hinside⟩ := h
      rw [if_neg hmode] at hinside
      simp only [bind_eq_ok, pure_eq_ok, Except.ok.injEq, decide_eq_true_eq] at hinside
      obtain ⟨window, hwindow, hinside⟩ := hinside
      exact ⟨first, last, window, hfirst, hlast, hwindow, hinside.1, hinside.2⟩

/-- What holds of all candidates holds of the selected one. -/
def Selection.All (P : Boundary → Prop) (s : Selection) : Prop := ∀ b ∈ s.selected, P b

/-- What holds of the boundary considered holds of the selection. -/
theorem considerTimed_all {P : Boundary → Prop} {clock : ClockSnapshot} {requested : ProtocolTime}
    {window : ExecutionWindow} {s s' : Selection} {b : Boundary} (hs : Selection.All P s) (hb : P b)
    (h : considerTimed clock requested window s b = .ok s') : Selection.All P s' := by
  have hnew (d : Duration) : Selection.All P { selected := b, distance := d } := by
    intro x hx
    cases hx
    exact hb
  unfold considerTimed at h
  simp only [bind_eq_ok] at h
  obtain ⟨_, -, h⟩ := h
  split at h
  · split at h
    · cases h
      exact hs
    · split at h
      all_goals
        simp only [bind_eq_ok] at h
        obtain ⟨d, -, h⟩ := h
        split at h
        · cases h
          exact hnew d
        · split at h
          · cases h
            exact hnew d
          · cases h
            exact hs
  · cases h
    exact hs

/-- What holds of all boundaries holds of the selected ones. -/
theorem foldlM_considerTimed_all {P : Boundary → Prop} {clock : ClockSnapshot}
    {requested : ProtocolTime} {window : ExecutionWindow} {boundaries : List Boundary}
    (hall : ∀ b ∈ boundaries, P b) {s s' : Selection} (hs : Selection.All P s)
    (h : boundaries.foldlM (considerTimed clock requested window) s = .ok s') :
    Selection.All P s' := by
  induction boundaries generalizing s with
  | nil =>
    cases h
    exact hs
  | cons b rest ih =>
    rw [List.foldlM_cons, bind_eq_ok] at h
    obtain ⟨s₁, hfirst, hrest⟩ := h
    exact ih (fun x hx => hall x (List.mem_cons_of_mem _ hx))
      (considerTimed_all hs (hall b List.mem_cons_self) hfirst) hrest

/-- A boundary that is chosen for a timed command belongs to the mapping of the clock. -/
theorem chooseBoundary_generation {mode : ℕ} {requested : ProtocolTime} {clock : ClockSnapshot}
    {boundaries : List Boundary} {timing : TimingCapabilities} {b : Boundary} (hmode : mode ≠ 0)
    (h : chooseBoundary mode requested clock boundaries timing = .ok b) :
    b.mappingGeneration = clock.mappingGeneration := by
  have hempty : Selection.All (fun b => b.mappingGeneration = clock.mappingGeneration) {} := by
    intro x hx
    cases hx
  have hall (ready horizon : ProtocolTime) : ∀ x ∈ boundaries.filter (candidate mode clock ready horizon),
      x.mappingGeneration = clock.mappingGeneration := by
    intro x hx
    have hx := (List.mem_filter.mp hx).2
    simp only [candidate, decide_eq_true_eq] at hx
    exact hx.2.2.2.1
  simp only [chooseBoundary, hmode, bind_eq_ok, ne_eq, not_false_eq_true, if_true] at h
  obtain ⟨_, -, _, -, _, -, ready, -, horizon, -, _, -, window, -, selection, hfold, h⟩ := h
  have hselected := foldlM_considerTimed_all (hall ready horizon) hempty hfold
  split at h
  · cases h
  · next b' hb' =>
    cases h
    exact hselected _ hb'

/-! ## Schedules -/

/-- The step of `reschedule` that chooses a boundary again. -/
def rechosen (c : Config σ) (now : OperationContext) (s : Slot) : Slot :=
  if ¬s.scheduleValid ∨ s.execution.boundary.mappingGeneration ≠ now.clock.mappingGeneration then
    match chooseBoundary s.request.cam.timing s.requestedTime now.clock (candidates c now s)
      s.timing with
    | .ok boundary => setBoundary { s with scheduleValid := true } boundary
    | .error _ => { s with scheduleValid := false }
  else s

/-- A boundary that is chosen again is of the present mapping. -/
theorem rechosen_valid (now : OperationContext) {s : Slot} (htimed : s.request.cam.timing ≠ 0) :
    (rechosen c now s).request = s.request ∧ ((rechosen c now s).scheduleValid →
      (rechosen c now s).execution.boundary.mappingGeneration = now.clock.mappingGeneration) := by
  unfold rechosen
  by_cases hstale : ¬s.scheduleValid ∨
      s.execution.boundary.mappingGeneration ≠ now.clock.mappingGeneration
  · rw [if_pos hstale]
    rcases hchosen : chooseBoundary s.request.cam.timing s.requestedTime now.clock
      (candidates c now s) s.timing with err | boundary
    · exact ⟨rfl, fun h => by cases h⟩
    · exact ⟨rfl, fun _ => chooseBoundary_generation htimed hchosen⟩
  · rw [if_neg hstale]
    exact ⟨rfl, fun _ => not_not.mp fun h => hstale (.inr h)⟩

/-- The slot with the boundary that is checked for the clock's mapping. -/
theorem reschedule_rechosen (now : OperationContext) (s : Slot) : ∃ s', s'.request = s.request ∧
    reschedule c now s = if qualified now (rechosen c now s') then rechosen c now s'
      else { rechosen c now s' with scheduleValid := false } := by
  have hrequest : ∀ s₁ : Slot, s₁.request = s.request →
      (if boundaryAvailable c now s₁ then s₁ else { s₁ with scheduleValid := false }).request =
        s.request := by
    intro s₁ h₁
    split <;> exact h₁
  refine ⟨_, hrequest _ ?_, rfl⟩
  split <;> rfl

/-- A valid schedule is one on a usable clock, with a boundary of its mapping. -/
theorem reschedule_valid {now : OperationContext} {s : Slot} (htimed : s.request.cam.timing ≠ 0)
    (h : (reschedule c now s).scheduleValid) :
    now.clock.usable ∧ (reschedule c now s).execution.boundary.mappingGeneration =
      now.clock.mappingGeneration := by
  obtain ⟨s', hrequest, heq⟩ := reschedule_rechosen (c := c) now s
  obtain ⟨hsame, hgeneration⟩ := rechosen_valid (c := c) now (s := s') (by rw [hrequest]; exact htimed)
  rw [heq] at h ⊢
  by_cases hqualified : qualified now (rechosen c now s')
  · rw [if_pos hqualified] at h ⊢
    refine ⟨?_, hgeneration h⟩
    simp only [qualified, decide_eq_true_eq] at hqualified
    rw [hsame, hrequest] at hqualified
    rcases hqualified with ⟨hzero, -⟩ | ⟨husable, -⟩
    · exact absurd hzero htimed
    · exact husable
  · rw [if_neg hqualified] at h
    cases h

/-! ## The gate -/

/-- A timed command is let through: its boundary has come, on a usable clock, inside the window. -/
structure Timely (mode : ℕ) (requested : ProtocolTime) (timing : TimingCapabilities)
    (boundary : Boundary) (clock : ClockSnapshot) : Prop where
  usable : clock.usable
  due : ¬clock.time.before boundary.time
  generation : boundary.mappingGeneration = clock.mappingGeneration
  window : WithinWindow mode requested clock timing

/-- As long as there is a field to dispatch, the transaction was let through. -/
def Gate (now : OperationContext) (s : Slot) : Prop :=
  s.action = 2 → s.request.cam.timing ≠ 0 → ∀ f < s.execution.count, s.eligible f → ¬s.cancelled f →
    Timely s.request.cam.timing s.requestedTime s.timing s.execution.boundary now.clock

/-- A narrower plan with the same boundary. -/
theorem Gate.narrow {now : OperationContext} {s s' : Slot} (h : Gate now s)
    (hrequest : s'.request = s.request) (htime : s'.requestedTime = s.requestedTime)
    (htiming : s'.timing = s.timing) (hcancelled : s'.cancelled = s.cancelled)
    (hboundary : s'.execution.boundary = s.execution.boundary)
    (hplan : Narrows s.execution s'.execution) : Gate now s' := by
  intro haction htimed f hf heligible hcancel
  rw [Slot.action, hrequest] at haction
  rw [hrequest] at htimed
  rw [hplan.count] at hf
  rw [hcancelled] at hcancel
  rw [hrequest, htime, htiming, hboundary]
  exact h haction htimed f hf (hplan.eligible f heligible) hcancel

/-- The check of the schedule lets a transaction through, or leaves nothing to dispatch. -/
theorem gate_checkWindow {now : OperationContext} {s : Slot}
    (hwaits : ¬waits now (reschedule c now s)) :
    Gate now (checkWindow now (reschedule c now s)) := by
  have hslot := (reschedule_rescheduled (c := c) now s).slot
  have hvalid : s.request.cam.timing ≠ 0 → (reschedule c now s).scheduleValid → _ := reschedule_valid
  generalize reschedule c now s = s₁ at hwaits hslot hvalid
  have hrequest : s₁.request = s.request := by rw [hslot]
  have hwithdrawn : ∀ s₂ : Slot, Gate now
      { s₂ with execution := withdrawAll s₂.execution (timingError ||| notExecuted) } :=
    fun s₂ _ _ f hf heligible => absurd heligible (withdrawAll_eligible hf)
  unfold checkWindow
  dsimp only
  by_cases hmissed : s₁.scheduleValid ∧ s₁.action = 2 ∧ s₁.request.cam.timing ≠ 0 ∧
      ¬inWindow s₁.request.cam.timing s₁.requestedTime now.clock.time now.clock.uncertaintyPs s₁.timing
  · rw [if_pos hmissed, if_neg Bool.false_ne_true]
    exact hwithdrawn _
  · rw [if_neg hmissed]
    by_cases hscheduled : s₁.scheduleValid
    · rw [if_pos hscheduled]
      intro haction htimed f hf heligible hcancel
      obtain ⟨husable, hgeneration⟩ := hvalid (hrequest ▸ htimed) hscheduled
      refine ⟨husable, fun hbefore => ?_, hgeneration, ?_⟩
      · refine hwaits ?_
        simp only [waits, decide_eq_true_eq]
        exact ⟨hscheduled, haction, hbefore, f, List.mem_range.mpr hf, heligible, hcancel⟩
      · refine within_of_inWindow htimed ?_
        by_contra hout
        exact hmissed ⟨hscheduled, haction, htimed, hout⟩
    · rw [if_neg hscheduled]
      exact hwithdrawn s₁

/-! ## The invariant -/

/-- The request and the timing capabilities of a transaction are those of its admission. -/
def AdmittedWith (log : List Event) (s : Slot) : Prop :=
  s.requestedTime = s.request.time ∧
    ∃ now, .admitted s.sequence s.request now ∈ log ∧ s.timing = now.timing

theorem AdmittedWith.mono {log new : List Event} {s s' : Slot} (h : AdmittedWith log s)
    (htenure : Tenure s s') (hseq : s'.sequence = s.sequence) : AdmittedWith (log ++ new) s' := by
  obtain ⟨htime, now, hmem, htiming⟩ := h
  refine ⟨?_, now, ?_, ?_⟩
  · rw [htenure.requestedTime, htenure.request]
    exact htime
  · rw [hseq, htenure.request]
    exact List.mem_append_left _ hmem
  · rw [htenure.timing]
    exact htiming

/-- Where the turn of a transaction is behind the check of its schedule. -/
def Phase.gated : Phase → Option (ℕ × OperationContext)
  | .checked i now | .walking i now => some (i, now)
  | _ => none

structure TimedInv (p : Phase) (w : Engine σ) : Prop where
  admitted : ∀ j, (w.slots j).active → AdmittedWith w.log (w.slots j)
  gate : ∀ i now, p.gated = some (i, now) → Gate now (w.slots i)

/-- The check of the boundary does not move it. -/
theorem validateBoundaryState_boundary (timeline : Option SampleTimeline) (s : Slot) :
    (validateBoundaryState c timeline s).execution.boundary = s.execution.boundary := by
  unfold validateBoundaryState
  split
  · rfl
  · split
    · rfl
    · dsimp only
      split <;> rfl

theorem gate_boundary {now : OperationContext} {s : Slot} (timeline : Option SampleTimeline)
    (h : Gate now s) : Gate now (validateBoundaryState c timeline s) := by
  have hslot := (validateBoundaryState_rescheduled (c := c) timeline s).slot
  refine h.narrow ?_ ?_ ?_ ?_ (validateBoundaryState_boundary timeline s)
    (validateBoundaryState_narrows timeline s)
  all_goals rw [hslot]

/-- A move to a phase behind the check of the schedule leaves the transaction let through. -/
theorem gate_act {i : ℕ} {now : OperationContext} (hb : Base c p w)
    (hgate : p.gated = some (i, now) → Gate now (w.slots i)) (h : Act c i p w p' w')
    (hp : p'.gated = some (i, now)) : Gate now (w'.slots i) := by
  have hbase := hb.act h
  have htenure := h.tenure hb
  cases h with
  | schedule _ hwaits =>
    cases hp
    rw [setSlot_slots, Function.update_self]
    exact gate_checkWindow hwaits
  | unscheduled _ hnot =>
    -- a command without a boundary is not timed
    intro _ htimed
    refine absurd ?_ hnot
    simp only [scheduled, decide_eq_true_eq]
    exact .inl htimed
  | boundary =>
    rw [setSlot_slots, Function.update_self]
    exact gate_boundary _ (hgate hp)
  | single => exact hgate hp
  | unready =>
    rw [setSlot_slots, Function.update_self]
    exact (hgate hp).narrow rfl rfl rfl rfl rfl (withdrawFour_narrows _)
  | recheck hready =>
    -- the batch is refused, so nothing of it is dispatched
    obtain ⟨hactive, hslot, -⟩ := hb.turn rfl
    obtain ⟨hactive', hslot', hin⟩ := hbase.turn rfl
    have hrequest := (htenure hactive hactive').request
    intro haction _ f _ heligible
    refine absurd heligible (hin.refused (by simp [Phase.isWalking]) ?_ f)
    have hbatch := hready.batch
    simp only [Slot.isBatch, decide_eq_true_eq] at hbatch ⊢
    rw [hslot'.count, hrequest, ← hslot.count]
    exact ⟨hbatch.1, hbatch.2.1, haction⟩
  | pass =>
    rw [setSlot_slots, Function.update_self]
    exact (hgate hp).narrow rfl rfl rfl rfl rfl (.refl _)
  | @block _ field _ =>
    rcases blockField_cases i field w with heq | heq <;> rw [heq]
    · exact hgate hp
    · dsimp only
      rw [Function.update_self]
      exact (hgate hp).narrow rfl rfl rfl rfl rfl (blockedSlot_narrowed _ _).plan
  | simulate reported _ _ _ haction =>
    obtain ⟨hypothetical, credits, revisions, hs⟩ :=
      (applyOutcome_applied (c := c) true i _ reported w).slots
    intro hlive
    rw [hs, Function.update_self, Slot.action, recordOutcome_eq] at hlive
    exact absurd (haction.symm.trans hlive) (by decide)
  | _ => cases hp

/-- Every act keeps the times that were admitted, and the gate of a timed turn. -/
theorem TimedInv.act {i : ℕ} (hb : Base c p w) (hi : TimedInv p w) (h : Act c i p w p' w') :
    TimedInv p' w' := by
  have hframe := h.frame hb
  have htenure := h.tenure hb
  obtain ⟨new, hlog, -⟩ := hframe.log
  refine ⟨fun j hj => ?_, fun j now hp => ?_⟩
  · rw [hlog]
    by_cases hji : j = i
    · subst hji
      rcases hframe.sequence hj with ⟨hactive, hseq, -⟩ | ⟨hidle, -, -⟩
      · exact (hi.admitted j hactive).mono (htenure hactive hj) hseq
      · -- the transaction is admitted now
        obtain ⟨now, hnow⟩ := h.activated hb hidle hj
        obtain ⟨credits, hs⟩ := hnow.slot
        rw [← hlog, hnow.log, hs]
        exact ⟨hnow.fresh.requested, now, by simp, hnow.fresh.timing⟩
    · rw [hframe.slots j hji] at hj ⊢
      exact (hi.admitted j hj).mono (.refl _) rfl
  · have hslot : p'.slot = some j := by
      cases p' <;> cases hp <;> rfl
    obtain rfl := hframe.after j hslot
    exact gate_act hb (hi.gate j now) h hp

/-- Moves that leave the transactions keep their times. -/
theorem TimedInv.still (hi : TimedInv p w) (h : Still p w w') : TimedInv p w' := by
  refine ⟨fun j hj => ?_, fun j now hp => ?_⟩
  · rw [h.slots j] at hj ⊢
    rw [h.log]
    exact hi.admitted j hj
  · have hidle : p ≠ .idle := by
      rintro rfl
      cases hp
    refine (hi.gate j now hp).narrow ?_ ?_ ?_ ((h.turn hidle).2 j).1 ?_ ?_
    all_goals rw [h.slots j]
    exact .refl _

/-! ## Dispatches -/

/-- Every effect of a timed command is dispatched in time, with the requested time and the timing
capabilities of its admission. -/
def TimelyDispatches (log : List Event) : Prop :=
  Traced (fun pre e => ∀ d, e = .dispatched d → d.cam.timing ≠ 0 → ∃ request now,
    .admitted d.tx request now ∈ pre ∧ request.cam = d.cam ∧
      Timely d.cam.timing request.time now.timing d.plan.boundary d.now.clock) log

/-- The transaction that dispatches was let through. -/
theorem Sends.timely {i : ℕ} {d : Dispatch} (hb : Base c p w) (hi : TimedInv p w)
    (h : Sends c i w p d) (htimed : d.cam.timing ≠ 0) :
    d.cam = (w.slots i).request.cam ∧ Timely d.cam.timing (w.slots i).requestedTime (w.slots i).timing
      d.plan.boundary d.now.clock := by
  obtain ⟨hactive, haction, -⟩ := h.owner hb
  cases h with
  | @field now f _ hbegun =>
    have hf := ((hb.slot i hactive).sound f hbegun.eligible).1
    exact ⟨rfl, hi.gate i now rfl haction htimed f hf hbegun.eligible hbegun.cancelled⟩
  | @batch now s hready hplan =>
    have hcount := (isBatch_count hready.batch).1
    refine ⟨rfl, ?_⟩
    rw [hplan.boundary]
    exact hi.gate i now rfl haction htimed 0 (by omega) (hready.eligible 0 (by decide))
      (hready.cancelled 0 (by decide))

/-- Timed commands are dispatched only inside their window. -/
theorem dispatches_timely (h : Reachable c w) : TimelyDispatches w.log := by
  refine dispatched_invariant (I := TimedInv) (P := fun pre d => d.cam.timing ≠ 0 → ∃ request now,
    .admitted d.tx request now ∈ pre ∧ request.cam = d.cam ∧
      Timely d.cam.timing request.time now.timing d.plan.boundary d.now.clock) ?_ ?_ ?_ ?_ h
  · intro ext pool state timeline
    refine ⟨fun j hj => ?_, fun i now hp => ?_⟩
    · simp [initial] at hj
    · cases hp
  · intro p w i p' w' hb hi hact
    exact hi.act hb hact
  · intro p w w' _ hi hstill
    exact hi.still hstill
  · intro p w i d hb hi hsends htimed
    obtain ⟨hactive, -, -⟩ := hsends.owner hb
    obtain ⟨htime, now, hadmitted, htiming⟩ := hi.admitted i hactive
    obtain ⟨hcam, htimely⟩ := hsends.timely hb hi htimed
    refine ⟨(w.slots i).request, now, ?_, hcam.symm, ?_⟩
    · rw [hsends.tx]
      exact hadmitted
    · rw [← htime, ← htiming]
      exact htimely

namespace Bench

/-- The timing mode of a dispatched effect. -/
def timingMode : Event → Option ℕ
  | .dispatched d => some d.cam.timing
  | _ => none

theorem sequential_timed : ((run config start sequential).log[2]?).bind timingMode = some 1 := by
  decide +kernel

end Bench

open Bench in
/-- A run with a timed effect. -/
theorem dispatches_timely_sequential : Reachable config (run config start sequential) ∧
    ((run config start sequential).log[2]?).bind timingMode = some 1 ∧
      TimelyDispatches (run config start sequential).log := by
  have hreachable : Reachable config (run config start sequential) := ⟨(), _, {}, none, _, rfl⟩
  exact ⟨hreachable, sequential_timed, dispatches_timely hreachable⟩

end Vita.Transaction.Engine
