import Vita.Profiles.Sweep

/-!
# What a sweep visits

A sweep goes through its points in their order, again for each sweep, and leaves a point only on
evidence and after the dwell (`Visited`). The number of completed points is that of the points that were
finished, as far as 64 bits can count them.

Main result: `SweepPolicy.sweep_exact`.
-/

namespace Vita.Profiles

open Checked Timing Timing.Word64

/-! ## The points -/

namespace SweepConfig

/-- The number of points of one sweep. -/
def points (c : SweepConfig) : ℕ := (c.stopHz - c.startHz) / c.stepHz + 1

/-- The point that is visited after `k` others. -/
def point (c : SweepConfig) (k : ℕ) : ℕ := c.startHz + k % c.points * c.stepHz

structure Valid (c : SweepConfig) : Prop where
  stop_le : c.stopHz ≤ 6000000000
  start_le : c.startHz ≤ c.stopHz
  step_pos : 0 < c.stepHz
  sweeps_pos : 0 < c.sweeps

variable {c : SweepConfig}

theorem Valid.lt_points (h : c.Valid) {j : ℕ} : j < c.points ↔ c.startHz + j * c.stepHz ≤ c.stopHz := by
  have hstart := h.start_le
  rw [points, Nat.lt_succ_iff, Nat.le_div_iff_mul_le h.step_pos]
  omega

theorem point_eq {i j : ℕ} (hj : j < c.points) : c.point (i * c.points + j) = c.startHz + j * c.stepHz := by
  rw [point, Nat.mul_comm i, Nat.mul_add_mod, Nat.mod_eq_of_lt hj]

end SweepConfig

/-! ## Logs -/

namespace Visit

/-- The frequencies of a log. -/
def freqs (log : List Visit) : List ℕ :=
  log.filterMap fun
    | .tuned hz _ => some hz
    | _ => none

def isFinished : Visit → Bool
  | .finished _ => true
  | _ => false

/-- How many points were finished. -/
def finishedCount (log : List Visit) : ℕ := log.countP isFinished

/-- Evidence, which neither begins nor ends a point. -/
def isNote : Visit → Bool
  | .executed _ _ | .read _ _ => true
  | _ => false

/-- The point that was returned at `start` may be left at `now`: before its deadline it was really
executed and read back, and then the dwell went by. -/
def Proven (c : SweepConfig) (hz start : ℕ) (between : List Visit) (now : ℕ) : Prop :=
  ∃ evidence t t', .executed evidence t ∈ between ∧ evidence.real ∧ .read hz t' ∈ between ∧
    (start ≤ t ∧ t < start + c.timeoutNs) ∧ (start ≤ t' ∧ t' < start + c.timeoutNs) ∧
    max t t' + c.dwellNs ≤ now

/-- The logs of sweeps. -/
inductive Visited (c : SweepConfig) : List Visit → Prop
  | nil : Visited c []
  | note {log : List Visit} {v : Visit} (h : Visited c log) (hv : v.isNote) : Visited c (log ++ [v])
  | finished {before between : List Visit} {hz start now : ℕ}
    (h : Visited c (before ++ .tuned hz start :: between)) (hquiet : ∀ v ∈ between, v.isNote)
    (hproven : Proven c hz start between now) :
    Visited c (before ++ .tuned hz start :: between ++ [.finished now])
  | tuned {log : List Visit} {hz now : ℕ} (h : Visited c log)
    (hbefore : log = [] ∨ ∃ l t, log = l ++ [.finished t]) : Visited c (log ++ [.tuned hz now])

variable {c : SweepConfig} {log : List Visit} {v : Visit}

/-- Where an element stands in a longer log. -/
theorem split_last {before after : List Visit} {x : Visit} (h : before ++ x :: after = log ++ [v]) :
    (after = [] ∧ before = log ∧ x = v) ∨ ∃ rest, after = rest ++ [v] ∧ before ++ x :: rest = log := by
  rcases List.eq_nil_or_concat after with rfl | ⟨rest, y, rfl⟩
  · obtain ⟨hlog, hv⟩ := List.append_inj' h rfl
    exact .inl ⟨rfl, hlog, List.singleton_inj.mp hv⟩
  · rw [List.concat_eq_append, ← List.cons_append, ← List.append_assoc] at h
    obtain ⟨hlog, hv⟩ := List.append_inj' h rfl
    obtain rfl := List.singleton_inj.mp hv
    exact .inr ⟨rest, List.concat_eq_append, hlog⟩

/-- A finished point was returned and proven before. -/
theorem Visited.proven (h : Visited c log) {before after : List Visit} {now : ℕ}
    (hlog : before ++ .finished now :: after = log) : ∃ first hz start between,
      before = first ++ .tuned hz start :: between ∧ (∀ v ∈ between, v.isNote) ∧
        Proven c hz start between now := by
  induction h generalizing after with
  | nil => simp at hlog
  | note h hv ih =>
    rcases split_last hlog with ⟨-, -, rfl⟩ | ⟨rest, -, hrest⟩
    · cases hv
    · exact ih hrest
  | finished h hquiet hproven ih =>
    rcases split_last hlog with ⟨-, rfl, heq⟩ | ⟨rest, -, hrest⟩
    · obtain rfl := Visit.finished.inj heq
      exact ⟨_, _, _, _, rfl, hquiet, hproven⟩
    · exact ih hrest
  | tuned h hbefore ih =>
    rcases split_last hlog with ⟨-, -, heq⟩ | ⟨rest, -, hrest⟩
    · cases heq
    · exact ih hrest

/-- A point that is not the first is returned right after another one is finished. -/
theorem Visited.next (h : Visited c log) {before after : List Visit} {hz now : ℕ}
    (hlog : before ++ .tuned hz now :: after = log) :
    before = [] ∨ ∃ l t, before = l ++ [.finished t] := by
  induction h generalizing after with
  | nil => simp at hlog
  | note h hv ih =>
    rcases split_last hlog with ⟨-, -, rfl⟩ | ⟨rest, -, hrest⟩
    · cases hv
    · exact ih hrest
  | finished h hquiet hproven ih =>
    rcases split_last hlog with ⟨-, -, heq⟩ | ⟨rest, -, hrest⟩
    · cases heq
    · exact ih hrest
  | tuned h hbefore ih =>
    rcases split_last hlog with ⟨-, rfl, -⟩ | ⟨rest, -, hrest⟩
    · exact hbefore
    · exact ih hrest

theorem freqs_note (hv : v.isNote) : freqs (log ++ [v]) = freqs log := by
  cases v with
  | executed _ _ | read _ _ => simp [freqs]
  | _ => cases hv

@[simp] theorem freqs_finished (log : List Visit) (now : ℕ) :
    freqs (log ++ [.finished now]) = freqs log := by
  simp [freqs]

@[simp] theorem freqs_tuned (log : List Visit) (hz now : ℕ) :
    freqs (log ++ [.tuned hz now]) = freqs log ++ [hz] := by
  simp [freqs]

theorem finishedCount_note (hv : v.isNote) : finishedCount (log ++ [v]) = finishedCount log := by
  cases v with
  | executed _ _ | read _ _ => simp [finishedCount, isFinished]
  | _ => cases hv

@[simp] theorem finishedCount_finished (log : List Visit) (now : ℕ) :
    finishedCount (log ++ [.finished now]) = finishedCount log + 1 := by
  simp [finishedCount, isFinished]

@[simp] theorem finishedCount_tuned (log : List Visit) (hz now : ℕ) :
    finishedCount (log ++ [.tuned hz now]) = finishedCount log := by
  simp [finishedCount, isFinished]

end Visit

namespace SweepPolicy

open Visit SweepConfig

/-! ## The invariant -/

/-- The counters, behind some frequencies of the current sweep. -/
structure Standing (s : SweepPolicy) (returned : ℕ) : Prop where
  counted : finishedCount s.log = s.completed
  sweeps_le : s.completedSweeps ≤ s.completed
  position : ∃ j, j < s.config.points ∧ s.current = s.config.startHz + j * s.config.stepHz ∧
    (freqs s.log).length = s.completedSweeps * s.config.points + j + returned
  sweepsLeft : ¬s.config.continuous → s.completedSweeps < s.config.sweeps

/-- The evidence that has come in for a point returned at `start`. -/
structure Awaiting (s : SweepPolicy) (start : ℕ) (between : List Visit) : Prop where
  deadline : s.deadline = start + s.config.timeoutNs
  execution : s.execution → ∃ evidence t, .executed evidence t ∈ between ∧ evidence.real ∧
    (start ≤ t ∧ t < s.deadline) ∧ t ≤ s.lastNow
  readback : s.readback → ∃ t, .read s.current t ∈ between ∧ (start ≤ t ∧ t < s.deadline) ∧ t ≤ s.lastNow

/-- The current point was returned at `start`. -/
structure Open (s : SweepPolicy) (start : ℕ) (before between : List Visit) : Prop where
  log : s.log = before ++ .tuned s.current start :: between
  quiet : ∀ v ∈ between, v.isNote
  started : start ≤ s.lastNow

/-- What holds while a sweep goes on. -/
def Live (s : SweepPolicy) : Prop :=
  match s.phase with
  | .ready => Standing s 0 ∧ (s.log = [] ∨ ∃ l t, s.log = l ++ [.finished t])
  | .awaiting => Standing s 1 ∧ ∃ start before between, Open s start before between ∧
      Awaiting s start between
  | .dwelling => Standing s 1 ∧ ∃ start before between, Open s start before between ∧
      Proven s.config s.current start between s.deadline
  | .complete | .failed => True

structure Inv (s : SweepPolicy) : Prop where
  valid : s.config.Valid
  visited : Visited s.config s.log
  order : freqs s.log = (List.range (freqs s.log).length).map s.config.point
  bound : ¬s.config.continuous → (freqs s.log).length ≤ s.config.points * s.config.sweeps
  count : s.completed = min (finishedCount s.log) uint64Max
  live : Live s

variable {s s' : SweepPolicy} {now : ℕ}

/-- A new sweep is in order. -/
theorem create_inv {config : SweepConfig} (h : create config = .ok s) : Inv s := by
  unfold create at h
  split at h
  · cases h
  next hvalid =>
    obtain rfl := Except.ok.inj h
    simp only [not_or, not_lt] at hvalid
    have hc : config.Valid := ⟨hvalid.2.1, hvalid.2.2.1, Nat.pos_of_ne_zero hvalid.2.2.2.1,
      Nat.pos_of_ne_zero hvalid.2.2.2.2.2⟩
    refine ⟨hc, .nil, rfl, fun _ => Nat.zero_le _, rfl, ⟨rfl, le_rfl, ?_, fun _ => hc.sweeps_pos⟩, .inl rfl⟩
    exact ⟨0, Nat.succ_pos _, by simp, by simp [freqs]⟩

/-- The sweep stops. -/
theorem Inv.stop (h : Inv s) {phase : SweepPhase} (hphase : phase = .failed ∨ phase = .complete) :
    Inv { s with phase } :=
  ⟨h.valid, h.visited, h.order, h.bound, h.count, by rcases hphase with rfl | rfl <;> trivial⟩

/-- The clock goes on. -/
theorem Inv.clock (h : Inv s) (hnow : s.lastNow ≤ now) : Inv { s with lastNow := now } := by
  refine ⟨h.valid, h.visited, h.order, h.bound, h.count, ?_⟩
  have hlive := h.live
  unfold Live at hlive ⊢
  dsimp only at hlive ⊢
  split at hlive
  · exact ⟨{ hlive.1 with }, hlive.2⟩
  · obtain ⟨hstanding, start, before, between, hopen, hawaiting⟩ := hlive
    refine ⟨{ hstanding with }, start, before, between,
      { hopen with started := hopen.started.trans hnow }, hawaiting.deadline, fun he => ?_, fun hr => ?_⟩
    · obtain ⟨evidence, t, hmem, hreal, hin, hle⟩ := hawaiting.execution he
      exact ⟨evidence, t, hmem, hreal, hin, hle.trans hnow⟩
    · obtain ⟨t, hmem, hin, hle⟩ := hawaiting.readback hr
      exact ⟨t, hmem, hin, hle.trans hnow⟩
  · obtain ⟨hstanding, start, before, between, hopen, hproven⟩ := hlive
    exact ⟨{ hstanding with }, start, before, between,
      { hopen with started := hopen.started.trans hnow }, hproven⟩
  · trivial
  · trivial

/-- What a call finds of the clock. -/
theorem checkTime_cases (now : ℕ) (s : SweepPolicy) :
    (∃ e, s.checkTime now = (.error e, s)) ∨
    (∃ e, s.lastNow ≤ now ∧ s.checkTime now = (.error e, { s with lastNow := now, phase := .failed })) ∨
    (s.checkTime now = (.ok (), { s with lastNow := now }) ∧ s.lastNow ≤ now ∧
      (s.phase = .awaiting → now < s.deadline)) := by
  unfold checkTime
  split
  · exact .inl ⟨_, rfl⟩
  next hnow =>
    dsimp only
    split
    · exact .inr (.inl ⟨_, not_lt.mp hnow, rfl⟩)
    next hdeadline =>
      refine .inr (.inr ⟨rfl, not_lt.mp hnow, fun hphase => ?_⟩)
      by_contra hlate
      exact hdeadline ⟨hphase, not_lt.mp hlate⟩

/-- A call that the clock refuses keeps the invariant. -/
theorem Inv.checkTime (h : Inv s) (now : ℕ) : Inv (s.checkTime now).2 := by
  rcases checkTime_cases now s with ⟨e, hcheck⟩ | ⟨e, hnow, hcheck⟩ | ⟨hcheck, hnow, -⟩
  · rwa [hcheck]
  · rw [hcheck]
    exact (h.clock hnow).stop (.inl rfl)
  · rw [hcheck]
    exact h.clock hnow

/-- The frequencies that a call of `next` returns. -/
def returned : Result (Option ℕ) → List ℕ
  | .ok (some hz) => [hz]
  | _ => []

/-- What a call does: it keeps the invariant and returns some frequencies. -/
structure Goes (s s' : SweepPolicy) (hzs : List ℕ) : Prop where
  inv : Inv s'
  config : s'.config = s.config
  visits : freqs s'.log = freqs s.log ++ hzs

theorem Goes.same (h : Inv s') (hconfig : s'.config = s.config) (hlog : freqs s'.log = freqs s.log) :
    Goes s s' [] :=
  ⟨h, hconfig, by rw [hlog, List.append_nil]⟩

theorem Goes.trans {u : SweepPolicy} {hzs : List ℕ} (h : Goes s s' []) (h' : Goes s' u hzs) :
    Goes s u hzs :=
  ⟨h'.inv, h'.config.trans h.config, by rw [h'.visits, h.visits, List.append_nil]⟩

/-! ## Evidence -/

/-- A note in the log of a point. -/
theorem Open.note {start : ℕ} {before between : List Visit} (h : Open s start before between)
    {v : Visit} (hv : v.isNote) : Open (s.emit v) start before (between ++ [v]) := by
  refine ⟨?_, fun w hw => ?_, h.started⟩
  · show s.log ++ [v] = _
    rw [h.log, List.append_assoc, List.cons_append]
    rfl
  · rcases List.mem_append.mp hw with hw | hw
    · exact h.quiet w hw
    · obtain rfl := List.mem_singleton.mp hw
      exact hv

/-- Evidence is noted. -/
theorem Inv.note (h : Inv s) (hphase : s.phase = .awaiting) {v : Visit} (hv : v.isNote)
    (execution readback : Bool) (hlive : ∀ start before between, Open s start before between →
      Awaiting s start between →
        Awaiting ({ s with execution, readback }.emit v) start (between ++ [v])) :
    Goes s ({ s with execution, readback }.emit v) [] := by
  have hbefore := h.live
  rw [Live, hphase] at hbefore
  obtain ⟨hstanding, start, before, between, hopen, hawaiting⟩ := hbefore
  refine .same ⟨h.valid, h.visited.note hv, ?_, fun hc => ?_, ?_, ?_⟩ rfl (freqs_note hv)
  · show freqs (s.log ++ [v]) = (List.range (freqs (s.log ++ [v])).length).map _
    rw [freqs_note hv]
    exact h.order
  · show (freqs (s.log ++ [v])).length ≤ _
    rw [freqs_note hv]
    exact h.bound hc
  · show s.completed = min (finishedCount (s.log ++ [v])) _
    rw [finishedCount_note hv]
    exact h.count
  · have hphase' : ({ s with execution, readback }.emit v).phase = .awaiting := hphase
    rw [Live, hphase']
    refine ⟨⟨?_, hstanding.sweeps_le, ?_, hstanding.sweepsLeft⟩, start, before, between ++ [v],
      { hopen.note hv with }, hlive start before between hopen hawaiting⟩
    · show finishedCount (s.log ++ [v]) = _
      rw [finishedCount_note hv]
      exact hstanding.counted
    · show ∃ j, _ ∧ _ ∧ (freqs (s.log ++ [v])).length = _
      rw [freqs_note hv]
      exact hstanding.position

theorem Inv.noteExecution (h : Inv s) (hphase : s.phase = .awaiting) {evidence : TuneExecution}
    (hreal : evidence.real) (hlast : s.lastNow = now) (hdeadline : now < s.deadline) :
    Goes s ({ s with execution := true }.emit (.executed evidence now)) [] := by
  refine h.note hphase rfl true s.readback fun start before between hopen hawaiting =>
    ⟨hawaiting.deadline, fun _ => ?_, fun hr => ?_⟩
  · exact ⟨evidence, now, List.mem_append_right _ (List.mem_singleton.mpr rfl), hreal,
      ⟨hlast ▸ hopen.started, hdeadline⟩, hlast.ge⟩
  · obtain ⟨t, hmem, hin, hle⟩ := hawaiting.readback hr
    exact ⟨t, List.mem_append_left _ hmem, hin, hle⟩

theorem Inv.noteReadback (h : Inv s) (hphase : s.phase = .awaiting) (hlast : s.lastNow = now)
    (hdeadline : now < s.deadline) :
    Goes s ({ s with readback := true }.emit (.read s.current now)) [] := by
  refine h.note hphase rfl s.execution true fun start before between hopen hawaiting =>
    ⟨hawaiting.deadline, fun he => ?_, fun _ => ?_⟩
  · obtain ⟨evidence, t, hmem, hreal, hin, hle⟩ := hawaiting.execution he
    exact ⟨evidence, t, List.mem_append_left _ hmem, hreal, hin, hle⟩
  · exact ⟨now, List.mem_append_right _ (List.mem_singleton.mpr rfl),
      ⟨hlast ▸ hopen.started, hdeadline⟩, hlast.ge⟩

/-- With both kinds of evidence the dwell begins. -/
theorem Inv.finishEvidence (h : Inv s) (hphase : s.phase = .awaiting) (hlast : s.lastNow = now)
    (hnow : now ≤ uint64Max) : ∃ r s', s.finishEvidence now = some (r, s') ∧ Goes s s' [] := by
  unfold SweepPolicy.finishEvidence
  split
  next hboth =>
    rw [minus_eq hnow]
    simp only [Option.bind_eq_bind, Option.bind_some]
    split
    · exact ⟨_, _, rfl, .same (h.stop (.inl rfl)) rfl rfl⟩
    next hroom =>
      rw [plus_eq (by omega), Option.bind_some]
      refine ⟨_, _, rfl, .same ⟨h.valid, h.visited, h.order, h.bound, h.count, ?_⟩ rfl rfl⟩
      have hlive := h.live
      rw [Live, hphase] at hlive
      obtain ⟨hstanding, start, before, between, hopen, hawaiting⟩ := hlive
      obtain ⟨evidence, t, hmem, hreal, hin, hle⟩ := hawaiting.execution hboth.1
      obtain ⟨t', hmem', hin', hle'⟩ := hawaiting.readback hboth.2
      rw [hawaiting.deadline] at hin hin'
      exact ⟨{ hstanding with }, start, before, between, { hopen with }, evidence, t, t', hmem, hreal,
        hmem', hin, hin', Nat.add_le_add_right (max_le (hlast ▸ hle) (hlast ▸ hle')) _⟩
  next => exact ⟨_, _, rfl, .same h rfl rfl⟩

/-- A report of execution ends the wait for it, or the sweep. -/
theorem Inv.reportExecution (h : Inv s) (evidence : TuneExecution) (hnow : now ≤ uint64Max) :
    ∃ r s', s.reportExecution evidence now = some (r, s') ∧ Goes s s' [] := by
  have hclock := h.checkTime now
  unfold SweepPolicy.reportExecution
  rcases checkTime_cases now s with ⟨e, hcheck⟩ | ⟨e, -, hcheck⟩ | ⟨hcheck, -, hdeadline⟩
  · rw [hcheck] at hclock ⊢
    exact ⟨_, _, rfl, .same hclock rfl rfl⟩
  · rw [hcheck] at hclock ⊢
    exact ⟨_, _, rfl, .same hclock rfl rfl⟩
  · rw [hcheck] at hclock ⊢
    dsimp only
    split_ifs with hagain hphase hreal
    · exact ⟨_, _, rfl, .same hclock rfl rfl⟩
    · exact ⟨_, _, rfl, .same hclock rfl rfl⟩
    · have hawaiting := not_not.mp hphase
      have hnote := hclock.noteExecution hawaiting hreal rfl (hdeadline hawaiting)
      obtain ⟨r, s', hfinish, hgoes⟩ := hnote.inv.finishEvidence hawaiting rfl hnow
      have hchecked : Goes s _ [] := .same hclock rfl rfl
      exact ⟨r, s', hfinish, hchecked.trans (hnote.trans hgoes)⟩
    · exact ⟨_, _, rfl, .same (hclock.stop (.inl rfl)) rfl rfl⟩

/-- A report of a frequency ends the wait for it, or the sweep. -/
theorem Inv.reportReadback (h : Inv s) (hz : ℕ) (known : Bool) (hnow : now ≤ uint64Max) :
    ∃ r s', s.reportReadback hz known now = some (r, s') ∧ Goes s s' [] := by
  have hclock := h.checkTime now
  unfold SweepPolicy.reportReadback
  rcases checkTime_cases now s with ⟨e, hcheck⟩ | ⟨e, -, hcheck⟩ | ⟨hcheck, -, hdeadline⟩
  · rw [hcheck] at hclock ⊢
    exact ⟨_, _, rfl, .same hclock rfl rfl⟩
  · rw [hcheck] at hclock ⊢
    exact ⟨_, _, rfl, .same hclock rfl rfl⟩
  · rw [hcheck] at hclock ⊢
    dsimp only
    split_ifs with hagain hphase hwrong
    · exact ⟨_, _, rfl, .same hclock rfl rfl⟩
    · exact ⟨_, _, rfl, .same hclock rfl rfl⟩
    · exact ⟨_, _, rfl, .same (hclock.stop (.inl rfl)) rfl rfl⟩
    · have hawaiting := not_not.mp hphase
      simp only [not_or, not_not] at hwrong
      obtain rfl := hwrong.2
      have hnote := hclock.noteReadback hawaiting rfl (hdeadline hawaiting)
      obtain ⟨r, s', hfinish, hgoes⟩ := hnote.inv.finishEvidence hawaiting rfl hnow
      have hchecked : Goes s _ [] := .same hclock rfl rfl
      exact ⟨r, s', hfinish, hchecked.trans (hnote.trans hgoes)⟩

/-! ## The next point -/

/-- What remains of the invariant once a point is finished, but for its count. -/
structure Left (s : SweepPolicy) : Prop where
  valid : s.config.Valid
  visited : Visited s.config s.log
  order : freqs s.log = (List.range (freqs s.log).length).map s.config.point
  bound : ¬s.config.continuous → (freqs s.log).length ≤ s.config.points * s.config.sweeps
  last : ∃ l t, s.log = l ++ [.finished t]
  counted : finishedCount s.log = s.completed + 1

/-- A point is left when its dwell is over. -/
theorem Inv.left (h : Inv s) (hphase : s.phase = .dwelling) (hnow : s.deadline ≤ now) :
    Left (s.emit (.finished now)) ∧ Standing s 1 := by
  have hlive := h.live
  rw [Live, hphase] at hlive
  obtain ⟨hstanding, start, before, between, hopen, evidence, t, t', hmem, hreal, hmem', hin, hin', hle⟩ :=
    hlive
  refine ⟨⟨h.valid, ?_, ?_, fun hc => ?_, ⟨s.log, now, rfl⟩, ?_⟩, hstanding⟩
  · have hvisited := h.visited
    rw [hopen.log] at hvisited
    show Visited s.config (s.log ++ [.finished now])
    rw [hopen.log]
    exact .finished hvisited hopen.quiet ⟨evidence, t, t', hmem, hreal, hmem', hin, hin', hle.trans hnow⟩
  · show freqs (s.log ++ [.finished now]) = _
    rw [emit, freqs_finished]
    exact h.order
  · show (freqs (s.log ++ [.finished now])).length ≤ _
    rw [freqs_finished]
    exact h.bound hc
  · show finishedCount (s.log ++ [.finished now]) = _
    rw [finishedCount_finished, hstanding.counted]
    rfl

/-- A finished point has been counted. -/
theorem Left.counts (h : Left s) (hcompleted : s.completed + 1 ≤ uint64Max) {completed current : ℕ}
    {completedSweeps : ℕ} {phase : SweepPhase} (hc : completed = s.completed + 1)
    (hlive : Live { s with completed, completedSweeps, current, phase }) :
    Inv { s with completed, completedSweeps, current, phase } := by
  refine ⟨h.valid, h.visited, h.order, h.bound, ?_, hlive⟩
  show completed = min (finishedCount s.log) uint64Max
  rw [h.counted, hc, min_eq_left hcompleted]

/-- A sweep that moves on does not pass its stop, and counts without wrapping. -/
theorem Inv.moveOn (h : Inv s) (now : ℕ) : ∃ r s', s.moveOn now = some (r, s') ∧ Goes s s' [] ∧
    s'.lastNow = s.lastNow ∧ ∀ hz, r ≠ some (.ok (some hz)) := by
  unfold SweepPolicy.moveOn
  split
  next hover =>
    obtain ⟨hleft, hstanding⟩ := h.left hover.1 hover.2
    obtain ⟨j, hj, hcurrent, hlength⟩ := hstanding.position
    have hstop := h.valid.lt_points.mp hj
    have hmax : s.completed ≤ uint64Max := h.count.trans_le (min_le_right _ _)
    have hfreqs : freqs (s.emit (.finished now)).log = freqs s.log := by
      rw [emit, freqs_finished]
    dsimp only
    split
    next hfull =>
      -- the count of points is full
      refine ⟨_, _, rfl, .same ⟨hleft.valid, hleft.visited, hleft.order, hleft.bound, ?_, trivial⟩ rfl hfreqs,
        rfl, by simp⟩
      have hcounted := hleft.counted
      have hcompleted : (s.emit (.finished now)).completed = uint64Max := hfull
      rw [hcounted, hcompleted, min_eq_right (Nat.le_add_right _ 1)]
    next hfull =>
      change ¬s.completed = uint64Max at hfull
      have hone : s.completed + 1 ≤ uint64Max := by omega
      have hsweeps := hstanding.sweeps_le
      have hplus : plus (s.emit (.finished now)).completed 1 = some (s.completed + 1) := plus_eq hone
      have hminus : minus s.config.stopHz s.current = some (s.config.stopHz - s.current) :=
        minus_eq (by omega)
      rw [hplus]
      simp only [Option.bind_eq_bind, Option.bind_some]
      show ∃ r s', Option.bind (minus s.config.stopHz s.current) _ = some (r, s') ∧ _ ∧ _ ∧ _
      rw [hminus, Option.bind_some]
      split
      next hpast =>
        -- the last point of a sweep
        change s.config.stepHz > s.config.stopHz - s.current at hpast
        have hlast : j + 1 = s.config.points := by
          by_contra hne
          have hmore := h.valid.lt_points.mp (by omega : j + 1 < s.config.points)
          rw [Nat.add_mul, Nat.one_mul] at hmore
          omega
        have hpos := h.valid.sweeps_pos
        rw [if_neg (by show ¬s.completedSweeps = uint64Max; omega)]
        have hplus' : plus s.completedSweeps 1 = some (s.completedSweeps + 1) := plus_eq (by omega)
        show ∃ r s', Option.bind (plus s.completedSweeps 1) _ = some (r, s') ∧ _ ∧ _ ∧ _
        rw [hplus', Option.bind_some]
        split
        · exact ⟨_, _, rfl, .same (hleft.counts hone rfl trivial) rfl hfreqs, rfl, by simp⟩
        next hgoes =>
          refine ⟨_, _, rfl, .same (hleft.counts hone rfl ⟨⟨hleft.counted, ?_, ⟨0, ?_, ?_, ?_⟩,
            fun hc => ?_⟩, .inr hleft.last⟩) rfl hfreqs, rfl, by simp⟩
          · show s.completedSweeps + 1 ≤ s.completed + 1
            omega
          · exact Nat.succ_pos _
          · show s.config.startHz = s.config.startHz + 0 * _
            omega
          · show (freqs (s.emit (.finished now)).log).length = (s.completedSweeps + 1) * s.config.points + 0 + 0
            rw [hfreqs, hlength, Nat.add_mul]
            omega
          · have hless := hstanding.sweepsLeft hc
            have hnot : s.completedSweeps + 1 ≠ s.config.sweeps := fun heq => hgoes ⟨hc, heq⟩
            show s.completedSweeps + 1 < s.config.sweeps
            omega
      next hmore =>
        change ¬s.config.stepHz > s.config.stopHz - s.current at hmore
        have hstop_le := h.valid.stop_le
        have hplus' : plus s.current s.config.stepHz = some (s.current + s.config.stepHz) :=
          plus_eq (by rw [uint64Max]; omega)
        show ∃ r s', Option.bind (plus s.current s.config.stepHz) _ = some (r, s') ∧ _ ∧ _ ∧ _
        rw [hplus', Option.bind_some]
        have hnext : s.config.startHz + (j + 1) * s.config.stepHz = s.current + s.config.stepHz := by
          rw [hcurrent, Nat.add_mul]
          omega
        refine ⟨_, _, rfl, .same (hleft.counts hone rfl ⟨⟨hleft.counted, hsweeps.trans (Nat.le_succ _),
          ⟨j + 1, ?_, hnext.symm, ?_⟩, hstanding.sweepsLeft⟩, .inr hleft.last⟩) rfl hfreqs, rfl, by simp⟩
        · show j + 1 < s.config.points
          rw [h.valid.lt_points, hnext]
          omega
        · show (freqs (s.emit (.finished now)).log).length =
            s.completedSweeps * s.config.points + (j + 1) + 0
          rw [hfreqs, hlength]
          omega
  next => exact ⟨_, _, rfl, .same h rfl rfl, rfl, by simp⟩

/-- A submission tunes to the present point, or fails. -/
theorem Inv.submit (h : Inv s) (hlast : s.lastNow = now) (hnow : now ≤ uint64Max) :
    ∃ r s', s.submit now = some (r, s') ∧ Goes s s' (returned r) := by
  unfold SweepPolicy.submit
  split
  · exact ⟨_, _, rfl, .same h rfl rfl⟩
  next hphase =>
    have hready := not_not.mp hphase
    have hlive := h.live
    rw [Live, hready] at hlive
    obtain ⟨hstanding, hbefore⟩ := hlive
    obtain ⟨j, hj, hcurrent, hlength⟩ := hstanding.position
    rw [minus_eq hnow]
    simp only [Option.bind_eq_bind, Option.bind_some]
    split
    · exact ⟨_, _, rfl, .same (h.stop (.inl rfl)) rfl rfl⟩
    next hroom =>
      rw [plus_eq (by omega), Option.bind_some]
      refine ⟨_, _, rfl, ⟨h.valid, h.visited.tuned hbefore, ?_, fun hc => ?_, ?_, ?_⟩, rfl,
        freqs_tuned _ _ _⟩
      · -- the new frequency is the next point
        show freqs (s.log ++ [.tuned s.current now]) =
          (List.range (freqs (s.log ++ [.tuned s.current now])).length).map s.config.point
        rw [freqs_tuned, List.length_append, List.length_singleton, List.range_succ, List.map_append,
          ← h.order, List.map_singleton, hlength, Nat.add_zero, point_eq hj, hcurrent]
      · show (freqs (s.log ++ [.tuned s.current now])).length ≤ _
        rw [freqs_tuned, List.length_append, List.length_singleton, hlength]
        have hless : s.completedSweeps + 1 ≤ s.config.sweeps := hstanding.sweepsLeft hc
        have hmul := Nat.mul_le_mul_left s.config.points hless
        rw [Nat.mul_add, Nat.mul_one, Nat.mul_comm] at hmul
        show s.completedSweeps * s.config.points + j + 0 + 1 ≤ s.config.points * s.config.sweeps
        omega
      · show s.completed = min (finishedCount (s.log ++ [.tuned s.current now])) uint64Max
        rw [finishedCount_tuned]
        exact h.count
      · refine ⟨⟨?_, hstanding.sweeps_le, ⟨j, hj, hcurrent, ?_⟩, hstanding.sweepsLeft⟩, now, s.log, [],
          ⟨rfl, by simp, hlast.ge⟩, rfl, fun he => absurd he Bool.false_ne_true,
          fun hr => absurd hr Bool.false_ne_true⟩
        · show finishedCount (s.log ++ [.tuned s.current now]) = _
          rw [finishedCount_tuned]
          exact hstanding.counted
        · show (freqs (s.log ++ [.tuned s.current now])).length = _
          rw [freqs_tuned, List.length_append, List.length_singleton, hlength, Nat.add_zero]
          rfl

/-- A turn returns what the present phase asks for. -/
theorem Inv.next (h : Inv s) (hnow : now ≤ uint64Max) :
    ∃ r s', s.next now = some (r, s') ∧ Goes s s' (returned r) := by
  have hclock := h.checkTime now
  unfold SweepPolicy.next
  rcases checkTime_cases now s with ⟨e, hcheck⟩ | ⟨e, -, hcheck⟩ | ⟨hcheck, -, -⟩
  · rw [hcheck] at hclock ⊢
    exact ⟨_, _, rfl, .same hclock rfl rfl⟩
  · rw [hcheck] at hclock ⊢
    exact ⟨_, _, rfl, .same hclock rfl rfl⟩
  · rw [hcheck] at hclock ⊢
    dsimp only
    split
    · exact ⟨_, _, rfl, .same hclock rfl rfl⟩
    · obtain ⟨r, s', hmove, hmoved, hlast, hnone⟩ := hclock.moveOn now
      have hchecked : Goes s _ [] := .same hclock rfl rfl
      have hgoes := hchecked.trans hmoved
      rw [hmove]
      cases r with
      | some r =>
        refine ⟨_, _, rfl, ?_⟩
        rcases r with e | _ | hz
        · exact hgoes
        · exact hgoes
        · exact absurd rfl (hnone hz)
      | none =>
        obtain ⟨r, u, hsubmit, hreturned⟩ := hmoved.inv.submit hlast hnow
        exact ⟨r, u, hsubmit, hgoes.trans hreturned⟩

/-! ## Runs -/

/-- Every call keeps the invariant and goes on with the sweep. -/
theorem Inv.step (h : Inv s) {call : Call} (hcall : call.Representable) :
    ∃ s' hzs, s.step call = some s' ∧ Goes s s' hzs := by
  cases call with
  | next now =>
    obtain ⟨r, s', hstep, hgoes⟩ := h.next hcall
    exact ⟨s', _, by rw [SweepPolicy.step, hstep]; rfl, hgoes⟩
  | execution evidence now =>
    obtain ⟨r, s', hstep, hgoes⟩ := h.reportExecution evidence hcall
    exact ⟨s', _, by rw [SweepPolicy.step, hstep]; rfl, hgoes⟩
  | readback hz known now =>
    obtain ⟨r, s', hstep, hgoes⟩ := h.reportReadback hz known hcall
    exact ⟨s', _, by rw [SweepPolicy.step, hstep]; rfl, hgoes⟩
  | submissionFailed => exact ⟨_, _, rfl, .same (h.stop (.inl rfl)) rfl rfl⟩

theorem Inv.run (h : Inv s) {calls : List Call} (hcalls : ∀ call ∈ calls, call.Representable) :
    ∃ s', s.run calls = some s' ∧ Inv s' ∧ s'.config = s.config := by
  induction calls generalizing s with
  | nil => exact ⟨s, rfl, h, rfl⟩
  | cons call calls ih =>
    obtain ⟨s', hzs, hstep, hgoes⟩ := h.step (hcalls call List.mem_cons_self)
    obtain ⟨u, hrun, hinv, hconfig⟩ := ih hgoes.inv fun c hc => hcalls c (List.mem_cons_of_mem _ hc)
    refine ⟨u, ?_, hinv, hconfig.trans hgoes.config⟩
    rw [SweepPolicy.run, List.foldlM_cons, hstep]
    exact hrun

/-! ## The end -/

/-- The sweep has failed or is complete. -/
def Over (s : SweepPolicy) : Prop := s.phase = .failed ∨ s.phase = .complete

/-- What is over stays over, and returns no frequency. -/
theorem Over.step (h : Over s) (call : Call) :
    ∃ s', s.step call = some s' ∧ Over s' ∧ s'.log = s.log := by
  have hready : s.phase ≠ .ready := by rcases h with h | h <;> simp [h]
  have hawaiting : s.phase ≠ .awaiting := by rcases h with h | h <;> simp [h]
  have hdwelling : s.phase ≠ .dwelling := by rcases h with h | h <;> simp [h]
  cases call with
  | next now =>
    simp only [SweepPolicy.step, SweepPolicy.next]
    rcases checkTime_cases now s with ⟨e, hcheck⟩ | ⟨e, -, hcheck⟩ | ⟨hcheck, -, -⟩
    · rw [hcheck]
      exact ⟨_, rfl, h, rfl⟩
    · rw [hcheck]
      exact ⟨_, rfl, .inl rfl, rfl⟩
    · rw [hcheck]
      dsimp only
      split
      · exact ⟨_, rfl, h, rfl⟩
      · have hmove : SweepPolicy.moveOn now { s with lastNow := now } = some (none, { s with lastNow := now }) :=
          if_neg fun hover => hdwelling hover.1
        have hsubmit : SweepPolicy.submit now { s with lastNow := now } =
            some (.ok none, { s with lastNow := now }) := if_pos hready
        rw [hmove]
        simp only [Option.bind_eq_bind, Option.bind_some]
        rw [hsubmit]
        exact ⟨_, rfl, h, rfl⟩
  | execution evidence now =>
    simp only [SweepPolicy.step, SweepPolicy.reportExecution]
    rcases checkTime_cases now s with ⟨e, hcheck⟩ | ⟨e, -, hcheck⟩ | ⟨hcheck, -, -⟩
    · rw [hcheck]
      exact ⟨_, rfl, h, rfl⟩
    · rw [hcheck]
      exact ⟨_, rfl, .inl rfl, rfl⟩
    · rw [hcheck]
      dsimp only
      rw [if_neg fun hover => hdwelling hover.1, if_pos hawaiting]
      exact ⟨_, rfl, h, rfl⟩
  | readback hz known now =>
    simp only [SweepPolicy.step, SweepPolicy.reportReadback]
    rcases checkTime_cases now s with ⟨e, hcheck⟩ | ⟨e, -, hcheck⟩ | ⟨hcheck, -, -⟩
    · rw [hcheck]
      exact ⟨_, rfl, h, rfl⟩
    · rw [hcheck]
      exact ⟨_, rfl, .inl rfl, rfl⟩
    · rw [hcheck]
      dsimp only
      rw [if_neg fun hover => hdwelling hover.1, if_pos hawaiting]
      exact ⟨_, rfl, h, rfl⟩
  | submissionFailed => exact ⟨_, rfl, .inl rfl, rfl⟩

theorem Over.run (h : Over s) (calls : List Call) :
    ∃ s', s.run calls = some s' ∧ Over s' ∧ s'.log = s.log := by
  induction calls generalizing s with
  | nil => exact ⟨s, rfl, h, rfl⟩
  | cons call calls ih =>
    obtain ⟨s', hstep, hover, hlog⟩ := h.step call
    obtain ⟨u, hrun, hover', hlog'⟩ := ih hover
    refine ⟨u, ?_, hover', hlog'.trans hlog⟩
    rw [SweepPolicy.run, List.foldlM_cons, hstep]
    exact hrun

/-- A sweep visits its points and nothing else, and only on evidence. In every run nothing wraps; the
frequencies are a beginning of the points from start to stop, once for each sweep; each further one is
returned right after the one before it is finished, which takes a real execution and a readback before
its deadline and then the dwell; the completed points are the finished ones, as far as 64 bits count
them; and behind a failure or the end no frequency is returned. -/
theorem sweep_exact {config : SweepConfig} {s₀ : SweepPolicy} (h : create config = .ok s₀)
    {calls : List Call} (hcalls : ∀ call ∈ calls, call.Representable) :
    ∃ s, s₀.run calls = some s ∧
      (freqs s.log = (List.range (freqs s.log).length).map config.point ∧
        (config.continuous = false → (freqs s.log).length ≤ config.points * config.sweeps) ∧
        ∀ j, j < config.points ↔ config.startHz + j * config.stepHz ≤ config.stopHz) ∧
      (∀ before after hz now, before ++ .tuned hz now :: after = s.log →
        before = [] ∨ ∃ l t, before = l ++ [.finished t]) ∧
      (∀ before after now, before ++ .finished now :: after = s.log → ∃ first hz start between,
        before = first ++ .tuned hz start :: between ∧ (∀ v ∈ between, v.isNote) ∧
          Proven config hz start between now) ∧
      s.completed = min (finishedCount s.log) uint64Max ∧
      (∀ now, now ≤ uint64Max → ∃ r s', s.next now = some (r, s') ∧
        freqs s'.log = freqs s.log ++ returned r) ∧
      (Over s → ∀ calls', ∃ s', s.run calls' = some s' ∧ Over s' ∧ freqs s'.log = freqs s.log) := by
  have hinit := create_inv h
  have hconfig₀ : s₀.config = config := by
    unfold create at h
    split at h
    · cases h
    · obtain rfl := Except.ok.inj h
      rfl
  obtain ⟨s, hrun, hinv, hconfig⟩ := hinit.run hcalls
  have hc : s.config = config := hconfig.trans hconfig₀
  have horder := hinv.order
  have hbound := hinv.bound
  have hvisited := hinv.visited
  have hvalid := hinv.valid
  rw [hc] at horder hbound hvisited hvalid
  refine ⟨s, hrun, ⟨horder, fun hno => hbound (by simp [hno]), fun j => hvalid.lt_points⟩,
    fun before after hz now hlog => hvisited.next hlog,
    fun before after now hlog => hvisited.proven hlog, hinv.count, fun now hnow => ?_,
    fun hover calls' => ?_⟩
  · obtain ⟨r, s', hnext, hgoes⟩ := hinv.next hnow
    exact ⟨r, s', hnext, hgoes.visits⟩
  · obtain ⟨s', hrun', hover', hlog⟩ := hover.run calls'
    exact ⟨s', hrun', hover', by rw [hlog]⟩

/-! ## A sweep of one point -/

/-- One point, without a dwell and without an end. -/
def onePoint : SweepConfig :=
  { startHz := 1000000, stopHz := 1000000, stepHz := 1, dwellNs := 0, timeoutNs := 1, continuous := true }

/-- The policy awaits evidence, behind `n` points. -/
def awaitingPoint (n : ℕ) (log : List Visit) : SweepPolicy :=
  { config := onePoint, phase := .awaiting, current := 1000000, deadline := 1, completed := n
    completedSweeps := n, log }

/-- The evidence has come in. -/
def dwellingPoint (n : ℕ) (log : List Visit) : SweepPolicy :=
  { awaitingPoint n (log ++ [.executed { executed := true } 0, .read 1000000 0]) with
    phase := .dwelling, deadline := 0, execution := true, readback := true }

/-- Evidence for a point, and the call for the next one. -/
def onePointCalls : List Call :=
  [.execution { executed := true } 0, .readback 1000000 true 0, .next 0]

theorem run_first : ({ config := onePoint, current := 1000000 } : SweepPolicy).run [.next 0] =
    some (awaitingPoint 0 [.tuned 1000000 0]) := rfl

theorem run_evidence (n : ℕ) (log : List Visit) :
    (awaitingPoint n log).run onePointCalls = (dwellingPoint n log).run [.next 0] := by
  simp [SweepPolicy.run, onePointCalls, SweepPolicy.step, SweepPolicy.reportExecution,
    SweepPolicy.reportReadback, SweepPolicy.checkTime, awaitingPoint, TuneExecution.real, emit,
    SweepPolicy.finishEvidence, onePoint, minus, plus, dwellingPoint]

/-- One more round of a sweep of one point. -/
theorem run_point {n : ℕ} (log : List Visit) (h : n + 1 ≤ uint64Max) :
    (awaitingPoint n log).run onePointCalls = some (awaitingPoint (n + 1) (log ++
      [.executed { executed := true } 0, .read 1000000 0, .finished 0, .tuned 1000000 0])) := by
  have hne : n ≠ uint64Max := by omega
  have hcompleted : plus n 1 = some (n + 1) := plus_eq h
  have hstop : minus 1000000 1000000 = some 0 := rfl
  have hdeadline : plus 0 1 = some 1 := rfl
  have hroom : minus uint64Max 0 = some uint64Max := minus_eq (Nat.zero_le _)
  have hone : ¬1 > uint64Max := by decide
  rw [run_evidence]
  simp [SweepPolicy.run, SweepPolicy.step, SweepPolicy.next, SweepPolicy.checkTime, awaitingPoint,
    dwellingPoint, emit, SweepPolicy.moveOn, SweepPolicy.submit, onePoint, hne, hcompleted, hstop,
    hdeadline, hroom, hone]

/-- The count of points is full, and the next point that is finished is not counted. -/
theorem run_full (log : List Visit) : (awaitingPoint uint64Max log).run onePointCalls =
    some { dwellingPoint uint64Max log with
      phase := .failed
      log := log ++ [.executed { executed := true } 0, .read 1000000 0, .finished 0] } := by
  rw [run_evidence]
  simp [SweepPolicy.run, SweepPolicy.step, SweepPolicy.next, SweepPolicy.checkTime, awaitingPoint,
    dwellingPoint, emit, SweepPolicy.moveOn, onePoint]

theorem run_append (s : SweepPolicy) (calls calls' : List Call) :
    s.run (calls ++ calls') = (s.run calls).bind fun u => u.run calls' := by
  rw [SweepPolicy.run, List.foldlM_append]
  rfl

theorem onePointCalls_representable : ∀ call ∈ onePointCalls, call.Representable := by
  intro call hcall
  simp only [onePointCalls, List.mem_cons, List.not_mem_nil, or_false] at hcall
  rcases hcall with rfl | rfl | rfl <;> exact Nat.zero_le _

/-- Any number of points is finished in a run, up to the largest one. -/
theorem run_points {n : ℕ} (h : n ≤ uint64Max) : ∃ calls log,
    ({ config := onePoint, current := 1000000 } : SweepPolicy).run calls = some (awaitingPoint n log) ∧
      (∀ call ∈ calls, call.Representable) ∧ finishedCount log = n := by
  induction n with
  | zero =>
    refine ⟨_, _, run_first, fun call hcall => ?_, rfl⟩
    obtain rfl := List.mem_singleton.mp hcall
    exact Nat.zero_le _
  | succ n ih =>
    obtain ⟨calls, log, hrun, hcalls, hcount⟩ := ih (by omega)
    refine ⟨calls ++ onePointCalls, log ++ [.executed { executed := true } 0, .read 1000000 0, .finished 0,
      .tuned 1000000 0], ?_, fun call hcall => ?_, ?_⟩
    · rw [run_append, hrun, Option.bind_some]
      exact run_point log h
    · exact (List.mem_append.mp hcall).elim (hcalls call) (onePointCalls_representable call)
    · rw [finishedCount, List.countP_append, ← hcount]
      rfl

/-- A sweep can finish one point more than 64 bits count. -/
theorem finished_uncounted : ¬∀ (config : SweepConfig) (s₀ s : SweepPolicy) (calls : List Call),
    create config = .ok s₀ → (∀ call ∈ calls, call.Representable) → s₀.run calls = some s →
      s.completed = finishedCount s.log := by
  intro hall
  obtain ⟨calls, log, hrun, hcalls, hcount⟩ := run_points (le_refl uint64Max)
  have hcalls' : ∀ call ∈ calls ++ onePointCalls, call.Representable := fun call hcall =>
    (List.mem_append.mp hcall).elim (hcalls call) (onePointCalls_representable call)
  have hrun' : ({ config := onePoint, current := 1000000 } : SweepPolicy).run (calls ++ onePointCalls) =
      (awaitingPoint uint64Max log).run onePointCalls := by
    rw [run_append, hrun, Option.bind_some]
  rw [run_full] at hrun'
  have hfull := hall onePoint { config := onePoint, current := 1000000 } _ _ rfl hcalls' hrun'
  have hlog : finishedCount (log ++ [.executed { executed := true } 0, .read 1000000 0, .finished 0]) =
      uint64Max + 1 := by
    rw [finishedCount, List.countP_append, ← hcount]
    rfl
  dsimp only [dwellingPoint, awaitingPoint] at hfull
  rw [hlog] at hfull
  exact absurd hfull (Nat.succ_ne_self _).symm

/-- The sweep of one point, after one point. -/
theorem sweep_exact_once : ∃ s, ({ config := onePoint, current := 1000000 } : SweepPolicy).run
    (.next 0 :: onePointCalls) = some s ∧
      freqs s.log = (List.range (freqs s.log).length).map onePoint.point ∧ s.completed = 1 := by
  have hcreate : create onePoint = .ok { config := onePoint, current := 1000000 } := rfl
  have hcalls : ∀ call ∈ .next 0 :: onePointCalls, call.Representable :=
    List.forall_mem_cons.mpr ⟨Nat.zero_le _, onePointCalls_representable⟩
  obtain ⟨s, hrun, ⟨horder, -⟩, -⟩ := sweep_exact hcreate hcalls
  refine ⟨s, hrun, horder, ?_⟩
  have hsplit : (.next 0 :: onePointCalls : List Call) = [.next 0] ++ onePointCalls := rfl
  rw [hsplit, run_append, run_first, Option.bind_some, run_point _ (by decide)] at hrun
  obtain rfl := Option.some.inj hrun
  rfl

end SweepPolicy

end Vita.Profiles
