import Vita.Common.Trace
import Vita.Timing.SampleTimeline
import Mathlib.Algebra.Order.Floor.Div
import Mathlib.GroupTheory.GroupAction.Ring

/-!
# The protocol clock (`timing/clock.hpp`)

A pulse with its time of day maps monotonic time to protocol time. The state of the clock ages when it is
read: after a second without a pulse it is in holdover, after the limit of its binding it is faulted.

Main definitions:
- `ProtocolClock.bind`, `ProtocolClock.observePps`, `ProtocolClock.ppsLost`, `ProtocolClock.snapshot`;
- `Standing`: the binding and the pulse that a history ends with.

Main results:
- `ProtocolClock.snapshot_ok`: what a snapshot says;
- `clock_conservative`: the statement about all sequences of operations.
-/

namespace Vita.Timing

open Checked Trace

structure ClockBinding where
  epoch : Epoch := .other
  epochConfigured : Bool := false
  qualified : Bool := false
  injected : Bool := false
  calibrationUncertaintyPs : UInt64 := 0
  holdoverDriftPpb : UInt64 := 0
  holdoverLimitNs : UInt64 := 2000000000

structure ProtocolClock where
  binding : ClockBinding := {}
  state : ClockState := .unbound
  capture : ℕ := 0
  origin : ProtocolTime := {}
  generation : ℕ := 0
  pulseUncertainty : UInt64 := 0
  mapped : Bool := false

namespace ProtocolClock

/-- A new binding; the epoch is one of the enumeration by its type. -/
def bind (c : ProtocolClock) (binding : ClockBinding) : Result ProtocolClock := do
  rejectIf (¬binding.epochConfigured ∨ ¬binding.qualified ∧ ¬binding.injected ∨
    binding.holdoverLimitNs = 0) (failure .invalidArgument)
  rejectIf (c.generation = uint64Max) (failure .overflow)
  return { c with binding, state := .acquiring, mapped := false, generation := c.generation + 1 }

def observePps (c : ProtocolClock) (capture : ℕ) (timeOfDay : Option ProtocolTime)
    (uncertaintyPs : UInt64 := 0) : Result Unit × ProtocolClock :=
  if c.state = .unbound then (.error (failure .invalidState), c)
  else match timeOfDay with
    | none =>
      (.error (failure .invalidArgument), if ¬c.mapped then { c with state := .acquiring } else c)
    | some time =>
      if ¬time.valid ∨ c.mapped ∧ capture < c.capture then (.error (failure .invalidArgument), c)
      else if c.generation = uint64Max ∨
          uncertaintyPs.toNat > uint64Max - c.binding.calibrationUncertaintyPs.toNat then
        (.error (failure .overflow), c)
      else
        (.ok (), { c with capture, origin := time, pulseUncertainty := uncertaintyPs, mapped := true
                          generation := c.generation + 1, state := .locked })

def ppsLost (c : ProtocolClock) (now : ℕ) : Result ProtocolClock := do
  rejectIf (¬c.mapped ∨ now < c.capture) (failure .invalidState)
  return { c with state := if now - c.capture ≥ c.binding.holdoverLimitNs.toNat then .faulted
                           else .holdover }

/-- The state ages before it is read. -/
def aged (c : ProtocolClock) (now : ℕ) : ProtocolClock :=
  if now - c.capture ≥ c.binding.holdoverLimitNs.toNat then { c with state := .faulted }
  else if now - c.capture > 1000000000 ∧ c.state = .locked then { c with state := .holdover }
  else c

/-- The drift in picoseconds, rounded up, and the sum of the uncertainties. `base` is not checked. -/
def uncertainty (c : ProtocolClock) (elapsed : ℕ) : Result ℕ := do
  let whole := elapsed / 1000000
  let remainder := elapsed % 1000000
  let drift := c.binding.holdoverDriftPpb.toNat
  rejectIf (whole ≠ 0 ∧ drift > uint64Max / whole ∨ remainder ≠ 0 ∧ drift > uint64Max / remainder)
    (failure .overflow)
  let product := remainder * drift
  let extra := product / 1000000 + if product % 1000000 ≠ 0 then 1 else 0
  let base := (c.binding.calibrationUncertaintyPs + c.pulseUncertainty).toNat
  rejectIf (whole * drift > uint64Max - base ∨ extra > uint64Max - base - whole * drift)
    (failure .overflow)
  return base + whole * drift + extra

def snapshot (c : ProtocolClock) (now : ℕ) : Result ClockSnapshot × ProtocolClock :=
  if ¬c.mapped ∨ now < c.capture then (.error (failure .invalidState), c)
  else
    let c := c.aged now
    (do
      let time ← add c.origin (.fromNanoseconds (now - c.capture))
      let uncertaintyPs ← c.uncertainty (now - c.capture)
      return { state := c.state, time, uncertaintyPs, mappingGeneration := c.generation
               calibrated := c.state = .locked, injected := c.binding.injected
               epoch := c.binding.epoch }, c)

end ProtocolClock

/-! ## Histories -/

inductive ClockOp where
  | bind (binding : ClockBinding)
  | observePps (capture : ℕ) (timeOfDay : Option ProtocolTime) (uncertaintyPs : UInt64)
  | ppsLost (now : ℕ)
  | snapshot (now : ℕ)

/-- The monotonic time of an operation. -/
def ClockOp.time : ClockOp → Option ℕ
  | .bind _ => none
  | .observePps capture _ _ => some capture
  | .ppsLost now => some now
  | .snapshot now => some now

/-- A pulse that was accepted. -/
structure Pulse where
  capture : ℕ
  time : ProtocolTime
  uncertaintyPs : UInt64

/-- The operations that succeeded, with the generation after a binding or a pulse. -/
inductive ClockEvent where
  | bound (binding : ClockBinding) (generation : ℕ)
  | pulse (p : Pulse) (generation : ℕ)
  | lost (now : ℕ)
  | reported (now : ℕ) (s : ClockSnapshot)

/-- A clock and its history. -/
structure ClockRun where
  clock : ProtocolClock := {}
  log : List ClockEvent := []

namespace ClockRun

def emit (r : ClockRun) (e : ClockEvent) : ClockRun := { r with log := r.log ++ [e] }

def step (r : ClockRun) : ClockOp → ClockRun
  | .bind binding =>
    match r.clock.bind binding with
    | .ok clock => { r with clock }.emit (.bound binding clock.generation)
    | .error _ => r
  | .observePps capture timeOfDay uncertaintyPs =>
    match r.clock.observePps capture timeOfDay uncertaintyPs, timeOfDay with
    | (.ok _, clock), some time =>
      { r with clock }.emit (.pulse ⟨capture, time, uncertaintyPs⟩ clock.generation)
    | (_, clock), _ => { r with clock }
  | .ppsLost now =>
    match r.clock.ppsLost now with
    | .ok clock => { r with clock }.emit (.lost now)
    | .error _ => r
  | .snapshot now =>
    match r.clock.snapshot now with
    | (.ok s, clock) => { r with clock }.emit (.reported now s)
    | (.error _, clock) => { r with clock }

def run (r : ClockRun) (ops : List ClockOp) : ClockRun := ops.foldl step r

end ClockRun

/-- What a history ends with: the present binding, its latest pulse, and whether the loss of the pulse was
reported since. -/
structure Standing where
  binding : Option ClockBinding := none
  pulse : Option Pulse := none
  lost : Bool := false
  generation : ℕ := 0

namespace Standing

def after (s : Standing) : ClockEvent → Standing
  | .bound b generation => { binding := some b, generation }
  | .pulse p generation => { s with pulse := some p, lost := false, generation }
  | .lost _ => { s with lost := true }
  | .reported _ _ => s

def of (log : List ClockEvent) : Standing := log.foldl after {}

theorem of_concat (log : List ClockEvent) (e : ClockEvent) : of (log ++ [e]) = (of log).after e := by
  rw [of, List.foldl_append]
  rfl

end Standing

/-! ## Snapshots -/

namespace ProtocolClock

variable {c : ProtocolClock}

/-- The parts of a product add up to its ceiling. -/
theorem drift_eq (elapsed drift : ℕ) :
    elapsed / 1000000 * drift + (elapsed % 1000000 * drift / 1000000 +
      if elapsed % 1000000 * drift % 1000000 ≠ 0 then 1 else 0) = elapsed * drift ⌈/⌉ 1000000 := by
  have hsplit : elapsed * drift = 1000000 * (elapsed / 1000000 * drift) + elapsed % 1000000 * drift := by
    rw [← Nat.mul_assoc, ← Nat.add_mul, Nat.div_add_mod]
  rw [Nat.ceilDiv_eq_add_pred_div, hsplit]
  generalize elapsed / 1000000 * drift = whole
  generalize elapsed % 1000000 * drift = product
  split <;> omega

/-- The uncertainty is exact when it fits, and the only error is overflow. -/
theorem uncertainty_ok {elapsed u : ℕ} (h : c.uncertainty elapsed = .ok u)
    (hbase : c.binding.calibrationUncertaintyPs.toNat + c.pulseUncertainty.toNat ≤ uint64Max) :
    u = c.binding.calibrationUncertaintyPs.toNat + c.pulseUncertainty.toNat +
      elapsed * c.binding.holdoverDriftPpb.toNat ⌈/⌉ 1000000 ∧ u ≤ uint64Max := by
  have hsum : (c.binding.calibrationUncertaintyPs + c.pulseUncertainty).toNat =
      c.binding.calibrationUncertaintyPs.toNat + c.pulseUncertainty.toNat := by
    rw [UInt64.toNat_add, Nat.mod_eq_of_lt]
    simp only [uint64Max] at hbase
    omega
  simp only [uncertainty, bind_eq_ok, rejectIf_eq_ok, exists_const, pure_eq_ok, Except.ok.injEq, hsum,
    not_or, not_lt] at h
  obtain ⟨-, ⟨hwhole, hextra⟩, rfl⟩ := h
  rw [← drift_eq]
  constructor <;> omega

theorem uncertainty_error {elapsed : ℕ} {e : Error} (h : c.uncertainty elapsed = .error e) :
    e = failure .overflow := by
  simp only [uncertainty, bind_eq_error, rejectIf_eq_error, rejectIf_eq_ok, exists_const, pure_eq_ok,
    reduceCtorEq, and_false, or_false] at h
  rcases h with ⟨-, rfl⟩ | ⟨-, -, rfl⟩ <;> rfl

/-- Aging changes the state only. -/
theorem aged_eq (c : ProtocolClock) (now : ℕ) : ∃ state, c.aged now = { c with state } ∧
    (state = .locked → c.state = .locked ∧ now - c.capture ≤ 1000000000) ∧
    (state ≠ .faulted → now - c.capture < c.binding.holdoverLimitNs.toNat) ∧
    (state = .faulted → c.state = .faulted ∨ c.binding.holdoverLimitNs.toNat ≤ now - c.capture) ∧
    (c.state = .faulted → state = .faulted) ∧ (state = .unbound → c.state = .unbound) := by
  unfold aged
  split
  · next hlimit =>
    exact ⟨_, rfl, nofun, fun h => absurd rfl h, fun _ => .inr hlimit, fun _ => rfl, nofun⟩
  · next hlimit =>
    split
    · next hold =>
      refine ⟨_, rfl, nofun, fun _ => by omega, nofun, fun h => ?_, nofun⟩
      rw [hold.2] at h
      cases h
    · next hfresh =>
      refine ⟨_, rfl, fun h => ⟨h, ?_⟩, fun _ => by omega, .inl, id, id⟩
      by_contra hlate
      exact hfresh ⟨by omega, h⟩

/-- A pulse is refused, or maps the clock. Without a time of day an unmapped clock goes on acquiring. -/
theorem observePps_cases (c : ProtocolClock) (capture : ℕ) (timeOfDay : Option ProtocolTime)
    (uncertaintyPs : UInt64) :
    (∃ e, c.observePps capture timeOfDay uncertaintyPs = (.error e, c)) ∨
    (∃ e, c.state ≠ .unbound ∧ c.mapped = false ∧
      c.observePps capture timeOfDay uncertaintyPs = (.error e, { c with state := .acquiring })) ∨
    ∃ time, timeOfDay = some time ∧ c.state ≠ .unbound ∧ time.valid ∧
      c.binding.calibrationUncertaintyPs.toNat + uncertaintyPs.toNat ≤ uint64Max ∧
      c.observePps capture timeOfDay uncertaintyPs =
        (.ok (), { c with capture, origin := time, pulseUncertainty := uncertaintyPs, mapped := true
                          generation := c.generation + 1, state := .locked }) := by
  have hcalibration : c.binding.calibrationUncertaintyPs.toNat ≤ uint64Max := by
    have := c.binding.calibrationUncertaintyPs.toNat_lt
    simp only [uint64Max]
    omega
  by_cases hunbound : c.state = .unbound
  · refine .inl ⟨failure .invalidState, ?_⟩
    simp only [observePps, if_pos hunbound]
  · cases timeOfDay with
    | none =>
      by_cases hm : c.mapped
      · refine .inl ⟨failure .invalidArgument, ?_⟩
        simp only [observePps, if_neg hunbound, hm, not_true, if_false]
      · refine .inr (.inl ⟨failure .invalidArgument, hunbound, by simpa using hm, ?_⟩)
        simp only [observePps, if_neg hunbound, hm, if_true, Bool.false_eq_true, not_false_eq_true]
    | some time =>
      by_cases hbad : ¬time.valid ∨ c.mapped ∧ capture < c.capture
      · refine .inl ⟨failure .invalidArgument, ?_⟩
        simp only [observePps, if_neg hunbound, if_pos hbad]
      · by_cases hfull : c.generation = uint64Max ∨
            uncertaintyPs.toNat > uint64Max - c.binding.calibrationUncertaintyPs.toNat
        · refine .inl ⟨failure .overflow, ?_⟩
          simp only [observePps, if_neg hunbound, if_neg hbad, if_pos hfull]
        · refine .inr (.inr ⟨time, rfl, hunbound, by tauto, by omega, ?_⟩)
          simp only [observePps, if_neg hunbound, if_neg hbad, if_neg hfull]

end ProtocolClock

/-! ## Every sequence of operations -/

/-- What an entry of a history says, given the entries before it. -/
def Says (log : List ClockEvent) : ClockEvent → Prop
  | .bound _ generation => (Standing.of log).generation < generation
  | .pulse _ generation => (Standing.of log).generation < generation
  | .lost _ => True
  | .reported now s => ∃ b p, (Standing.of log).binding = some b ∧ (Standing.of log).pulse = some p ∧
      p.capture ≤ now ∧
      (s.state = .locked → now - p.capture ≤ 1000000000 ∧ (Standing.of log).lost = false) ∧
      (s.state = .locked ∨ s.state = .holdover → now - p.capture < b.holdoverLimitNs.toNat) ∧
      s.time.valid ∧ s.time.ps = p.time.ps + 1000 * (now - p.capture) ∧
      s.uncertaintyPs = b.calibrationUncertaintyPs.toNat + p.uncertaintyPs.toNat +
        (now - p.capture) * b.holdoverDriftPpb.toNat ⌈/⌉ 1000000 ∧
      s.uncertaintyPs ≤ uint64Max ∧ s.mappingGeneration = (Standing.of log).generation

/-- What a mapped clock has, at a time that is not before any operation. -/
structure Mapped (c : ProtocolClock) (s : Standing) (t : ℕ) : Prop where
  pulse : s.pulse = some ⟨c.capture, c.origin, c.pulseUncertainty⟩
  capture : c.capture ≤ t
  origin : c.origin.valid
  base : c.binding.calibrationUncertaintyPs.toNat + c.pulseUncertainty.toNat ≤ uint64Max
  locked : c.state = .locked → s.lost = false
  faulted : c.state = .faulted → c.binding.holdoverLimitNs.toNat ≤ t - c.capture

/-- The clock and its history agree. -/
structure ClockRun.Sound (r : ClockRun) (t : ℕ) : Prop where
  generation : (Standing.of r.log).generation = r.clock.generation
  bound : r.clock.state ≠ .unbound → (Standing.of r.log).binding = some r.clock.binding
  mapped : r.clock.mapped → r.clock.state ≠ .unbound ∧ Mapped r.clock (Standing.of r.log) t
  unmapped : r.clock.mapped = false → r.clock.state ≠ .faulted
  entries : Traced Says r.log

namespace ClockRun

variable {r : ClockRun} {t t' : ℕ}

/-- A run stays sound as time goes on. -/
theorem Sound.later (h : r.Sound t) (hle : t ≤ t') : r.Sound t' where
  generation := h.generation
  bound := h.bound
  mapped := fun hm => by
    obtain ⟨hbound, hmapped⟩ := h.mapped hm
    refine ⟨hbound, hmapped.pulse, hmapped.capture.trans hle, hmapped.origin, hmapped.base,
      hmapped.locked, fun hf => ?_⟩
    have := hmapped.faulted hf
    omega
  unmapped := h.unmapped
  entries := h.entries

/-- A new binding leaves the clock sound. -/
theorem Sound.bind (h : r.Sound t) (b : ClockBinding) : (r.step (.bind b)).Sound t := by
  unfold step
  simp only
  split
  · next clock hbind =>
    simp only [ProtocolClock.bind, bind_eq_ok, rejectIf_eq_ok, exists_const, pure_eq_ok,
      Except.ok.injEq] at hbind
    obtain ⟨-, -, rfl⟩ := hbind
    refine ⟨?_, fun _ => ?_, fun hm => ?_, fun hun => ?_, traced_concat.mpr ⟨h.entries, ?_⟩⟩
    · show (Standing.of (r.log ++ [_])).generation = _
      rw [Standing.of_concat]
      rfl
    · show (Standing.of (r.log ++ [_])).binding = _
      rw [Standing.of_concat]
      rfl
    · cases hm
    · show ClockState.acquiring ≠ .faulted
      simp
    · show (Standing.of r.log).generation < r.clock.generation + 1
      rw [h.generation]
      exact Nat.lt_succ_self _
  · exact h

/-- A pulse that is observed leaves the clock sound. -/
theorem Sound.observePps (h : r.Sound t) {capture : ℕ} (hle : t ≤ capture)
    (timeOfDay : Option ProtocolTime) (uncertaintyPs : UInt64) :
    (r.step (.observePps capture timeOfDay uncertaintyPs)).Sound capture := by
  have h' := h.later hle
  rcases r.clock.observePps_cases capture timeOfDay uncertaintyPs with ⟨e, heq⟩ |
    ⟨e, hbound, hunmapped, heq⟩ | ⟨time, rfl, hbound, hvalid, hroom, heq⟩
  · have hstep : r.step (.observePps capture timeOfDay uncertaintyPs) = r := by
      simp only [step, heq]
    rw [hstep]
    exact h'
  · have hstep : r.step (.observePps capture timeOfDay uncertaintyPs) =
        { r with clock := { r.clock with state := .acquiring } } := by
      simp only [step, heq]
    rw [hstep]
    refine ⟨h'.generation, fun _ => h'.bound hbound, fun hm => ?_, nofun, h'.entries⟩
    exact absurd hunmapped (by rw [show r.clock.mapped = true from hm]; nofun)
  · have hof : Standing.of (r.log ++ [.pulse ⟨capture, time, uncertaintyPs⟩ (r.clock.generation + 1)]) =
        { Standing.of r.log with pulse := some ⟨capture, time, uncertaintyPs⟩, lost := false
                                 generation := r.clock.generation + 1 } := Standing.of_concat _ _
    simp only [step, heq]
    refine ⟨?_, fun _ => ?_, fun _ => ⟨nofun, ⟨?_, Nat.le_refl _, hvalid, hroom, fun _ => ?_, nofun⟩⟩,
      nofun, traced_concat.mpr ⟨h.entries, ?_⟩⟩
    · show (Standing.of (r.log ++ [_])).generation = _
      rw [hof]
      rfl
    · show (Standing.of (r.log ++ [_])).binding = _
      rw [hof]
      exact h.bound hbound
    · show (Standing.of (r.log ++ [_])).pulse = _
      rw [hof]
      rfl
    · show (Standing.of (r.log ++ [_])).lost = _
      rw [hof]
    · show (Standing.of r.log).generation < r.clock.generation + 1
      rw [h.generation]
      exact Nat.lt_succ_self _

/-- A pulse that is lost leaves the clock sound. -/
theorem Sound.ppsLost (h : r.Sound t) {now : ℕ} (hle : t ≤ now) :
    (r.step (.ppsLost now)).Sound now := by
  have h' := h.later hle
  unfold step
  simp only
  split
  · next clock hlost =>
    simp only [ProtocolClock.ppsLost, bind_eq_ok, rejectIf_eq_ok, exists_const, pure_eq_ok,
      Except.ok.injEq, not_or, not_not] at hlost
    obtain ⟨⟨hm, -⟩, rfl⟩ := hlost
    obtain ⟨hbound, hmapped⟩ := h'.mapped hm
    have hof : Standing.of (r.log ++ [.lost now]) = { Standing.of r.log with lost := true } :=
      Standing.of_concat _ _
    refine ⟨?_, fun _ => ?_, fun _ => ⟨?_, ⟨?_, hmapped.capture, hmapped.origin, hmapped.base, ?_, ?_⟩⟩,
      fun hun => ?_, traced_concat.mpr ⟨h.entries, trivial⟩⟩
    · show (Standing.of (r.log ++ [_])).generation = _
      rw [hof]
      exact h.generation
    · show (Standing.of (r.log ++ [_])).binding = _
      rw [hof]
      exact h.bound hbound
    · show (if _ then ClockState.faulted else .holdover) ≠ _
      split <;> simp
    · show (Standing.of (r.log ++ [_])).pulse = _
      rw [hof]
      exact hmapped.pulse
    · show (if _ then ClockState.faulted else .holdover) = .locked → _
      split <;> simp
    · show (if _ then ClockState.faulted else .holdover) = .faulted → _
      split
      · next hlimit => exact fun _ => hlimit
      · simp
    · exact absurd hm (by rw [show r.clock.mapped = false from hun]; simp)
  · exact h'

/-- The report of a mapped clock. -/
theorem Sound.reports (h : r.Sound t) {now : ℕ} (hle : t ≤ now) (hm : r.clock.mapped)
    {s : ClockSnapshot} (hs : (r.clock.snapshot now).1 = .ok s) : Says r.log (.reported now s) := by
  obtain ⟨hbound, hmapped⟩ := (h.later hle).mapped hm
  obtain ⟨state, haged, hlocked, hheld, -, -, -⟩ := r.clock.aged_eq now
  unfold ProtocolClock.snapshot at hs
  split at hs
  · cases hs
  · simp only [haged, bind_eq_ok, pure_eq_ok, Except.ok.injEq] at hs
    obtain ⟨time, htime, u, hu, rfl⟩ := hs
    obtain ⟨-, hvalid, hps⟩ :=
      (add_eq_ok hmapped.origin (Duration.fromNanoseconds_valid _)).mp htime
    rw [Duration.fromNanoseconds_ps] at hps
    obtain ⟨heq, hmax⟩ := ProtocolClock.uncertainty_ok hu hmapped.base
    refine ⟨_, _, h.bound hbound, hmapped.pulse, hmapped.capture, fun hstate => ?_, fun hstate => ?_,
      hvalid, hps, heq, hmax, h.generation.symm⟩
    · obtain ⟨hbefore, hfresh⟩ := hlocked hstate
      exact ⟨hfresh, hmapped.locked hbefore⟩
    · refine hheld fun hfaulted => ?_
      change state = .locked ∨ state = .holdover at hstate
      rw [hfaulted] at hstate
      rcases hstate with hstate | hstate <;> cases hstate

/-- A snapshot leaves the clock sound. -/
theorem Sound.snapshot (h : r.Sound t) {now : ℕ} (hle : t ≤ now) :
    (r.step (.snapshot now)).Sound now := by
  have h' := h.later hle
  by_cases hrefused : ¬r.clock.mapped ∨ now < r.clock.capture
  · have hstep : r.step (.snapshot now) = r := by
      unfold step ProtocolClock.snapshot
      simp only [if_pos hrefused]
    rw [hstep]
    exact h'
  · have hm : r.clock.mapped := by tauto
    obtain ⟨hbound, hmapped⟩ := h'.mapped hm
    obtain ⟨state, haged, hlocked, -, hfaulted, -, hnew⟩ := r.clock.aged_eq now
    have hclock : (r.clock.snapshot now).2 = { r.clock with state } := by
      unfold ProtocolClock.snapshot
      rw [if_neg hrefused]
      exact haged
    have hunbound : state ≠ .unbound := fun hstate => hbound (hnew hstate)
    -- the history may get a report, the clock only gets older
    have hkeeps : ∀ log, Standing.of log = Standing.of r.log → Traced Says log →
        Sound { clock := { r.clock with state }, log } now := by
      intro log hlog hentries
      refine ⟨?_, fun _ => ?_, fun _ => ⟨hunbound, ⟨?_, hmapped.capture, hmapped.origin, hmapped.base,
        ?_, ?_⟩⟩, fun hun => ?_, hentries⟩
      · rw [hlog]
        exact h.generation
      · rw [hlog]
        exact h.bound hbound
      · rw [hlog]
        exact hmapped.pulse
      · intro hstate
        rw [hlog]
        exact hmapped.locked (hlocked hstate).1
      · intro hstate
        rcases hfaulted hstate with hbefore | hlimit
        · exact hmapped.faulted hbefore
        · exact hlimit
      · exact absurd hm (by rw [show r.clock.mapped = false from hun]; nofun)
    unfold step
    simp only
    split
    · next s clock hs =>
      obtain rfl : clock = { r.clock with state } := by rw [← hclock, hs]
      refine hkeeps (r.log ++ [.reported now s]) (Standing.of_concat _ _)
        (traced_concat.mpr ⟨h.entries, h.reports hle hm ?_⟩)
      rw [hs]
    · next e clock hs =>
      obtain rfl : clock = { r.clock with state } := by rw [← hclock, hs]
      exact hkeeps r.log rfl h.entries

theorem Sound.step (h : r.Sound t) (op : ClockOp) (hle : ∀ now ∈ op.time, t ≤ now) :
    (r.step op).Sound (op.time.getD t) := by
  cases op with
  | bind b => exact h.bind b
  | observePps capture timeOfDay uncertaintyPs => exact h.observePps (hle _ rfl) _ _
  | ppsLost now => exact h.ppsLost (hle _ rfl)
  | snapshot now => exact h.snapshot (hle _ rfl)

/-- The time of the next operation is not before the present one. -/
theorem next_time {op : ClockOp} {ops : List ClockOp}
    (h : (t :: (op :: ops).filterMap ClockOp.time).Pairwise (· ≤ ·)) :
    (∀ now ∈ op.time, t ≤ now) ∧ (op.time.getD t :: ops.filterMap ClockOp.time).Pairwise (· ≤ ·) := by
  cases htime : op.time with
  | none =>
    rw [List.filterMap_cons_none htime] at h
    exact ⟨nofun, h⟩
  | some now =>
    rw [List.filterMap_cons_some htime, List.pairwise_cons] at h
    refine ⟨fun n hn => ?_, h.2⟩
    cases hn
    exact h.1 now List.mem_cons_self

/-- The clock and its history agree after every sequence of operations. -/
theorem Sound.run (h : r.Sound t) {ops : List ClockOp}
    (hmono : (t :: ops.filterMap ClockOp.time).Pairwise (· ≤ ·)) :
    ∃ t', (t' = t ∨ t' ∈ ops.filterMap ClockOp.time) ∧ (r.run ops).Sound t' := by
  induction ops generalizing r t with
  | nil => exact ⟨t, .inl rfl, h⟩
  | cons op ops ih =>
    obtain ⟨hle, hrest⟩ := next_time hmono
    obtain ⟨t', ht', hsound⟩ := ih (h.step op hle) hrest
    refine ⟨t', ?_, hsound⟩
    cases htime : op.time with
    | none =>
      rw [htime] at ht'
      rwa [List.filterMap_cons_none htime]
    | some now =>
      rw [htime] at ht'
      rw [List.filterMap_cons_some htime]
      rcases ht' with rfl | ht'
      · exact .inr List.mem_cons_self
      · exact .inr (List.mem_cons_of_mem _ ht')

/-! ## Faults -/

end ClockRun

/-- A binding, or a pulse with its time of day. -/
def ClockEvent.renews : ClockEvent → Bool
  | .bound _ _ | .pulse _ _ => true
  | _ => false

namespace ClockRun

variable {r : ClockRun} {t : ℕ}

/-- A fault ends with a new binding or pulse only. -/
theorem Sound.faulted_step (h : r.Sound t) (hf : r.clock.state = .faulted) (op : ClockOp)
    (hle : ∀ now ∈ op.time, t ≤ now) :
    ∃ more, (r.step op).log = r.log ++ more ∧
      ((r.step op).clock.state = .faulted ∨ ∃ e ∈ more, e.renews) := by
  have hm : r.clock.mapped := by
    by_contra hun
    exact h.unmapped (by simpa using hun) hf
  cases op with
  | bind b =>
    simp only [ClockRun.step]
    split
    · exact ⟨[_], rfl, .inr ⟨_, List.mem_singleton_self _, rfl⟩⟩
    · exact ⟨[], (List.append_nil _).symm, .inl hf⟩
  | observePps capture timeOfDay uncertaintyPs =>
    rcases r.clock.observePps_cases capture timeOfDay uncertaintyPs with ⟨e, heq⟩ |
      ⟨e, -, hunmapped, -⟩ | ⟨time, rfl, -, -, -, heq⟩
    · simp only [ClockRun.step, heq]
      exact ⟨[], (List.append_nil _).symm, .inl hf⟩
    · rw [hm] at hunmapped
      cases hunmapped
    · simp only [ClockRun.step, heq]
      exact ⟨[_], rfl, .inr ⟨_, List.mem_singleton_self _, rfl⟩⟩
  | ppsLost now =>
    have hlimit := ((h.later (hle _ rfl)).mapped hm).2.faulted hf
    simp only [ClockRun.step]
    split
    · next clock hlost =>
      simp only [ProtocolClock.ppsLost, bind_eq_ok, rejectIf_eq_ok, exists_const, pure_eq_ok,
        Except.ok.injEq] at hlost
      obtain ⟨-, rfl⟩ := hlost
      refine ⟨[_], rfl, .inl ?_⟩
      show (if _ then ClockState.faulted else .holdover) = _
      rw [if_pos hlimit]
    · exact ⟨[], (List.append_nil _).symm, .inl hf⟩
  | snapshot now =>
    obtain ⟨state, haged, -, -, -, hstays, -⟩ := r.clock.aged_eq now
    have hclock : (r.clock.snapshot now).2.state = .faulted := by
      unfold ProtocolClock.snapshot
      split
      · exact hf
      · simp only [haged]
        exact hstays hf
    simp only [ClockRun.step]
    split
    · next s clock hs =>
      rw [hs] at hclock
      exact ⟨[_], rfl, .inl hclock⟩
    · next e clock hs =>
      rw [hs] at hclock
      exact ⟨[], (List.append_nil _).symm, .inl hclock⟩

/-- A log only grows. -/
theorem step_log (r : ClockRun) (op : ClockOp) : ∃ more, (r.step op).log = r.log ++ more := by
  cases op with
  | bind b =>
    simp only [step]
    split
    · exact ⟨[_], rfl⟩
    · exact ⟨[], (List.append_nil _).symm⟩
  | observePps capture timeOfDay uncertaintyPs =>
    simp only [step]
    split
    · exact ⟨[_], rfl⟩
    · exact ⟨[], (List.append_nil _).symm⟩
  | ppsLost now =>
    simp only [step]
    split
    · exact ⟨[_], rfl⟩
    · exact ⟨[], (List.append_nil _).symm⟩
  | snapshot now =>
    simp only [step]
    split
    · exact ⟨[_], rfl⟩
    · exact ⟨[], (List.append_nil _).symm⟩

theorem run_log (r : ClockRun) (ops : List ClockOp) : ∃ more, (r.run ops).log = r.log ++ more := by
  induction ops generalizing r with
  | nil => exact ⟨[], (List.append_nil _).symm⟩
  | cons op ops ih =>
    obtain ⟨more, hmore⟩ := r.step_log op
    obtain ⟨rest, hrest⟩ := ih (r.step op)
    exact ⟨more ++ rest, by rw [← List.append_assoc, ← hmore]; exact hrest⟩

/-- A fault lasts until a new binding, or a pulse with its time of day. -/
theorem Sound.faulted_run (h : r.Sound t) (hf : r.clock.state = .faulted) {ops : List ClockOp}
    (hmono : (t :: ops.filterMap ClockOp.time).Pairwise (· ≤ ·)) :
    ∃ more, (r.run ops).log = r.log ++ more ∧
      ((r.run ops).clock.state = .faulted ∨ ∃ e ∈ more, e.renews) := by
  induction ops generalizing r t with
  | nil => exact ⟨[], (List.append_nil _).symm, .inl hf⟩
  | cons op ops ih =>
    obtain ⟨hle, hrest⟩ := next_time hmono
    obtain ⟨more, hmore, hf' | ⟨e, he, hrenews⟩⟩ := h.faulted_step hf op hle
    · obtain ⟨rest, hlog, hend⟩ := ih (h.step op hle) hf' hrest
      refine ⟨more ++ rest, by rw [← List.append_assoc, ← hmore]; exact hlog, hend.imp_right ?_⟩
      rintro ⟨e, he, hrenews⟩
      exact ⟨e, List.mem_append_right _ he, hrenews⟩
    · obtain ⟨rest, hlog⟩ := (r.step op).run_log ops
      refine ⟨more ++ rest, by rw [← List.append_assoc, ← hmore]; exact hlog, .inr ?_⟩
      exact ⟨e, List.mem_append_left _ he, hrenews⟩

/-- A mapped clock fails to report only for lack of room. -/
theorem Sound.snapshot_error (h : r.Sound t) (hm : r.clock.mapped) {now : ℕ} (hle : t ≤ now) {e : Error}
    (he : (r.clock.snapshot now).1 = .error e) : e = failure .overflow := by
  obtain ⟨-, hmapped⟩ := (h.later hle).mapped hm
  obtain ⟨state, haged, -⟩ := r.clock.aged_eq now
  have hcapture := hmapped.capture
  unfold ProtocolClock.snapshot at he
  rw [if_neg (by simp only [hm, not_true, false_or, not_lt]; exact hcapture)] at he
  simp only [haged, bind_eq_error, pure_eq_ok, reduceCtorEq, and_false, or_false, exists_false] at he
  rcases he with he | ⟨-, -, he⟩
  · exact add_error hmapped.origin (Duration.fromNanoseconds_valid _) he
  · exact ProtocolClock.uncertainty_error he

theorem sound_new : ({} : ClockRun).Sound 0 where
  generation := rfl
  bound := fun h => absurd rfl h
  mapped := nofun
  unmapped := nofun
  entries := traced_nil _

end ClockRun

/-- Clock qualification is conservative: whatever a clock was asked to do, a report follows from the
latest pulse of the present binding, a fault lasts until the next binding or pulse, and what cannot be
represented is reported as overflow. -/
theorem clock_conservative (ops : List ClockOp)
    (hmono : (ops.filterMap ClockOp.time).Pairwise (· ≤ ·)) :
    Traced Says (({} : ClockRun).run ops).log ∧
    (∀ first rest, ops = first ++ rest → (({} : ClockRun).run first).clock.state = .faulted →
      ∃ more, (({} : ClockRun).run ops).log = (({} : ClockRun).run first).log ++ more ∧
        ((({} : ClockRun).run ops).clock.state = .faulted ∨ ∃ e ∈ more, e.renews)) ∧
    ∀ now e, (∀ t ∈ ops.filterMap ClockOp.time, t ≤ now) → (({} : ClockRun).run ops).clock.mapped →
      ((({} : ClockRun).run ops).clock.snapshot now).1 = .error e → e = failure .overflow := by
  have hzero : (0 :: ops.filterMap ClockOp.time).Pairwise (· ≤ ·) :=
    List.pairwise_cons.mpr ⟨fun _ _ => Nat.zero_le _, hmono⟩
  obtain ⟨t, ht, hsound⟩ := ClockRun.sound_new.run hzero
  refine ⟨hsound.entries, ?_, fun now e hle hm he => ?_⟩
  · rintro first rest rfl hf
    rw [List.filterMap_append] at hmono hzero
    have hfirst : (0 :: first.filterMap ClockOp.time).Pairwise (· ≤ ·) :=
      hzero.sublist (List.sublist_append_left (0 :: first.filterMap ClockOp.time) _)
    obtain ⟨t, ht, hsound⟩ := ClockRun.sound_new.run hfirst
    have hrest : (t :: rest.filterMap ClockOp.time).Pairwise (· ≤ ·) := by
      refine List.pairwise_cons.mpr ⟨fun t' ht' => ?_, (List.pairwise_append.mp hmono).2.1⟩
      rcases ht with rfl | ht
      · exact Nat.zero_le _
      · exact (List.pairwise_append.mp hmono).2.2 t ht t' ht'
    have hrun : ({} : ClockRun).run (first ++ rest) = (({} : ClockRun).run first).run rest :=
      List.foldl_append ..
    rw [hrun]
    exact hsound.faulted_run hf hrest
  · refine hsound.snapshot_error hm ?_ he
    rcases ht with rfl | ht
    · exact Nat.zero_le _
    · exact hle t ht

/-- A pulse at 5 s, read half a second later. -/
theorem clock_conservative_pulse :
    ∃ ops : List ClockOp, (ops.filterMap ClockOp.time).Pairwise (· ≤ ·) ∧
      Traced Says (({} : ClockRun).run ops).log ∧
      ((({} : ClockRun).run ops).clock.snapshot 700000000).1.toOption.map ClockSnapshot.time =
        some { seconds := 5, picoseconds := 700000000000 } := by
  have hmono : (([.bind { epochConfigured := true, injected := true },
      .observePps 0 (some { seconds := 5 }) 0, .snapshot 500000000] : List ClockOp).filterMap
        ClockOp.time).Pairwise (· ≤ ·) := by decide
  exact ⟨_, hmono, (clock_conservative _ hmono).1, rfl⟩

end Vita.Timing
