import Vita.Timing.SampleTimeline

/-!
# A sweep over frequencies (`SweepPolicy` of `profiles/iq/frequency_scan.hpp`)

The policy returns one frequency after the other. It goes on once the tune was executed, the frequency
was read back and the dwell is over. A call is `none` where an operation of 64 bits would wrap.

The log has the frequencies that were returned, the evidence that counted and the points whose dwell
was over at a call of `next`; the policy never reads it.
-/

namespace Vita.Profiles

open Checked Timing Timing.Word64

structure SweepConfig where
  startHz : ℕ := 100000000
  stopHz : ℕ := 100200000
  stepHz : ℕ := 25000
  dwellNs : ℕ := 100000000
  timeoutNs : ℕ := 1000000000
  sweeps : ℕ := 1
  continuous : Bool := false

inductive SweepPhase where
  | ready | awaiting | dwelling | complete | failed
deriving DecidableEq

structure TuneExecution where
  executed : Bool := false
  simulated : Bool := false
  isPartial : Bool := false
  unknown : Bool := false

/-- A whole execution, by the device, of which all is known. -/
def TuneExecution.real (e : TuneExecution) : Bool :=
  e.executed ∧ ¬e.simulated ∧ ¬e.isPartial ∧ ¬e.unknown

/-- What happens in a sweep. -/
inductive Visit where
  /-- `next` returns the frequency. -/
  | tuned (hz now : ℕ)
  | executed (evidence : TuneExecution) (now : ℕ)
  | read (hz now : ℕ)
  /-- A call of `next` finds the dwell of a point over. -/
  | finished (now : ℕ)

structure SweepPolicy where
  config : SweepConfig
  phase : SweepPhase := .ready
  current : ℕ
  deadline : ℕ := 0
  lastNow : ℕ := 0
  completed : ℕ := 0
  completedSweeps : ℕ := 0
  execution : Bool := false
  readback : Bool := false
  log : List Visit := []

namespace SweepPolicy

def create (config : SweepConfig) : Result SweepPolicy :=
  if config.startHz < 1000000 ∨ config.stopHz > 6000000000 ∨ config.startHz > config.stopHz ∨
      config.stepHz = 0 ∨ config.timeoutNs = 0 ∨ config.sweeps = 0 then
    .error (failure .invalidArgument)
  else .ok { config, current := config.startHz }

def emit (v : Visit) (s : SweepPolicy) : SweepPolicy := { s with log := s.log ++ [v] }

/-- The sweep fails. -/
def fail {α : Type} (code : ErrorCode) (s : SweepPolicy) : Result α × SweepPolicy :=
  (.error (failure code), { s with phase := .failed })

def checkTime (now : ℕ) (s : SweepPolicy) : Result Unit × SweepPolicy :=
  if now < s.lastNow then (.error (failure .invalidArgument), s)
  else
    let s := { s with lastNow := now }
    if s.phase = .awaiting ∧ now ≥ s.deadline then s.fail .invalidState else (.ok (), s)

def finishEvidence (now : ℕ) (s : SweepPolicy) : Option (Result Unit × SweepPolicy) :=
  if s.execution ∧ s.readback then do
    let room ← minus uint64Max now
    if s.config.dwellNs > room then some (s.fail .overflow)
    else do
      let deadline ← plus now s.config.dwellNs
      return (.ok (), { s with phase := .dwelling, deadline })
  else some (.ok (), s)

/-- The part of `next` behind a point whose dwell is over: a result, or the next point. -/
def moveOn (now : ℕ) (s : SweepPolicy) : Option (Option (Result (Option ℕ)) × SweepPolicy) :=
  if s.phase = .dwelling ∧ now ≥ s.deadline then
    let s := s.emit (.finished now)
    if s.completed = uint64Max then
      some (some (.error (failure .overflow)), { s with phase := .failed })
    else do
      let completed ← plus s.completed 1
      let s := { s with completed }
      let room ← minus s.config.stopHz s.current
      if s.config.stepHz > room then
        if s.completedSweeps = uint64Max then
          some (some (.error (failure .overflow)), { s with phase := .failed })
        else do
          let completedSweeps ← plus s.completedSweeps 1
          let s := { s with completedSweeps }
          if ¬s.config.continuous ∧ s.completedSweeps = s.config.sweeps then
            some (some (.ok none), { s with phase := .complete })
          else some (none, { s with current := s.config.startHz, phase := .ready })
      else do
        let current ← plus s.current s.config.stepHz
        return (none, { s with current, phase := .ready })
  else some (none, s)

/-- The part of `next` that returns a frequency. -/
def submit (now : ℕ) (s : SweepPolicy) : Option (Result (Option ℕ) × SweepPolicy) :=
  if s.phase ≠ .ready then some (.ok none, s)
  else do
    let room ← minus uint64Max now
    if s.config.timeoutNs > room then some (s.fail .overflow)
    else do
      let deadline ← plus now s.config.timeoutNs
      let s := { s with deadline, execution := false, readback := false, phase := .awaiting }
      return (.ok (some s.current), s.emit (.tuned s.current now))

def next (now : ℕ) (s : SweepPolicy) : Option (Result (Option ℕ) × SweepPolicy) :=
  match s.checkTime now with
  | (.error e, s) => some (.error e, s)
  | (.ok _, s) =>
    if s.phase = .failed then some (.error (failure .invalidState), s)
    else do
      match ← s.moveOn now with
      | (some r, s) => some (r, s)
      | (none, s) => s.submit now

def reportExecution (evidence : TuneExecution) (now : ℕ) (s : SweepPolicy) :
    Option (Result Unit × SweepPolicy) :=
  match s.checkTime now with
  | (.error e, s) => some (.error e, s)
  | (.ok _, s) =>
    if s.phase = .dwelling ∧ s.execution ∧ evidence.real then some (.ok (), s)
    else if s.phase ≠ .awaiting then some (.error (failure .invalidState), s)
    else if ¬evidence.real then some (s.fail .invalidState)
    else ({ s with execution := true }.emit (.executed evidence now)).finishEvidence now

def reportReadback (hz : ℕ) (known : Bool) (now : ℕ) (s : SweepPolicy) :
    Option (Result Unit × SweepPolicy) :=
  match s.checkTime now with
  | (.error e, s) => some (.error e, s)
  | (.ok _, s) =>
    if s.phase = .dwelling ∧ s.readback ∧ known ∧ hz = s.current then some (.ok (), s)
    else if s.phase ≠ .awaiting then some (.error (failure .invalidState), s)
    else if ¬known ∨ hz ≠ s.current then some (s.fail .invalidState)
    else ({ s with readback := true }.emit (.read hz now)).finishEvidence now

def submissionFailed (s : SweepPolicy) : SweepPolicy := { s with phase := .failed }

/-! ## Runs -/

inductive Call where
  | next (now : ℕ)
  | execution (evidence : TuneExecution) (now : ℕ)
  | readback (hz : ℕ) (known : Bool) (now : ℕ)
  | submissionFailed

/-- The time of the call is a number of 64 bits. -/
def Call.Representable : Call → Prop
  | .next now | .execution _ now | .readback _ _ now => now ≤ uint64Max
  | .submissionFailed => True

def step (s : SweepPolicy) : Call → Option SweepPolicy
  | .next now => (s.next now).map Prod.snd
  | .execution evidence now => (s.reportExecution evidence now).map Prod.snd
  | .readback hz known now => (s.reportReadback hz known now).map Prod.snd
  | .submissionFailed => some s.submissionFailed

def run (s : SweepPolicy) (calls : List Call) : Option SweepPolicy := calls.foldlM step s

end SweepPolicy

end Vita.Profiles
