import Vita.Timing.Time

/-!
# Sample timeline and boundaries (`timing/sample_timeline.hpp`, `timing/scheduling.hpp`)

`SampleTimeline` counts samples from an origin at a rate that may change; its exact time is a protocol
time and a fraction of a picosecond. `chooseBoundary` selects the sample boundary at which a command
takes effect.
-/

namespace Vita.Timing

open Checked

/-! ## The timeline -/

structure ExactSampleTime where
  time : ProtocolTime := {}
  numerator : ℕ := 0
  denominator : ℕ := 1

structure SampleTimeline where
  current : ExactSampleTime := {}
  rate : ℕ := 1
  ordinal : ℕ := 0
  revision : ℕ := 0

namespace SampleTimeline

def commonDenominator (a b : ℕ) : Result ℕ := do
  let factor := a / Nat.gcd a b
  rejectIf (factor > uint64Max / b) (failure .resourceLimit)
  return factor * b

def create (origin : ProtocolTime) (rate : ℕ) : Result SampleTimeline := do
  rejectIf (¬origin.valid ∨ rate = 0 ∨ rate > 100000000) (failure .invalidArgument)
  return { current := { time := origin }, rate }

def time (t : SampleTimeline) : ProtocolTime := t.current.time

def changeRate (t : SampleTimeline) (rate : ℕ) : Result SampleTimeline := do
  rejectIf (rate = 0 ∨ rate > 100000000) (failure .invalidArgument)
  rejectIf (t.revision = uint64Max) (failure .overflow)
  let _ ← commonDenominator t.current.denominator (rate / Nat.gcd picosecondsPerSecond rate)
  return { t with rate, revision := t.revision + 1 }

def advance (t : SampleTimeline) (samples : ℕ) : Result SampleTimeline := do
  rejectIf (samples > uint64Max - t.ordinal) (failure .overflow)
  let remaining := samples % t.rate
  let product := remaining * (picosecondsPerSecond % t.rate)
  let fraction := remaining * (picosecondsPerSecond / t.rate) + product / t.rate
  let divisor := Nat.gcd picosecondsPerSecond t.rate
  let stepDenominator := t.rate / divisor
  let denominator ← commonDenominator t.current.denominator stepDenominator
  let a := t.current.numerator * (denominator / t.current.denominator)
  let b := product % t.rate / divisor * (denominator / stepDenominator)
  let next ← add t.current.time { seconds := samples / t.rate, picoseconds := fraction }
  -- a full picosecond is carried into the time
  if a ≥ denominator - b then
    let next ← add next { picoseconds := 1 }
    let numerator := a - (denominator - b)
    let g := Nat.gcd numerator denominator
    return { t with current := { time := next, numerator := numerator / g
                                 denominator := denominator / g }
                    ordinal := t.ordinal + samples }
  else
    let numerator := a + b
    let g := Nat.gcd numerator denominator
    return { t with current := { time := next, numerator := numerator / g
                                 denominator := denominator / g }
                    ordinal := t.ordinal + samples }

end SampleTimeline

/-! ## Boundaries -/

structure TimingCapabilities where
  deviceEarlyPs : ℕ := 0
  deviceLatePs : ℕ := 0
  applicationEarlyPs : ℕ := 0
  applicationLatePs : ℕ := 0
  preparationLeadNs : ℕ := 0
  horizonNs : ℕ := 0
  qualified : Bool := false
  injected : Bool := false

structure ExecutionWindow where
  earliest : ProtocolTime := {}
  latest : ProtocolTime := {}

structure Boundary where
  time : ProtocolTime := {}
  sampleOrdinal : ℕ := 0
  mappingGeneration : ℕ := 0
  committed : Bool := false
  backendReady : Bool := true
  quantizationUncertaintyPs : ℕ := 0
deriving DecidableEq

/-- How early and how late an effect may be in a timing mode, in picoseconds. -/
def tolerances (mode : ℕ) (c : TimingCapabilities) : Result (ℕ × ℕ) := do
  if mode = 2 then
    rejectIf (c.applicationLatePs > uint64Max - c.deviceLatePs) (failure .overflow)
    return (c.deviceEarlyPs, c.deviceLatePs + c.applicationLatePs)
  else if mode = 3 then
    rejectIf (c.applicationEarlyPs > uint64Max - c.deviceEarlyPs) (failure .overflow)
    return (c.deviceEarlyPs + c.applicationEarlyPs, c.deviceLatePs)
  else if mode = 4 then
    return (c.applicationEarlyPs, c.applicationLatePs)
  else
    return (c.deviceEarlyPs, c.deviceLatePs)

def executionWindow (mode : ℕ) (requested : ProtocolTime) (c : TimingCapabilities) :
    Result ExecutionWindow := do
  rejectIf (mode < 1 ∨ mode > 4 ∨ ¬requested.valid) (failure .invalidArgument)
  let (early, late) ← tolerances mode c
  let first ← subtract requested (.fromPicoseconds early)
  let last ← add requested (.fromPicoseconds late)
  return { earliest := first, latest := last }

def effectIntervalAllowed (mode : ℕ) (requested first last : ProtocolTime) (c : TimingCapabilities) :
    Result Bool := do
  rejectIf (mode > 4 ∨ ¬first.valid ∨ ¬last.valid ∨ last.before first) (failure .invalidArgument)
  if mode = 0 then return true
  else
    let window ← executionWindow mode requested c
    return ¬first.before window.earliest ∧ ¬window.latest.before last

/-- The state of the search for the nearest boundary. -/
structure Selection where
  selected : Option Boundary := none
  distance : Duration := {}

/-- One candidate of a timed command, which has to lie in the window with its uncertainty. -/
def considerTimed (clock : ClockSnapshot) (requested : ProtocolTime) (window : ExecutionWindow)
    (s : Selection) (b : Boundary) : Result Selection := do
  rejectIf (b.quantizationUncertaintyPs > uint64Max - clock.uncertaintyPs) (failure .overflow)
  let uncertainty := Duration.fromPicoseconds (clock.uncertaintyPs + b.quantizationUncertaintyPs)
  match subtract b.time uncertainty, add b.time uncertainty with
  | .ok first, .ok last =>
    if first.before window.earliest ∨ window.latest.before last then return s
    else
      let d ← if b.time.before requested then difference requested b.time
        else difference b.time requested
      match s.selected with
      | none => return { selected := b, distance := d }
      | some best =>
        if d.before s.distance ∨ d = s.distance ∧ b.time.before best.time then
          return { selected := b, distance := d }
        else return s
  | _, _ => return s

def considerUntimed (s : Selection) (b : Boundary) : Selection :=
  match s.selected with
  | none => { s with selected := b }
  | some best => if b.time.before best.time then { s with selected := b } else s

/-- A boundary that may be chosen at all. -/
def candidate (mode : ℕ) (clock : ClockSnapshot) (ready horizon : ProtocolTime) (b : Boundary) :
    Bool :=
  b.time.valid ∧ ¬b.committed ∧ b.backendReady ∧ b.mappingGeneration = clock.mappingGeneration ∧
    ¬b.time.before ready ∧ (mode = 0 ∨ ¬horizon.before b.time)

def chooseBoundary (mode : ℕ) (requested : ProtocolTime) (clock : ClockSnapshot)
    (boundaries : List Boundary) (c : TimingCapabilities) : Result Boundary := do
  rejectIf (mode > 4 ∨ ¬clock.time.valid) (failure .invalidArgument)
  rejectIf (boundaries.length > 128) (failure .resourceLimit)
  rejectIf (mode ≠ 0 ∧ (¬c.qualified ∧ ¬c.injected ∨ ¬clock.usable)) (failure .invalidState)
  let ready ← add clock.time (.fromNanoseconds (if mode ≠ 0 then c.preparationLeadNs else 0))
  let horizon ← if mode ≠ 0 then add clock.time (.fromNanoseconds c.horizonNs) else pure clock.time
  rejectIf (mode ≠ 0 ∧ (¬requested.valid ∨ horizon.before requested)) (failure .invalidArgument)
  let usable := boundaries.filter (candidate mode clock ready horizon)
  let selection ←
    if mode ≠ 0 then do
      let window ← executionWindow mode requested c
      usable.foldlM (considerTimed clock requested window) {}
    else pure (usable.foldl considerUntimed {})
  match selection.selected with
  | none => throw (failure .invalidState)
  | some b => return b

end Vita.Timing
