import Vita.State.Contracts
import Vita.Timing.SampleTimeline
import Mathlib.Algebra.BigOperators.Intervals
import Mathlib.Data.Int.ModEq

/-!
# A simulated tone (`VirtualRfScene` of `profiles/iq/frequency_scan.hpp`)

A scene has one tone. It keeps the phases of the tone and of the local oscillator modulo the sample
rate, and advances both over every sample, produced or skipped. A call is `none` where an operation of
64 bits would wrap. What a window answers to a written sample, which is computed with floating-point
numbers, is a parameter; the phase does not depend on it.
-/

namespace Vita.Profiles

open Checked State Timing Timing.Word64

/-- `SceneConfig`; of the amplitude only whether it is finite and from 0 to 1. -/
structure SceneConfig where
  sampleRate : ℕ := 100000
  toneHz : ℕ := 100050000
  amplitudeValid : Bool := true
deriving DecidableEq

structure RfScene where
  config : SceneConfig
  center : ℕ := 0
  next : ℕ := 0
  tonePhase : ℕ := 0
  loPhase : ℕ := 0
  initialized : Bool := false
  faulted : Bool := false
  recoveryOrigin : Bool := false
  /-- The retunes that took effect, each with its ordinal, the last one first; never read. -/
  tunes : List (ℕ × ℕ) := []
deriving DecidableEq

/-- `SampleWriteWindow`, with what it answers to a sample that is audible or not, of a phase. -/
structure SampleWriteWindow where
  firstOrdinal : ℕ
  count : ℕ
  config : StateSnapshot
  write : ℕ → Bool → ℕ → Option ErrorCode := fun _ _ _ => none

/-- A signed number that 64 bits hold. -/
def int64 (x : ℤ) : Option ℤ :=
  if -9223372036854775808 ≤ x ∧ x ≤ 9223372036854775807 then some x else none

theorem int64_eq {x : ℤ} (h : -9223372036854775808 ≤ x ∧ x ≤ 9223372036854775807) :
    int64 x = some x := if_pos h

/-- The hertz of a field: a known whole number. -/
def hertz (state : StateSnapshot) (id : FieldId) : Result ℕ :=
  match (List.finRange 8).find? fun i => (state.fields i).id = id with
  | none => .error (failure .invalidState)
  | some i =>
    match asHertz (state.fields i).value with
    | none => .error (failure .invalidState)
    | some q20 =>
      if (state.fields i).validity ≠ .known ∨ q20 < 0 ∨ q20 % 2 ^ 20 ≠ 0 then
        .error (failure .invalidState)
      else .ok (q20 / 2 ^ 20).toNat

namespace RfScene

def create (config : SceneConfig) : Result RfScene :=
  if config.sampleRate = 0 ∨ config.sampleRate > 100000000 ∨ config.toneHz > 6000000000 ∨
      ¬config.amplitudeValid then .error (failure .invalidArgument)
  else .ok { config }

def createForRecovery (config : SceneConfig) : Result RfScene := do
  let scene ← create config
  return { scene with recoveryOrigin := true }

def fail (code : ErrorCode) (s : RfScene) : Result Unit × RfScene :=
  (.error (failure code), { s with faulted := true })

/-- One phase after some samples. -/
def turn (phase hz delta rate : ℕ) : Option ℕ := do
  let hz ← rest hz rate
  let product ← times delta hz
  let sum ← plus phase product
  rest sum rate

def advance (count : ℕ) (s : RfScene) : Option RfScene := do
  let delta ← rest count s.config.sampleRate
  let tonePhase ← turn s.tonePhase s.config.toneHz delta s.config.sampleRate
  let loPhase ← turn s.loPhase s.center delta s.config.sampleRate
  let next ← plus s.next count
  return { s with tonePhase, loPhase, next }

def phaseNumerator (s : RfScene) : Option ℕ := do
  let sum ← plus s.tonePhase s.config.sampleRate
  let difference ← minus sum s.loPhase
  rest difference s.config.sampleRate

/-- The center may be tuned to. -/
def tunable (center : ℕ) : Prop := 1000000 ≤ center ∧ center ≤ 6000000000

instance (center : ℕ) : Decidable (tunable center) := inferInstanceAs (Decidable (_ ∧ _))

def effective (event : EffectiveEvent) (s : RfScene) : Option (Result Unit × RfScene) :=
  if s.faulted then some (.error (failure .invalidState), s)
  else
    match hertz event.state Field.rfReferenceFrequency, hertz event.state Field.sampleRate with
    | .ok center, .ok rate =>
      if rate ≠ s.config.sampleRate ∨ ¬tunable center ∨ event.outcome.simulated ∨ ¬event.ordinalKnown then
        some (s.fail .invalidState)
      else if ¬s.initialized then
        if ¬s.recoveryOrigin ∧ event.sampleOrdinal ≠ 0 then some (s.fail .invalidState)
        else
          some (.ok (), { s with next := event.sampleOrdinal, center, initialized := true
                                 tunes := [(event.sampleOrdinal, center)] })
      else if event.sampleOrdinal < s.next then some (s.fail .invalidState)
      else do
        let gap ← minus event.sampleOrdinal s.next
        let s ← s.advance gap
        return (.ok (), { s with center, tunes := (event.sampleOrdinal, center) :: s.tunes })
    | _, _ => some (s.fail .invalidState)

/-- The tone is inside the band that is sampled. -/
def audible (s : RfScene) : Option Bool := do
  let tone ← int64 s.config.toneHz
  let center ← int64 s.center
  let rate ← int64 s.config.sampleRate
  let offset ← int64 (tone - center)
  let twice ← int64 (offset * 2)
  let lowest ← int64 (-rate)
  return lowest ≤ twice ∧ twice < rate

/-- The loop of `produce`, from one index on. -/
def produceFrom (window : SampleWriteWindow) (audible : Bool) :
    ℕ → ℕ → RfScene → Option (Result Unit × RfScene)
  | 0, _, s => some (.ok (), s)
  | n + 1, i, s => do
    let phase ← s.phaseNumerator
    match window.write i audible phase with
    | some code => some (s.fail code)
    | none => do
      let s ← s.advance 1
      produceFrom window audible n (i + 1) s

def produce (window : SampleWriteWindow) (s : RfScene) : Option (Result Unit × RfScene) :=
  if ¬s.initialized ∨ s.faulted then some (.error (failure .invalidState), s)
  else
    match hertz window.config Field.sampleRate, hertz window.config Field.rfReferenceFrequency with
    | .ok rate, .ok center =>
      if rate ≠ s.config.sampleRate ∨ center ≠ s.center ∨ window.firstOrdinal < s.next then
        some (s.fail .invalidState)
      else do
        let room ← minus uint64Max window.firstOrdinal
        if window.count > room then some (s.fail .overflow)
        else do
          let gap ← minus window.firstOrdinal s.next
          let s ← s.advance gap
          let audible ← s.audible
          produceFrom window audible window.count 0 s
    | _, _ => some (s.fail .invalidState)

/-! ## Runs -/

inductive Call where
  | effective (event : EffectiveEvent)
  | produce (window : SampleWriteWindow)

/-- The ordinal of the call is a number of 64 bits. -/
def Call.Representable : Call → Prop
  | .effective event => event.sampleOrdinal ≤ uint64Max
  | .produce window => window.firstOrdinal ≤ uint64Max

def step (s : RfScene) : Call → Option (Result Unit × RfScene)
  | .effective event => s.effective event
  | .produce window => s.produce window

/-- The scene after some calls. -/
def run (s : RfScene) (calls : List Call) : Option RfScene :=
  calls.foldlM (fun s call => (s.step call).map Prod.snd) s

/-- A new scene. -/
def Created (s : RfScene) : Prop := ∃ config, create config = .ok s ∨ createForRecovery config = .ok s

/-- The center of the last retune at or before an ordinal. -/
def inForce (tunes : List (ℕ × ℕ)) (k : ℕ) : ℕ := ((tunes.find? (·.1 ≤ k)).map Prod.snd).getD 0

/-- The ordinal of the first retune. -/
def firstOrdinal (s : RfScene) : ℕ := (s.tunes.getLast?.map Prod.fst).getD 0

end RfScene

end Vita.Profiles
