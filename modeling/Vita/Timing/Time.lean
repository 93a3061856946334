import Vita.Core.Error
import Vita.Fields.Values
import Mathlib.Data.Prod.Lex

/-!
# Protocol time (`timing/time.hpp`, `timing/clock.hpp`)

Times are seconds and picoseconds, compared lexicographically. All 64-bit quantities are natural
numbers; where the code checks for overflow so does the model, with the bound `uint64Max`.
-/

namespace Vita.Timing

open Checked

/-- `std::numeric_limits<std::uint64_t>::max()`. -/
def uint64Max : ℕ := 2 ^ 64 - 1

def picosecondsPerSecond : ℕ := 1000000000000

structure ProtocolTime where
  seconds : ℕ := 0
  picoseconds : ℕ := 0
deriving DecidableEq

structure Duration where
  seconds : ℕ := 0
  picoseconds : ℕ := 0
deriving DecidableEq

namespace ProtocolTime

/-- The order of the defaulted `operator<=>`. -/
def before (a b : ProtocolTime) : Bool :=
  a.seconds < b.seconds ∨ a.seconds = b.seconds ∧ a.picoseconds < b.picoseconds

def valid (t : ProtocolTime) : Bool := t.picoseconds < picosecondsPerSecond

/-- The pair that a time is compared as. -/
def lex (t : ProtocolTime) : Lex (ℕ × ℕ) := toLex (t.seconds, t.picoseconds)

theorem lex_injective : Function.Injective lex := by
  rintro ⟨s, p⟩ ⟨s', p'⟩ h
  simp only [lex, EmbeddingLike.apply_eq_iff_eq, Prod.mk.injEq] at h
  obtain ⟨rfl, rfl⟩ := h
  rfl

instance : LinearOrder ProtocolTime := LinearOrder.lift' lex lex_injective

theorem lt_iff {a b : ProtocolTime} :
    a < b ↔ a.seconds < b.seconds ∨ a.seconds = b.seconds ∧ a.picoseconds < b.picoseconds := by
  change lex a < lex b ↔ _
  exact Prod.Lex.toLex_lt_toLex

theorem before_iff {a b : ProtocolTime} : a.before b ↔ a < b := by
  rw [lt_iff, before, decide_eq_true_eq]

end ProtocolTime

namespace Duration

def before (a b : Duration) : Bool :=
  a.seconds < b.seconds ∨ a.seconds = b.seconds ∧ a.picoseconds < b.picoseconds

def valid (d : Duration) : Bool := d.picoseconds < picosecondsPerSecond

def fromPicoseconds (ps : ℕ) : Duration :=
  { seconds := ps / picosecondsPerSecond, picoseconds := ps % picosecondsPerSecond }

def fromNanoseconds (ns : ℕ) : Duration :=
  { seconds := ns / 1000000000, picoseconds := ns % 1000000000 * 1000 }

end Duration

def add (t : ProtocolTime) (d : Duration) : Result ProtocolTime := do
  rejectIf (¬t.valid ∨ ¬d.valid) (failure .invalidArgument)
  let fraction := t.picoseconds + d.picoseconds
  let carry := fraction / picosecondsPerSecond
  rejectIf (t.seconds + d.seconds + carry > uint64Max) (failure .overflow)
  return { seconds := t.seconds + d.seconds + carry, picoseconds := fraction % picosecondsPerSecond }

def subtract (t : ProtocolTime) (d : Duration) : Result ProtocolTime := do
  rejectIf (¬t.valid ∨ ¬d.valid) (failure .invalidArgument)
  rejectIf (t.before { seconds := d.seconds, picoseconds := d.picoseconds }) (failure .overflow)
  if t.picoseconds < d.picoseconds then
    return { seconds := t.seconds - d.seconds - 1
             picoseconds := picosecondsPerSecond + t.picoseconds - d.picoseconds }
  else
    return { seconds := t.seconds - d.seconds, picoseconds := t.picoseconds - d.picoseconds }

def difference (later earlier : ProtocolTime) : Result Duration := do
  let t ← subtract later { seconds := earlier.seconds, picoseconds := earlier.picoseconds }
  return { seconds := t.seconds, picoseconds := t.picoseconds }

inductive Epoch where
  | utc | gps | other
deriving DecidableEq

inductive ClockState where
  | unbound | acquiring | locked | holdover | faulted
deriving DecidableEq

structure ClockSnapshot where
  state : ClockState := .unbound
  time : ProtocolTime := {}
  uncertaintyPs : ℕ := 0
  mappingGeneration : ℕ := 0
  epoch : Epoch := .other
  calibrated : Bool := false
  injected : Bool := false

/-- The clock is good enough to schedule with. -/
def ClockSnapshot.usable (clock : ClockSnapshot) : Bool :=
  clock.state = .locked ∨ clock.state = .holdover

end Vita.Timing
