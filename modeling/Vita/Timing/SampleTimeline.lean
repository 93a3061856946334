import Vita.Timing.Scheduling
import Mathlib.Data.Nat.Cast.Field
import Mathlib.Data.Rat.Floor
import Mathlib.Tactic.FieldSimp
import Mathlib.Tactic.Linarith
import Mathlib.Tactic.Positivity

/-!
# The exact time of samples (`timing/sample_timeline.hpp`)

The time of a sample is a protocol time and a fraction of a picosecond whose denominator grows with the
rates that were used. `SampleTimeline.advance` computes with natural numbers; `advance64` follows the
code operation by operation and stops where a 64-bit operation would wrap.

Main definitions:
- `SampleTimeline.exact`: the exact time in picoseconds, as a rational number;
- `SampleTimeline.Valid`: the invariant of the timelines.

Main results:
- `SampleTimeline.Valid.advance_iff`: when `advance` succeeds, and with which value;
- `SampleTimeline.Valid.perform64_eq`: no operation wraps;
- `sample_time_exact`: the statement about all sequences of operations.
-/

namespace Vita.Timing

open Checked

/-! ## 64-bit operations -/

namespace Word64

/-- The operations of `std::uint64_t`, with `none` where they wrap or divide by zero. -/
def plus (a b : ℕ) : Option ℕ := if a + b ≤ uint64Max then some (a + b) else none

def minus (a b : ℕ) : Option ℕ := if b ≤ a then some (a - b) else none

def times (a b : ℕ) : Option ℕ := if a * b ≤ uint64Max then some (a * b) else none

def divide (a b : ℕ) : Option ℕ := if b = 0 then none else some (a / b)

def rest (a b : ℕ) : Option ℕ := if b = 0 then none else some (a % b)

variable {a b : ℕ}

theorem plus_eq (h : a + b ≤ uint64Max) : plus a b = some (a + b) := if_pos h

theorem minus_eq (h : b ≤ a) : minus a b = some (a - b) := if_pos h

theorem times_eq (h : a * b ≤ uint64Max) : times a b = some (a * b) := if_pos h

theorem divide_eq (h : 0 < b) : divide a b = some (a / b) := if_neg h.ne'

theorem rest_eq (h : 0 < b) : rest a b = some (a % b) := if_neg h.ne'

end Word64

open Word64

/-- `add`, operation by operation. -/
def add64 (t : ProtocolTime) (d : Duration) : Option (Result ProtocolTime) :=
  if ¬t.valid ∨ ¬d.valid then some (.error (failure .invalidArgument))
  else do
    let fraction ← plus t.picoseconds d.picoseconds
    let carry ← divide fraction picosecondsPerSecond
    let room ← minus uint64Max t.seconds
    if d.seconds > room then some (.error (failure .overflow))
    else do
      let room ← minus room d.seconds
      if carry > room then some (.error (failure .overflow))
      else do
        let seconds ← plus t.seconds d.seconds
        let seconds ← plus seconds carry
        let picoseconds ← rest fraction picosecondsPerSecond
        return .ok { seconds, picoseconds }

namespace SampleTimeline

def commonDenominator64 (a b : ℕ) : Option (Result ℕ) := do
  let factor ← divide a (Nat.gcd a b)
  let limit ← divide uint64Max b
  if factor > limit then some (.error (failure .resourceLimit))
  else do
    let denominator ← times factor b
    return .ok denominator

/-- `change_rate`, operation by operation, with the timeline after it. -/
def changeRate64 (t : SampleTimeline) (rate : ℕ) : Option (Result Unit × SampleTimeline) :=
  if rate = 0 ∨ rate > 100000000 then some (.error (failure .invalidArgument), t)
  else if t.revision = uint64Max then some (.error (failure .overflow), t)
  else do
    let step ← divide rate (Nat.gcd picosecondsPerSecond rate)
    match ← commonDenominator64 t.current.denominator step with
    | .error e => some (.error e, t)
    | .ok _ => do
      let revision ← plus t.revision 1
      return (.ok (), { t with rate, revision })

/-- The time, numerator and denominator after some samples. -/
def advanced64 (t : SampleTimeline) (samples denominator stepDenominator residue : ℕ)
    (d : Duration) : Option (Result Unit × SampleTimeline) := do
  let scale ← divide denominator t.current.denominator
  let a ← times t.current.numerator scale
  let stepScale ← divide denominator stepDenominator
  let b ← times residue stepScale
  let rest ← minus denominator b
  match ← add64 t.current.time d with
  | .error e => some (.error e, t)
  | .ok next =>
    if a ≥ rest then do
      let numerator ← minus a rest
      match ← add64 next { picoseconds := 1 } with
      | .error e => some (.error e, t)
      | .ok next => do
        let numerator' ← divide numerator (Nat.gcd numerator denominator)
        let denominator' ← divide denominator (Nat.gcd numerator denominator)
        let ordinal ← plus t.ordinal samples
        return (.ok (), { t with current := { time := next, numerator := numerator'
                                              denominator := denominator' }
                                 ordinal })
    else do
      let numerator ← plus a b
      let numerator' ← divide numerator (Nat.gcd numerator denominator)
      let denominator' ← divide denominator (Nat.gcd numerator denominator)
      let ordinal ← plus t.ordinal samples
      return (.ok (), { t with current := { time := next, numerator := numerator'
                                            denominator := denominator' }
                               ordinal })

/-- `advance`, operation by operation, with the timeline after it. -/
def advance64 (t : SampleTimeline) (samples : ℕ) : Option (Result Unit × SampleTimeline) := do
  let room ← minus uint64Max t.ordinal
  if samples > room then some (.error (failure .overflow), t)
  else do
    let seconds ← divide samples t.rate
    let remaining ← rest samples t.rate
    let quotient ← divide picosecondsPerSecond t.rate
    let stepRemainder ← rest picosecondsPerSecond t.rate
    let product ← times remaining stepRemainder
    let whole ← times remaining quotient
    let part ← divide product t.rate
    let fraction ← plus whole part
    let residue ← rest product t.rate
    let stepDenominator ← divide t.rate (Nat.gcd picosecondsPerSecond t.rate)
    let residue ← divide residue (Nat.gcd picosecondsPerSecond t.rate)
    match ← commonDenominator64 t.current.denominator stepDenominator with
    | .error e => some (.error e, t)
    | .ok denominator =>
      advanced64 t samples denominator stepDenominator residue { seconds, picoseconds := fraction }

end SampleTimeline

/-- An operation on a timeline. -/
inductive TimelineOp where
  | advance (samples : ℕ)
  | changeRate (rate : ℕ)

namespace SampleTimeline

def perform (t : SampleTimeline) : TimelineOp → Result SampleTimeline
  | .advance samples => t.advance samples
  | .changeRate rate => t.changeRate rate

def perform64 (t : SampleTimeline) : TimelineOp → Option (Result Unit × SampleTimeline)
  | .advance samples => t.advance64 samples
  | .changeRate rate => t.changeRate64 rate

/-- The result of an operation, and the timeline that is left: the old one where it failed. -/
def settle (t : SampleTimeline) : Result SampleTimeline → Result Unit × SampleTimeline
  | .ok t' => (.ok (), t')
  | .error e => (.error e, t)

end SampleTimeline

/-! ## Values -/

/-- A time in picoseconds. -/
def ProtocolTime.ps (t : ProtocolTime) : ℕ := t.seconds * picosecondsPerSecond + t.picoseconds

def Duration.ps (d : Duration) : ℕ := d.seconds * picosecondsPerSecond + d.picoseconds

/-- The first time that is not representable. -/
def timeLimit : ℕ := (uint64Max + 1) * picosecondsPerSecond

theorem ProtocolTime.valid_iff {t : ProtocolTime} : t.valid ↔ t.picoseconds < picosecondsPerSecond := by
  rw [valid, decide_eq_true_eq]

theorem Duration.valid_iff {d : Duration} : d.valid ↔ d.picoseconds < picosecondsPerSecond := by
  rw [valid, decide_eq_true_eq]

theorem ProtocolTime.ps_lt {t : ProtocolTime} (h : t.valid) : t.ps < timeLimit ↔ t.seconds ≤ uint64Max := by
  rw [valid_iff] at h
  simp only [ps, timeLimit, picosecondsPerSecond] at h ⊢
  omega

theorem ProtocolTime.eq_of_ps {t t' : ProtocolTime} (h : t.valid) (h' : t'.valid) (heq : t.ps = t'.ps) :
    t = t' := by
  obtain ⟨s, p⟩ := t
  obtain ⟨s', p'⟩ := t'
  rw [valid_iff] at h h'
  simp only [ps, picosecondsPerSecond] at h h' heq
  simp only [ProtocolTime.mk.injEq]
  omega

/-- A sum of times. -/
theorem add_eq_ok {t t' : ProtocolTime} {d : Duration} (ht : t.valid) (hd : d.valid) :
    add t d = .ok t' ↔ t.ps + d.ps < timeLimit ∧ t'.valid ∧ t'.ps = t.ps + d.ps := by
  have hr : ¬(¬(t.valid = true) ∨ ¬(d.valid = true)) := by simp [ht, hd]
  simp only [add, bind_eq_ok, rejectIf_eq_ok, hr, not_false_eq_true, exists_const, true_and, pure_eq_ok,
    Except.ok.injEq]
  obtain ⟨s, p⟩ := t
  obtain ⟨s', p'⟩ := t'
  obtain ⟨s₁, p₁⟩ := d
  rw [ProtocolTime.valid_iff] at ht
  rw [Duration.valid_iff] at hd
  rw [ProtocolTime.valid_iff]
  simp only [ProtocolTime.ps, Duration.ps, timeLimit, ProtocolTime.mk.injEq, picosecondsPerSecond] at ht hd ⊢
  constructor
  · rintro ⟨h, hs, hp⟩
    omega
  · rintro ⟨h, hv, hp⟩
    omega

theorem add_exists {t : ProtocolTime} {d : Duration} (ht : t.valid) (hd : d.valid)
    (h : t.ps + d.ps < timeLimit) : ∃ t', add t d = .ok t' := by
  refine ⟨{ seconds := (t.ps + d.ps) / picosecondsPerSecond
            picoseconds := (t.ps + d.ps) % picosecondsPerSecond }, (add_eq_ok ht hd).mpr ⟨h, ?_, ?_⟩⟩
  · exact ProtocolTime.valid_iff.mpr (Nat.mod_lt _ (by decide))
  · exact Nat.div_add_mod' _ _

theorem Duration.fromNanoseconds_valid (n : ℕ) : (Duration.fromNanoseconds n).valid := by
  rw [Duration.valid_iff]
  simp only [Duration.fromNanoseconds, picosecondsPerSecond]
  omega

theorem Duration.fromNanoseconds_ps (n : ℕ) : (Duration.fromNanoseconds n).ps = 1000 * n := by
  simp only [Duration.ps, Duration.fromNanoseconds, picosecondsPerSecond]
  omega

theorem add_error {t : ProtocolTime} {d : Duration} (ht : t.valid) (hd : d.valid) {e : Error}
    (h : add t d = .error e) : e = failure .overflow := by
  have hr : ¬(¬(t.valid = true) ∨ ¬(d.valid = true)) := by simp [ht, hd]
  simp only [add, bind_eq_error, rejectIf_eq_error, hr, false_and, false_or, rejectIf_eq_ok, exists_const,
    pure_eq_ok, reduceCtorEq, and_false, or_false] at h
  exact h.2.2.symm

/-! ## Fractions -/

/-- A fraction over a multiple of its denominator. -/
theorem scaled_div {n d l : ℕ} (hd : d ∣ l) (hl : 0 < l) : ((n * (l / d) : ℕ) : ℚ) / l = (n : ℚ) / d := by
  obtain ⟨k, rfl⟩ := hd
  have hpos : 0 < d := Nat.pos_of_mul_pos_right hl
  have hk : (k : ℚ) ≠ 0 := by
    exact_mod_cast (Nat.pos_of_mul_pos_left hl).ne'
  rw [Nat.mul_div_cancel_left k hpos]
  push_cast
  exact mul_div_mul_right _ _ hk

theorem scaled_lt {n d l : ℕ} (hd : d ∣ l) (hl : 0 < l) (h : n < d) : n * (l / d) < l := by
  have hquot : 0 < l / d := Nat.div_pos (Nat.le_of_dvd hl hd) (by omega)
  calc n * (l / d) < d * (l / d) := Nat.mul_lt_mul_of_pos_right h hquot
    _ = l := Nat.mul_div_cancel' hd

/-- A fraction in lowest terms. -/
theorem reduced_div {n l : ℕ} (hl : 0 < l) :
    ((n / Nat.gcd n l : ℕ) : ℚ) / ((l / Nat.gcd n l : ℕ) : ℚ) = (n : ℚ) / l := by
  have hg : ((Nat.gcd n l : ℕ) : ℚ) ≠ 0 := by
    exact_mod_cast (Nat.gcd_pos_of_pos_right n hl).ne'
  rw [Nat.cast_div (Nat.gcd_dvd_left n l) hg, Nat.cast_div (Nat.gcd_dvd_right n l) hg]
  exact div_div_div_cancel_right₀ hg _ _

theorem reduced_lt {n l : ℕ} (h : n < l) : n / Nat.gcd n l < l / Nat.gcd n l :=
  Nat.div_lt_div_of_lt_of_dvd (Nat.gcd_dvd_right n l) h

/-- Two fractions in lowest terms with one value are the same. -/
theorem lowest_unique {n d n' d' : ℕ} (hd : 0 < d) (hd' : 0 < d') (h : Nat.Coprime n d)
    (h' : Nat.Coprime n' d') (heq : (n : ℚ) / d = (n' : ℚ) / d') : n = n' ∧ d = d' := by
  have hcross : n * d' = n' * d := by
    have hne : (d : ℚ) ≠ 0 := by exact_mod_cast hd.ne'
    have hne' : (d' : ℚ) ≠ 0 := by exact_mod_cast hd'.ne'
    rw [div_eq_div_iff hne hne'] at heq
    exact_mod_cast heq
  have hdd : d = d' := by
    refine Nat.dvd_antisymm ?_ ?_
    · exact h.symm.dvd_of_dvd_mul_left ⟨n', by rw [hcross, Nat.mul_comm]⟩
    · exact h'.symm.dvd_of_dvd_mul_left ⟨n, by rw [← hcross, Nat.mul_comm]⟩
  subst hdd
  exact ⟨Nat.eq_of_mul_eq_mul_right hd hcross, rfl⟩

namespace SampleTimeline

/-- The least common denominator, where it is a 64-bit number. -/
theorem commonDenominator_eq_ok {a b n : ℕ} (hb : 0 < b) :
    commonDenominator a b = .ok n ↔ Nat.lcm a b ≤ uint64Max ∧ n = Nat.lcm a b := by
  have hlcm : a / Nat.gcd a b * b = Nat.lcm a b := by
    rw [Nat.lcm_eq_mul_div, Nat.div_mul_right_comm (Nat.gcd_dvd_left a b)]
  simp only [commonDenominator, bind_eq_ok, rejectIf_eq_ok, pure_eq_ok, Except.ok.injEq, exists_const,
    gt_iff_lt, Nat.not_lt, Nat.le_div_iff_mul_le hb, hlcm]
  exact and_congr_right fun _ => eq_comm

/-! ## The invariant -/

/-- The exact time of a timeline in picoseconds. -/
def exact (t : SampleTimeline) : ℚ :=
  t.current.time.ps + (t.current.numerator : ℚ) / t.current.denominator

/-- The denominator of the time of one sample. -/
def stepDenominator (rate : ℕ) : ℕ := rate / Nat.gcd picosecondsPerSecond rate

/-- What holds of every timeline. -/
structure Valid (t : SampleTimeline) : Prop where
  time : t.current.time.valid
  seconds : t.current.time.seconds ≤ uint64Max
  proper : t.current.numerator < t.current.denominator
  lowest : Nat.Coprime t.current.numerator t.current.denominator
  rate_pos : 0 < t.rate
  rate_le : t.rate ≤ 100000000
  ordinal : t.ordinal ≤ uint64Max
  revision : t.revision ≤ uint64Max
  common : Nat.lcm t.current.denominator (stepDenominator t.rate) ≤ uint64Max

theorem stepDenominator_pos {rate : ℕ} (h : 0 < rate) : 0 < stepDenominator rate :=
  Nat.div_pos (Nat.le_of_dvd h (Nat.gcd_dvd_right _ _)) (Nat.gcd_pos_of_pos_right _ h)

/-- Two timelines with the same exact time, rate, ordinal and revision are the same. -/
theorem Valid.ext {t t' : SampleTimeline} (h : t.Valid) (h' : t'.Valid) (hexact : t.exact = t'.exact)
    (hrate : t.rate = t'.rate) (hordinal : t.ordinal = t'.ordinal) (hrevision : t.revision = t'.revision) :
    t = t' := by
  have hfract : ∀ {u : SampleTimeline}, u.Valid →
      0 ≤ (u.current.numerator : ℚ) / u.current.denominator ∧
        (u.current.numerator : ℚ) / u.current.denominator < 1 := by
    intro u hu
    have hpos : (0 : ℚ) < u.current.denominator := by exact_mod_cast (Nat.zero_le _).trans_lt hu.proper
    exact ⟨by positivity, by rw [div_lt_one hpos]; exact_mod_cast hu.proper⟩
  obtain ⟨h0, h1⟩ := hfract h
  obtain ⟨h0', h1'⟩ := hfract h'
  -- the whole picoseconds are the floor of the exact time
  have hps : t.current.time.ps = t'.current.time.ps := by
    have hle : (t.current.time.ps : ℚ) < t'.current.time.ps + 1 := by
      unfold exact at hexact
      linarith
    have hge : (t'.current.time.ps : ℚ) < t.current.time.ps + 1 := by
      unfold exact at hexact
      linarith
    have hle' : t.current.time.ps < t'.current.time.ps + 1 := by exact_mod_cast hle
    have hge' : t'.current.time.ps < t.current.time.ps + 1 := by exact_mod_cast hge
    omega
  have hfrac : (t.current.numerator : ℚ) / t.current.denominator =
      (t'.current.numerator : ℚ) / t'.current.denominator := by
    unfold exact at hexact
    rw [hps] at hexact
    linarith
  obtain ⟨hn, hd⟩ := lowest_unique ((Nat.zero_le _).trans_lt h.proper)
    ((Nat.zero_le _).trans_lt h'.proper) h.lowest h'.lowest hfrac
  have htime := ProtocolTime.eq_of_ps h.time h'.time hps
  obtain ⟨⟨time, num, den⟩, rate, ord, rev⟩ := t
  obtain ⟨⟨time', num', den'⟩, rate', ord', rev'⟩ := t'
  simp_all

/-- A new timeline is valid and begins at its origin. -/
theorem create_valid {origin : ProtocolTime} {rate : ℕ} {t : SampleTimeline}
    (hseconds : origin.seconds ≤ uint64Max) (h : create origin rate = .ok t) :
    t.Valid ∧ t.exact = origin.ps ∧ t.rate = rate := by
  simp only [create, bind_eq_ok, rejectIf_eq_ok, pure_eq_ok, Except.ok.injEq, exists_const] at h
  obtain ⟨hargs, rfl⟩ := h
  simp only [not_or, not_not, Nat.not_lt, gt_iff_lt] at hargs
  obtain ⟨hvalid, hpos, hle⟩ := hargs
  have hrate : 0 < rate := Nat.pos_of_ne_zero hpos
  refine ⟨⟨hvalid, hseconds, Nat.zero_lt_one, Nat.coprime_one_right 0, hrate, hle, Nat.zero_le _,
    Nat.zero_le _, ?_⟩, by simp [exact], rfl⟩
  rw [Nat.lcm_one_left]
  calc stepDenominator rate ≤ rate := Nat.div_le_self _ _
    _ ≤ 100000000 := hle
    _ ≤ uint64Max := by decide

/-- A change of the rate keeps the time. -/
theorem Valid.changeRate {t t' : SampleTimeline} {rate : ℕ} (h : t.Valid)
    (hchange : t.changeRate rate = .ok t') : t'.Valid ∧ t'.exact = t.exact ∧ t'.rate = rate := by
  simp only [SampleTimeline.changeRate, bind_eq_ok, rejectIf_eq_ok, pure_eq_ok, Except.ok.injEq,
    exists_const] at hchange
  obtain ⟨hrate, hrevision, n, hcommon, rfl⟩ := hchange
  simp only [not_or, Nat.not_lt, gt_iff_lt] at hrate
  obtain ⟨hpos, hle⟩ := hrate
  have hpos : 0 < rate := Nat.pos_of_ne_zero hpos
  obtain ⟨hcommon, -⟩ := (commonDenominator_eq_ok (stepDenominator_pos hpos)).mp hcommon
  have hrev := h.revision
  exact ⟨⟨h.time, h.seconds, h.proper, h.lowest, hpos, hle, h.ordinal, by dsimp only; omega, hcommon⟩,
    rfl, rfl⟩

/-! ## Steps -/

/-- The whole picoseconds that some samples take beyond whole seconds. -/
def stepFraction (rate samples : ℕ) : ℕ :=
  samples % rate * (picosecondsPerSecond / rate) +
    samples % rate * (picosecondsPerSecond % rate) / rate

/-- What is left of a picosecond, in units of the step's denominator. -/
def stepResidue (rate samples : ℕ) : ℕ :=
  samples % rate * (picosecondsPerSecond % rate) % rate / Nat.gcd picosecondsPerSecond rate

/-- The duration of some samples without the fraction of a picosecond. -/
def stepDuration (rate samples : ℕ) : Duration :=
  { seconds := samples / rate, picoseconds := stepFraction rate samples }

section Step

variable (rate samples : ℕ)

/-- The samples of less than a second, in picoseconds times the rate. -/
theorem step_split : samples % rate * picosecondsPerSecond = stepFraction rate samples * rate +
    samples % rate * (picosecondsPerSecond % rate) % rate := by
  have hp := Nat.div_add_mod picosecondsPerSecond rate
  have hx := Nat.div_add_mod (samples % rate * (picosecondsPerSecond % rate)) rate
  unfold stepFraction
  generalize samples % rate = m at *
  generalize hq : picosecondsPerSecond / rate = q at *
  generalize he : picosecondsPerSecond % rate = e at *
  rw [← hp]
  generalize m * e / rate = x at *
  generalize hy : m * e % rate = y at *
  calc m * (rate * q + e) = m * q * rate + m * e := by ring
    _ = m * q * rate + (rate * x + y) := by rw [hx]
    _ = (m * q + x) * rate + y := by ring

/-- The rest is a multiple of the common divisor. -/
theorem step_dvd : Nat.gcd picosecondsPerSecond rate ∣
    samples % rate * (picosecondsPerSecond % rate) % rate := by
  have hg : Nat.gcd picosecondsPerSecond rate ∣ picosecondsPerSecond % rate :=
    (Nat.dvd_mod_iff (Nat.gcd_dvd_right _ _)).mpr (Nat.gcd_dvd_left _ _)
  exact (Nat.dvd_mod_iff (Nat.gcd_dvd_right _ _)).mpr (hg.mul_left _)

variable {rate} (hrate : 0 < rate)
include hrate

theorem stepFraction_lt : stepFraction rate samples < picosecondsPerSecond := by
  have hsplit := step_split rate samples
  have hlt : samples % rate * picosecondsPerSecond < rate * picosecondsPerSecond :=
    Nat.mul_lt_mul_of_pos_right (Nat.mod_lt _ hrate) (by decide)
  refine lt_of_mul_lt_mul_right ?_ (Nat.zero_le rate)
  rw [Nat.mul_comm picosecondsPerSecond]
  omega

theorem stepResidue_lt : stepResidue rate samples < stepDenominator rate :=
  Nat.div_lt_div_of_lt_of_dvd (Nat.gcd_dvd_right _ _) (Nat.mod_lt _ hrate)

/-- The time of some samples. -/
theorem step_value : (samples : ℚ) * picosecondsPerSecond / rate =
    (stepDuration rate samples).ps + (stepResidue rate samples : ℚ) / stepDenominator rate := by
  have hr : (rate : ℚ) ≠ 0 := by exact_mod_cast hrate.ne'
  have hg : ((Nat.gcd picosecondsPerSecond rate : ℕ) : ℚ) ≠ 0 := by
    exact_mod_cast (Nat.gcd_pos_of_pos_right picosecondsPerSecond hrate).ne'
  have hresidue : (stepResidue rate samples : ℚ) / stepDenominator rate =
      ((samples % rate * (picosecondsPerSecond % rate) % rate : ℕ) : ℚ) / rate := by
    rw [stepResidue, stepDenominator, Nat.cast_div (step_dvd rate samples) hg,
      Nat.cast_div (Nat.gcd_dvd_right _ _) hg]
    exact div_div_div_cancel_right₀ hg _ _
  have hsplit := step_split rate samples
  have hsamples := Nat.div_add_mod samples rate
  rw [hresidue, div_eq_iff hr, add_mul, div_mul_cancel₀ _ hr]
  have hnat : samples * picosecondsPerSecond = (stepDuration rate samples).ps * rate +
      samples % rate * (picosecondsPerSecond % rate) % rate := by
    calc samples * picosecondsPerSecond
        = (rate * (samples / rate) + samples % rate) * picosecondsPerSecond := by rw [hsamples]
      _ = rate * (samples / rate) * picosecondsPerSecond +
          samples % rate * picosecondsPerSecond := by ring
      _ = (samples / rate * picosecondsPerSecond + stepFraction rate samples) * rate +
          samples % rate * (picosecondsPerSecond % rate) % rate := by rw [hsplit]; ring
      _ = _ := rfl
  exact_mod_cast hnat

end Step

/-- The two fractions over their common denominator. -/
structure Sum (t : SampleTimeline) (samples : ℕ) (a b l : ℕ) : Prop where
  common : l = Nat.lcm t.current.denominator (stepDenominator t.rate)
  left : a = t.current.numerator * (l / t.current.denominator)
  right : b = stepResidue t.rate samples * (l / stepDenominator t.rate)

section Sum

variable {t : SampleTimeline} {samples a b l : ℕ} (h : t.Valid) (hsum : Sum t samples a b l)
include h hsum

theorem Sum.pos : 0 < l := by
  rw [hsum.common]
  exact Nat.lcm_pos ((Nat.zero_le _).trans_lt h.proper) (stepDenominator_pos h.rate_pos)

theorem Sum.lt : a < l ∧ b < l := by
  have hl := hsum.pos h
  constructor
  · rw [hsum.left]
    exact scaled_lt (hsum.common ▸ Nat.dvd_lcm_left _ _) hl h.proper
  · rw [hsum.right]
    exact scaled_lt (hsum.common ▸ Nat.dvd_lcm_right _ _) hl (stepResidue_lt samples h.rate_pos)

/-- The exact time after some samples. -/
theorem Sum.value : t.exact + samples * picosecondsPerSecond / t.rate =
    t.current.time.ps + (stepDuration t.rate samples).ps + ((a + b : ℕ) : ℚ) / l := by
  have hl := hsum.pos h
  have ha : (a : ℚ) / l = (t.current.numerator : ℚ) / t.current.denominator := by
    rw [hsum.left]
    exact scaled_div (hsum.common ▸ Nat.dvd_lcm_left _ _) hl
  have hb : (b : ℚ) / l = (stepResidue t.rate samples : ℚ) / stepDenominator t.rate := by
    rw [hsum.right]
    exact scaled_div (hsum.common ▸ Nat.dvd_lcm_right _ _) hl
  rw [step_value samples h.rate_pos, exact, Nat.cast_add, add_div, ha, hb]
  ring

end Sum

/-- The timeline with a new time. -/
def moved (t : SampleTimeline) (samples : ℕ) (time : ProtocolTime) (n l : ℕ) : SampleTimeline :=
  { t with current := { time, numerator := n / Nat.gcd n l, denominator := l / Nat.gcd n l }
           ordinal := t.ordinal + samples }

theorem advance_eq (t : SampleTimeline) (samples : ℕ) : t.advance samples = (do
    rejectIf (samples > uint64Max - t.ordinal) (failure .overflow)
    let l ← commonDenominator t.current.denominator (stepDenominator t.rate)
    let next ← add t.current.time (stepDuration t.rate samples)
    let a := t.current.numerator * (l / t.current.denominator)
    let b := stepResidue t.rate samples * (l / stepDenominator t.rate)
    if a ≥ l - b then do
      let next ← add next { picoseconds := 1 }
      return t.moved samples next (a - (l - b)) l
    else return t.moved samples next (a + b) l) := rfl

/-- What `advance` computes. -/
theorem Valid.advance_cases {t t' : SampleTimeline} {samples : ℕ} (h : t.Valid) :
    t.advance samples = .ok t' ↔ t.ordinal + samples ≤ uint64Max ∧ ∃ a b l next,
      Sum t samples a b l ∧ add t.current.time (stepDuration t.rate samples) = .ok next ∧
      if a ≥ l - b then ∃ next', add next { picoseconds := 1 } = .ok next' ∧
          t' = t.moved samples next' (a - (l - b)) l
        else t' = t.moved samples next (a + b) l := by
  have hordinal := h.ordinal
  have hroom : ¬samples > uint64Max - t.ordinal ↔ t.ordinal + samples ≤ uint64Max := by omega
  constructor
  · intro hadvance
    rw [advance_eq] at hadvance
    simp only [bind_eq_ok, rejectIf_eq_ok, exists_const] at hadvance
    obtain ⟨hle, l, hl, next, hnext, hrest⟩ := hadvance
    obtain ⟨-, hl⟩ := (commonDenominator_eq_ok (stepDenominator_pos h.rate_pos)).mp hl
    refine ⟨hroom.mp hle, _, _, l, next, ⟨hl, rfl, rfl⟩, hnext, ?_⟩
    split at hrest
    · next hcarry =>
      simp only [bind_eq_ok, pure_eq_ok, Except.ok.injEq] at hrest
      obtain ⟨next', hnext', rfl⟩ := hrest
      rw [if_pos hcarry]
      exact ⟨next', hnext', rfl⟩
    · next hcarry =>
      simp only [pure_eq_ok, Except.ok.injEq] at hrest
      rw [if_neg hcarry]
      exact hrest.symm
  · rintro ⟨hle, a, b, l, next, ⟨hl, rfl, rfl⟩, hnext, hrest⟩
    have hcommon : commonDenominator t.current.denominator (stepDenominator t.rate) = .ok l :=
      (commonDenominator_eq_ok (stepDenominator_pos h.rate_pos)).mpr ⟨h.common, hl⟩
    rw [advance_eq]
    simp only [bind_eq_ok, rejectIf_eq_ok, exists_const]
    refine ⟨hroom.mpr hle, l, hcommon, next, hnext, ?_⟩
    split at hrest
    · next hcarry =>
      obtain ⟨next', hnext', rfl⟩ := hrest
      rw [if_pos hcarry]
      simp only [bind_eq_ok, pure_eq_ok, Except.ok.injEq]
      exact ⟨next', hnext', rfl⟩
    · next hcarry =>
      rw [if_neg hcarry, hrest]
      rfl

/-- A timeline with a new time is valid. -/
theorem Valid.moved {t : SampleTimeline} {samples n l : ℕ} {time : ProtocolTime} (h : t.Valid)
    (hl : l = Nat.lcm t.current.denominator (stepDenominator t.rate)) (hn : n < l) (htime : time.valid)
    (hseconds : time.seconds ≤ uint64Max) (hordinal : t.ordinal + samples ≤ uint64Max) :
    (t.moved samples time n l).Valid ∧ (t.moved samples time n l).exact = time.ps + (n : ℚ) / l := by
  have hpos : 0 < l := (Nat.zero_le n).trans_lt hn
  refine ⟨⟨htime, hseconds, reduced_lt hn, ?_, h.rate_pos, h.rate_le, hordinal, h.revision, ?_⟩, ?_⟩
  · exact Nat.coprime_div_gcd_div_gcd (Nat.gcd_pos_of_pos_right n hpos)
  · -- the common denominator does not grow
    have hdvd : Nat.lcm (l / Nat.gcd n l) (stepDenominator t.rate) ∣ l := by
      refine Nat.lcm_dvd (Nat.div_dvd_of_dvd (Nat.gcd_dvd_right n l)) ?_
      rw [hl]
      exact Nat.dvd_lcm_right _ _
    refine (Nat.le_of_dvd hpos hdvd).trans ?_
    rw [hl]
    exact h.common
  · rw [exact]
    unfold SampleTimeline.moved
    dsimp only
    rw [reduced_div hpos]

theorem stepDuration_valid {rate : ℕ} (samples : ℕ) (h : 0 < rate) : (stepDuration rate samples).valid :=
  Duration.valid_iff.mpr (stepFraction_lt samples h)

/-- A time is below the limit if its whole picoseconds are. -/
theorem lt_timeLimit {n r l : ℕ} (hr : r < l) :
    (n : ℚ) + (r : ℚ) / l < (timeLimit : ℕ) ↔ n < timeLimit := by
  have hl : (0 : ℚ) < l := by exact_mod_cast (Nat.zero_le r).trans_lt hr
  have h0 : (0 : ℚ) ≤ (r : ℚ) / l := by positivity
  have h1 : (r : ℚ) / l < 1 := by
    rw [div_lt_one hl]
    exact_mod_cast hr
  constructor
  · intro hlt
    have hn : (n : ℚ) < (timeLimit : ℕ) := by linarith
    exact_mod_cast hn
  · intro hlt
    have hn : (n : ℚ) + 1 ≤ (timeLimit : ℕ) := by exact_mod_cast hlt
    linarith

/-- The exact time with a carry into the whole picoseconds. -/
theorem Sum.carried {t : SampleTimeline} {samples a b l : ℕ} (h : t.Valid) (hsum : Sum t samples a b l)
    (hcarry : a ≥ l - b) : t.exact + samples * picosecondsPerSecond / t.rate =
      ((t.current.time.ps + (stepDuration t.rate samples).ps + 1 : ℕ) : ℚ) +
        ((a - (l - b) : ℕ) : ℚ) / l ∧ a - (l - b) < l := by
  obtain ⟨ha, hb⟩ := hsum.lt h
  have hl : (l : ℚ) ≠ 0 := by exact_mod_cast (hsum.pos h).ne'
  have hsplit : a + b = (a - (l - b)) + l := by omega
  refine ⟨?_, by omega⟩
  rw [hsum.value h, hsplit, Nat.cast_add (a - (l - b)) l, add_div, div_self hl]
  push_cast
  ring

theorem Sum.plain {t : SampleTimeline} {samples a b l : ℕ} (h : t.Valid) (hsum : Sum t samples a b l)
    (hcarry : ¬a ≥ l - b) : t.exact + samples * picosecondsPerSecond / t.rate =
      ((t.current.time.ps + (stepDuration t.rate samples).ps : ℕ) : ℚ) + ((a + b : ℕ) : ℚ) / l ∧
        a + b < l := by
  obtain ⟨ha, hb⟩ := hsum.lt h
  refine ⟨?_, by omega⟩
  rw [hsum.value h]
  push_cast
  ring

theorem onePicosecond_valid : ({ picoseconds := 1 } : Duration).valid := by decide

/-- An advance that succeeds counts the samples and adds their exact time. -/
theorem Valid.advance_ok {t t' : SampleTimeline} {samples : ℕ} (h : t.Valid)
    (hadvance : t.advance samples = .ok t') : t.ordinal + samples ≤ uint64Max ∧
      t.exact + samples * picosecondsPerSecond / t.rate < timeLimit ∧ t'.Valid ∧
      t'.exact = t.exact + samples * picosecondsPerSecond / t.rate ∧ t'.rate = t.rate ∧
      t'.ordinal = t.ordinal + samples ∧ t'.revision = t.revision := by
  obtain ⟨hle, a, b, l, next, hsum, hnext, hrest⟩ := h.advance_cases.mp hadvance
  obtain ⟨hlt, hvalid, hps⟩ := (add_eq_ok h.time (stepDuration_valid samples h.rate_pos)).mp hnext
  split at hrest
  · next hcarry =>
    obtain ⟨next', hnext', rfl⟩ := hrest
    obtain ⟨hval, hn⟩ := hsum.carried h hcarry
    obtain ⟨hlt', hvalid', hps'⟩ := (add_eq_ok hvalid onePicosecond_valid).mp hnext'
    have hps₁ : next'.ps = t.current.time.ps + (stepDuration t.rate samples).ps + 1 := by
      rw [hps', hps]
      rfl
    have hlimit : next'.ps < timeLimit := by
      rw [hps']
      exact hlt'
    obtain ⟨hv, hexact⟩ := h.moved hsum.common hn hvalid' ((ProtocolTime.ps_lt hvalid').mp hlimit) hle
    rw [hval]
    refine ⟨hle, ?_, hv, ?_, rfl, rfl, rfl⟩
    · rw [lt_timeLimit hn, ← hps₁]
      exact hlimit
    · rw [hexact, hps₁]
  · next hcarry =>
    obtain ⟨hval, hn⟩ := hsum.plain h hcarry
    have hlimit : next.ps < timeLimit := by
      rw [hps]
      exact hlt
    obtain ⟨hv, hexact⟩ := h.moved hsum.common hn hvalid ((ProtocolTime.ps_lt hvalid).mp hlimit) hle
    rw [hrest, hval]
    refine ⟨hle, ?_, hv, ?_, rfl, rfl, rfl⟩
    · rw [lt_timeLimit hn]
      exact hlt
    · rw [hexact, hps]

/-- It succeeds where neither the count nor the time leaves its range. -/
theorem Valid.advance_exists {t : SampleTimeline} {samples : ℕ} (h : t.Valid)
    (hle : t.ordinal + samples ≤ uint64Max)
    (hlt : t.exact + samples * picosecondsPerSecond / t.rate < timeLimit) :
    ∃ t', t.advance samples = .ok t' := by
  have hstep := stepDuration_valid samples h.rate_pos
  have hsum : Sum t samples _ _ _ := ⟨rfl, rfl, rfl⟩
  generalize Nat.lcm t.current.denominator (stepDenominator t.rate) = l at hsum
  generalize t.current.numerator * (l / t.current.denominator) = a at hsum
  generalize stepResidue t.rate samples * (l / stepDenominator t.rate) = b at hsum
  by_cases hcarry : a ≥ l - b
  · obtain ⟨hval, hn⟩ := hsum.carried h hcarry
    rw [hval, lt_timeLimit hn] at hlt
    obtain ⟨next, hnext⟩ := add_exists h.time hstep (Nat.lt_of_succ_lt hlt)
    obtain ⟨-, hvalid, hps⟩ := (add_eq_ok h.time hstep).mp hnext
    obtain ⟨next', hnext'⟩ := add_exists hvalid onePicosecond_valid (by rw [hps]; exact hlt)
    exact ⟨_, h.advance_cases.mpr ⟨hle, a, b, l, next, hsum, hnext, by
      rw [if_pos hcarry]
      exact ⟨next', hnext', rfl⟩⟩⟩
  · obtain ⟨hval, hn⟩ := hsum.plain h hcarry
    rw [hval, lt_timeLimit hn] at hlt
    obtain ⟨next, hnext⟩ := add_exists h.time hstep hlt
    exact ⟨_, h.advance_cases.mpr ⟨hle, a, b, l, next, hsum, hnext, by rw [if_neg hcarry]⟩⟩

/-- When `advance` succeeds, and with which timeline. -/
theorem Valid.advance_iff {t t' : SampleTimeline} {samples : ℕ} (h : t.Valid) :
    t.advance samples = .ok t' ↔ t.ordinal + samples ≤ uint64Max ∧
      t.exact + samples * picosecondsPerSecond / t.rate < timeLimit ∧ t'.Valid ∧
      t'.exact = t.exact + samples * picosecondsPerSecond / t.rate ∧ t'.rate = t.rate ∧
      t'.ordinal = t.ordinal + samples ∧ t'.revision = t.revision := by
  refine ⟨h.advance_ok, ?_⟩
  rintro ⟨hle, hlt, hv', hexact', hrate', hordinal', hrevision'⟩
  obtain ⟨u, hu⟩ := h.advance_exists hle hlt
  obtain ⟨-, -, hv, hexact, hrate, hordinal, hrevision⟩ := h.advance_ok hu
  rw [hu, hv.ext hv' (hexact.trans hexact'.symm) (hrate.trans hrate'.symm)
    (hordinal.trans hordinal'.symm) (hrevision.trans hrevision'.symm)]

/-- Two steps are one step. -/
theorem Valid.advance_add {t t' : SampleTimeline} {a b : ℕ} (h : t.Valid) :
    (∃ u, t.advance a = .ok u ∧ u.advance b = .ok t') ↔ t.advance (a + b) = .ok t' := by
  have hrate : (0 : ℚ) < t.rate := by exact_mod_cast h.rate_pos
  have hsplit : ((a + b : ℕ) : ℚ) * picosecondsPerSecond / t.rate =
      a * picosecondsPerSecond / t.rate + b * picosecondsPerSecond / t.rate := by
    push_cast
    ring
  have hb : (0 : ℚ) ≤ b * picosecondsPerSecond / t.rate := by positivity
  rw [h.advance_iff, hsplit]
  constructor
  · rintro ⟨u, hu, hb'⟩
    obtain ⟨hle, hlt, hv, hexact, hr, hord, hrev⟩ := h.advance_ok hu
    obtain ⟨hle', hlt', hv', hexact', hr', hord', hrev'⟩ := hv.advance_ok hb'
    rw [hexact, hr] at hlt' hexact'
    rw [hord] at hle' hord'
    refine ⟨by omega, by linarith, hv', by rw [hexact']; ring, hr'.trans hr, by omega, hrev'.trans hrev⟩
  · rintro ⟨hle, hlt, hv', hexact', hr', hord', hrev'⟩
    have hfirst : ∃ u, t.advance a = .ok u := h.advance_exists (by omega) (by linarith)
    obtain ⟨u, hu⟩ := hfirst
    obtain ⟨-, -, hv, hexact, hr, hord, hrev⟩ := h.advance_ok hu
    refine ⟨u, hu, hv.advance_iff.mpr ⟨by omega, ?_, hv', ?_, hr'.trans hr.symm, by omega,
      hrev'.trans hrev.symm⟩⟩
    · rw [hexact, hr]
      linarith
    · rw [hexact, hr, hexact']
      ring

/-! ## No operation wraps -/

/-- The sum in 64 bits does not wrap. -/
theorem add64_eq {t : ProtocolTime} {d : Duration} (ht : t.seconds ≤ uint64Max) :
    add64 t d = some (add t d) := by
  unfold add64 add
  by_cases hv : ¬t.valid ∨ ¬d.valid
  · rw [if_pos hv, rejectIf_of hv]
    rfl
  · rw [if_neg hv, rejectIf_of_not hv]
    simp only [not_or, not_not, ProtocolTime.valid_iff, Duration.valid_iff] at hv
    have hfraction : t.picoseconds + d.picoseconds ≤ uint64Max := by
      simp only [picosecondsPerSecond, uint64Max] at hv ⊢
      omega
    rw [plus_eq hfraction]
    simp only [Option.bind_eq_bind, Option.bind_some, ok_bind]
    rw [divide_eq (by decide), Option.bind_some, minus_eq ht, Option.bind_some]
    generalize (t.picoseconds + d.picoseconds) / picosecondsPerSecond = carry
    by_cases hd : d.seconds > uint64Max - t.seconds
    · have hover : t.seconds + d.seconds + carry > uint64Max := by omega
      rw [if_pos hd, rejectIf_of hover]
      rfl
    · rw [if_neg hd, minus_eq (by omega), Option.bind_some]
      by_cases hc : carry > uint64Max - t.seconds - d.seconds
      · have hover : t.seconds + d.seconds + carry > uint64Max := by omega
        rw [if_pos hc, rejectIf_of hover]
        rfl
      · have hover : ¬t.seconds + d.seconds + carry > uint64Max := by omega
        rw [if_neg hc, plus_eq (by omega), Option.bind_some, plus_eq (by omega), Option.bind_some,
          rest_eq (by decide), Option.bind_some, rejectIf_of_not hover]
        rfl

/-- The common denominator fits a word. -/
theorem commonDenominator64_eq {a b : ℕ} (hb : 0 < b) :
    commonDenominator64 a b = some (commonDenominator a b) := by
  unfold commonDenominator64 commonDenominator
  rw [divide_eq (Nat.gcd_pos_of_pos_right a hb)]
  simp only [Option.bind_eq_bind, Option.bind_some]
  rw [divide_eq hb, Option.bind_some]
  by_cases h : a / Nat.gcd a b > uint64Max / b
  · rw [if_pos h, rejectIf_of h]
    rfl
  · rw [if_neg h, rejectIf_of_not h, times_eq (by rwa [gt_iff_lt, Nat.not_lt, Nat.le_div_iff_mul_le hb] at h)]
    rfl

/-- The change of rate in 64 bits does not wrap. -/
theorem Valid.changeRate64_eq {t : SampleTimeline} (h : t.Valid) (rate : ℕ) :
    t.changeRate64 rate = some (t.settle (t.changeRate rate)) := by
  unfold changeRate64 SampleTimeline.changeRate
  by_cases hrate : rate = 0 ∨ rate > 100000000
  · rw [if_pos hrate, rejectIf_of hrate]
    rfl
  · rw [if_neg hrate, rejectIf_of_not hrate]
    have hpos : 0 < rate := by omega
    by_cases hrevision : t.revision = uint64Max
    · rw [if_pos hrevision, rejectIf_of hrevision]
      rfl
    · rw [if_neg hrevision, divide_eq (Nat.gcd_pos_of_pos_right _ hpos)]
      simp only [Option.bind_eq_bind, Option.bind_some, ok_bind, rejectIf_of_not hrevision]
      rw [show rate / Nat.gcd picosecondsPerSecond rate = stepDenominator rate from rfl,
        commonDenominator64_eq (stepDenominator_pos hpos), Option.bind_some]
      have hrev := h.revision
      rcases commonDenominator t.current.denominator (stepDenominator rate) with e | n
      · rfl
      · dsimp only
        rw [plus_eq (by omega)]
        rfl

/-- The numbers of a step are 64-bit numbers. -/
theorem step_bounds {rate : ℕ} (samples : ℕ) (hpos : 0 < rate) (hle : rate ≤ 100000000) :
    samples % rate * (picosecondsPerSecond % rate) ≤ uint64Max ∧
      samples % rate * (picosecondsPerSecond / rate) +
        samples % rate * (picosecondsPerSecond % rate) / rate ≤ uint64Max := by
  constructor
  · have h1 := (Nat.mod_lt samples hpos).le.trans hle
    have h2 := (Nat.mod_lt picosecondsPerSecond hpos).le.trans hle
    exact (Nat.mul_le_mul h1 h2).trans (by decide)
  · exact (stepFraction_lt samples hpos).le.trans (by decide)

/-- The second half of an advance in 64 bits does not wrap. -/
theorem Valid.advanced64_eq {t : SampleTimeline} {samples a b l : ℕ} (h : t.Valid)
    (hordinal : t.ordinal + samples ≤ uint64Max) (hsum : Sum t samples a b l) :
    t.advanced64 samples l (stepDenominator t.rate) (stepResidue t.rate samples)
        (stepDuration t.rate samples) =
      some (t.settle (do
        let next ← add t.current.time (stepDuration t.rate samples)
        if a ≥ l - b then do
          let next ← add next { picoseconds := 1 }
          return t.moved samples next (a - (l - b)) l
        else return t.moved samples next (a + b) l)) := by
  obtain ⟨ha, hb⟩ := hsum.lt h
  have hl := hsum.pos h
  have hmax : l ≤ uint64Max := by
    rw [hsum.common]
    exact h.common
  have hgcd : ∀ n, 0 < Nat.gcd n l := fun n => Nat.gcd_pos_of_pos_right n hl
  unfold advanced64
  rw [divide_eq ((Nat.zero_le _).trans_lt h.proper)]
  simp only [Option.bind_eq_bind, Option.bind_some]
  rw [times_eq (by rw [← hsum.left]; omega), Option.bind_some, divide_eq (stepDenominator_pos h.rate_pos),
    Option.bind_some, times_eq (by rw [← hsum.right]; omega), Option.bind_some, ← hsum.left, ← hsum.right,
    minus_eq hb.le, Option.bind_some, add64_eq h.seconds, Option.bind_some]
  rcases hnext : add t.current.time (stepDuration t.rate samples) with e | next
  · rfl
  · obtain ⟨hlt, hvalid, hps⟩ := (add_eq_ok h.time (stepDuration_valid samples h.rate_pos)).mp hnext
    have hseconds : next.seconds ≤ uint64Max := (ProtocolTime.ps_lt hvalid).mp (by rw [hps]; exact hlt)
    dsimp only
    rw [ok_bind]
    by_cases hcarry : a ≥ l - b
    · rw [if_pos hcarry, if_pos hcarry, minus_eq hcarry, Option.bind_some, add64_eq hseconds,
        Option.bind_some]
      rcases add next { picoseconds := 1 } with e | next'
      · rfl
      · dsimp only
        rw [divide_eq (hgcd _), Option.bind_some, divide_eq (hgcd _), Option.bind_some, plus_eq hordinal]
        rfl
    · rw [if_neg hcarry, if_neg hcarry, plus_eq (by omega), Option.bind_some, divide_eq (hgcd _),
        Option.bind_some, divide_eq (hgcd _), Option.bind_some, plus_eq hordinal]
      rfl

/-- The advance in 64 bits does not wrap. -/
theorem Valid.advance64_eq {t : SampleTimeline} (h : t.Valid) (samples : ℕ) :
    t.advance64 samples = some (t.settle (t.advance samples)) := by
  obtain ⟨hproduct, hfraction⟩ := step_bounds samples h.rate_pos h.rate_le
  have hg : 0 < Nat.gcd picosecondsPerSecond t.rate := Nat.gcd_pos_of_pos_right _ h.rate_pos
  have hordinal := h.ordinal
  rw [advance_eq]
  unfold advance64
  rw [minus_eq hordinal]
  simp only [Option.bind_eq_bind, Option.bind_some]
  by_cases hroom : samples > uint64Max - t.ordinal
  · rw [if_pos hroom, rejectIf_of hroom]
    rfl
  · have hl : commonDenominator t.current.denominator (stepDenominator t.rate) =
        .ok (Nat.lcm t.current.denominator (stepDenominator t.rate)) :=
      (commonDenominator_eq_ok (stepDenominator_pos h.rate_pos)).mpr ⟨h.common, rfl⟩
    rw [if_neg hroom, rejectIf_of_not hroom, ok_bind, hl, ok_bind, divide_eq h.rate_pos, Option.bind_some,
      rest_eq h.rate_pos, Option.bind_some, divide_eq h.rate_pos, Option.bind_some, rest_eq h.rate_pos,
      Option.bind_some, times_eq hproduct, Option.bind_some, times_eq ((Nat.le_add_right _ _).trans hfraction),
      Option.bind_some,
      divide_eq h.rate_pos, Option.bind_some, plus_eq hfraction, Option.bind_some, rest_eq h.rate_pos,
      Option.bind_some, divide_eq hg, Option.bind_some, divide_eq hg, Option.bind_some]
    show (commonDenominator64 t.current.denominator (stepDenominator t.rate)).bind _ = _
    rw [commonDenominator64_eq (stepDenominator_pos h.rate_pos), Option.bind_some, hl]
    exact h.advanced64_eq (by omega) ⟨rfl, rfl, rfl⟩

/-- The code computes the timelines with natural numbers, and keeps the old one where it fails. -/
theorem Valid.perform64_eq {t : SampleTimeline} (h : t.Valid) (op : TimelineOp) :
    t.perform64 op = some (t.settle (t.perform op)) := by
  cases op with
  | advance samples => exact h.advance64_eq samples
  | changeRate rate => exact h.changeRate64_eq rate

end SampleTimeline

/-! ## Sequences of operations -/

/-- The time that passes during some operations, in picoseconds. -/
def elapsed : ℕ → List TimelineOp → ℚ
  | _, [] => 0
  | rate, .advance samples :: ops => samples * picosecondsPerSecond / rate + elapsed rate ops
  | _, .changeRate rate :: ops => elapsed rate ops

/-- A run adds the exact times of its operations. -/
theorem run_valid {t t' : SampleTimeline} {ops : List TimelineOp} (h : t.Valid)
    (hrun : ops.foldlM SampleTimeline.perform t = .ok t') :
    t'.Valid ∧ t'.exact = t.exact + elapsed t.rate ops := by
  induction ops generalizing t with
  | nil =>
    obtain rfl := Except.ok.inj hrun
    exact ⟨h, by simp [elapsed]⟩
  | cons op ops ih =>
    rw [List.foldlM_cons, bind_eq_ok] at hrun
    obtain ⟨u, hop, hrun⟩ := hrun
    cases op with
    | advance samples =>
      obtain ⟨-, -, hv, hexact, hrate, -, -⟩ := h.advance_ok hop
      obtain ⟨hv', hexact'⟩ := ih hv hrun
      exact ⟨hv', by rw [hexact', hexact, hrate, elapsed]; ring⟩
    | changeRate rate =>
      obtain ⟨hv, hexact, hrate⟩ := h.changeRate hop
      obtain ⟨hv', hexact'⟩ := ih hv hrun
      exact ⟨hv', by rw [hexact', hexact, hrate, elapsed]⟩

/-- Sample time is exact: after any operations that succeeded it is the origin and the time of all samples
at their rates, in lowest terms. No 64-bit operation wraps, two steps are one step, and an operation that
fails leaves the timeline as it was. -/
theorem sample_time_exact {origin : ProtocolTime} {rate : ℕ} {t₀ t : SampleTimeline}
    {ops : List TimelineOp} (hseconds : origin.seconds ≤ uint64Max)
    (hcreate : SampleTimeline.create origin rate = .ok t₀)
    (hrun : ops.foldlM SampleTimeline.perform t₀ = .ok t) :
    t.exact = origin.ps + elapsed rate ops ∧ t.current.numerator < t.current.denominator ∧
      Nat.Coprime t.current.numerator t.current.denominator ∧
      (∀ op, t.perform64 op = some (t.settle (t.perform op))) ∧
      ∀ a b t', (∃ u, t.advance a = .ok u ∧ u.advance b = .ok t') ↔ t.advance (a + b) = .ok t' := by
  obtain ⟨hv₀, hexact₀, hrate⟩ := SampleTimeline.create_valid hseconds hcreate
  obtain ⟨hv, hexact⟩ := run_valid hv₀ hrun
  refine ⟨by rw [hexact, hexact₀, hrate], hv.proper, hv.lowest, hv.perform64_eq, fun a b t' => ?_⟩
  exact hv.advance_add

/-- Four samples at three hertz and two at seven. -/
theorem sample_time_exact_thirds : ∃ t₀ t, SampleTimeline.create { seconds := 5 } 3 = .ok t₀ ∧
    [TimelineOp.advance 4, .changeRate 7, .advance 2].foldlM SampleTimeline.perform t₀ = .ok t ∧
    t.exact = (ProtocolTime.ps { seconds := 5 }) +
      elapsed 3 [.advance 4, .changeRate 7, .advance 2] := by
  obtain ⟨t₀, h₀⟩ : ∃ t₀, SampleTimeline.create { seconds := 5 } 3 = .ok t₀ := ⟨_, rfl⟩
  obtain ⟨t, ht⟩ : ∃ t, [TimelineOp.advance 4, .changeRate 7, .advance 2].foldlM
      SampleTimeline.perform t₀ = .ok t := by
    obtain rfl := Except.ok.inj h₀
    exact ⟨_, rfl⟩
  exact ⟨t₀, t, h₀, ht, (sample_time_exact (by decide) h₀ ht).1⟩

end Vita.Timing
