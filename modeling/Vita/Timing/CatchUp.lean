import Vita.Common.Bisection
import Vita.Timing.Choice

/-!
# Whole packets up to a time (`intervals_on` of `public/runtime.hpp`)

A stream that has fallen behind looks for the last packet boundary up to a time, by bisection over the
packets that its ordinal has room for.

Main definition: `SampleTimeline.intervalsOn`, operation by operation.

Main result: `SampleTimeline.Reachable.intervals_exact`.
-/

namespace Vita.Timing

open Checked Word64

namespace SampleTimeline

/-- `reanchor_mapping`: the time is shifted as the clock was. -/
def reanchorMapping (t : SampleTimeline) (oldNow newNow : ProtocolTime) : Result SampleTimeline := do
  if newNow.before oldNow then
    let delta ← difference oldNow newNow
    let shifted ← subtract t.current.time delta
    return { t with current := { t.current with time := shifted } }
  else
    let delta ← difference newNow oldNow
    let shifted ← add t.current.time delta
    return { t with current := { t.current with time := shifted } }

/-- The timelines of the operations that succeed; one that fails leaves the timeline as it was. -/
inductive Reachable : SampleTimeline → Prop
  | create {origin : ProtocolTime} {rate : ℕ} {t : SampleTimeline} (hseconds : origin.seconds ≤ uint64Max)
      (h : create origin rate = .ok t) : Reachable t
  | advance {t t' : SampleTimeline} {samples : ℕ} (ht : Reachable t) (h : t.advance samples = .ok t') :
      Reachable t'
  | changeRate {t t' : SampleTimeline} {rate : ℕ} (ht : Reachable t) (h : t.changeRate rate = .ok t') :
      Reachable t'
  | reanchorMapping {t t' : SampleTimeline} {oldNow newNow : ProtocolTime} (ht : Reachable t)
      (h : t.reanchorMapping oldNow newNow = .ok t') : Reachable t'

/-- A packet boundary that a copy of the timeline reaches, not later than the target. -/
def probe (t : SampleTimeline) (target : ProtocolTime) (pairs mid : ℕ) : Option Bool := do
  let samples ← times mid pairs
  match ← t.advance64 samples with
  | (.ok _, copy) => return !target.before copy.time
  | (.error _, _) => return false

/-- The loop of `intervals_on`: the interval after some iterations. -/
def narrow (t : SampleTimeline) (target : ProtocolTime) (pairs : ℕ) : ℕ → ℕ × ℕ → Option (ℕ × ℕ)
  | 0, s => some s
  | n + 1, (lo, hi) =>
    if lo < hi then do
      let gap ← minus hi lo
      let half ← plus lo (gap / 2)
      let mid ← plus half (gap % 2)
      if ← t.probe target pairs mid then t.narrow target pairs n (mid, hi)
      else do
        let below ← minus mid 1
        t.narrow target pairs n (lo, below)
    else some (lo, hi)

/-- The packets that the ordinal has room for. -/
def roomFor (t : SampleTimeline) (pairs : ℕ) : ℕ := (uint64Max - t.ordinal) / pairs

/-- `intervals_on`, with `none` where an operation would wrap. -/
def intervalsOn (t : SampleTimeline) (target : ProtocolTime) (pairs : ℕ) : Option ℕ :=
  if target.before t.time then some 0
  else do
    let room ← minus uint64Max t.ordinal
    let hi ← divide room pairs
    let s ← t.narrow target pairs 64 (0, hi)
    return s.1

/-- The packet boundaries not later than the target. -/
def Overdue (t : SampleTimeline) (target : ProtocolTime) (pairs k : ℕ) : Prop :=
  k * pairs ≤ uint64Max - t.ordinal ∧ ∃ t', t.advance (k * pairs) = .ok t' ∧ t'.time ≤ target

/-! ## Shifts of the clock -/

theorem valid_of_subtract {u v : ProtocolTime} {d : Duration} (h : subtract u d = .ok v) :
    u.valid ∧ d.valid := by
  simp only [subtract, bind_eq_ok, rejectIf_eq_ok] at h
  obtain ⟨_, hvalid, -⟩ := h
  simpa using hvalid

theorem valid_of_add {u v : ProtocolTime} {d : Duration} (h : add u d = .ok v) : u.valid ∧ d.valid := by
  simp only [add, bind_eq_ok, rejectIf_eq_ok] at h
  obtain ⟨_, hvalid, -⟩ := h
  simpa using hvalid

/-- Another time, which is representable, keeps a timeline valid. -/
theorem Valid.retime {t : SampleTimeline} (h : t.Valid) {time : ProtocolTime} (htime : time.valid)
    (hps : time.ps < timeLimit) : Valid { t with current := { t.current with time } } :=
  { h with time := htime, seconds := (ProtocolTime.ps_lt htime).mp hps }

/-- A mapping that is anchored again is valid. -/
theorem Valid.reanchorMapping {t t' : SampleTimeline} {oldNow newNow : ProtocolTime} (h : t.Valid)
    (hshift : t.reanchorMapping oldNow newNow = .ok t') : t'.Valid := by
  unfold SampleTimeline.reanchorMapping at hshift
  split at hshift
  · simp only [bind_eq_ok, pure_eq_ok, Except.ok.injEq] at hshift
    obtain ⟨delta, -, shifted, hshifted, rfl⟩ := hshift
    obtain ⟨hvalid, hps⟩ := (subtract_eq_ok h.time (valid_of_subtract hshifted).2).mp hshifted
    have hlt := (ProtocolTime.ps_lt h.time).mpr h.seconds
    exact h.retime hvalid (by omega)
  · simp only [bind_eq_ok, pure_eq_ok, Except.ok.injEq] at hshift
    obtain ⟨delta, -, shifted, hshifted, rfl⟩ := hshift
    obtain ⟨hlt, hvalid, hps⟩ := (add_eq_ok h.time (valid_of_add hshifted).2).mp hshifted
    exact h.retime hvalid (hps ▸ hlt)

theorem Reachable.valid {t : SampleTimeline} (h : t.Reachable) : t.Valid := by
  induction h with
  | create hseconds h => exact (create_valid hseconds h).1
  | advance _ h ih => exact (ih.advance_ok h).2.2.1
  | changeRate _ h ih => exact (ih.changeRate h).1
  | reanchorMapping _ h ih => exact ih.reanchorMapping h

/-! ## Boundaries in order -/

/-- A timeline that is not ahead has a time that is not later. -/
theorem Valid.time_mono {t t' : SampleTimeline} (h : t.Valid) (h' : t'.Valid) (hle : t.exact ≤ t'.exact) :
    t.time ≤ t'.time := by
  have hpos : (0 : ℚ) < t'.current.denominator := by exact_mod_cast (Nat.zero_le _).trans_lt h'.proper
  have hone : (t'.current.numerator : ℚ) / t'.current.denominator < 1 := by
    rw [div_lt_one hpos]
    exact_mod_cast h'.proper
  have hnonneg : (0 : ℚ) ≤ (t.current.numerator : ℚ) / t.current.denominator := by positivity
  have hps : t.current.time.ps ≤ t'.current.time.ps := by
    have hlt : (t.current.time.ps : ℚ) < t'.current.time.ps + 1 := by
      unfold exact at hle
      linarith
    have hnat : t.current.time.ps < t'.current.time.ps + 1 := by exact_mod_cast hlt
    omega
  by_contra hnot
  have hbefore := ProtocolTime.before_iff.mpr (not_le.mp hnot)
  have hlt := (ProtocolTime.before_iff_ps h'.time h.time).mp hbefore
  exact absurd hlt (not_lt.mpr hps)

/-- A shorter way succeeds too, and its end is not later. -/
theorem Valid.advance_mono {t u : SampleTimeline} (h : t.Valid) {a b : ℕ} (hab : a ≤ b)
    (hadvance : t.advance b = .ok u) : ∃ v, t.advance a = .ok v ∧ v.time ≤ u.time := by
  obtain ⟨hordinal, hlimit, hu, hexact, -⟩ := h.advance_ok hadvance
  have hle : (a : ℚ) * picosecondsPerSecond / t.rate ≤ b * picosecondsPerSecond / t.rate := by
    gcongr
  obtain ⟨v, hv⟩ : ∃ v, t.advance a = .ok v := h.advance_exists (by omega) (by linarith)
  obtain ⟨-, -, hvalid, hexact', -⟩ := h.advance_ok hv
  exact ⟨v, hv, hvalid.time_mono hu (by rw [hexact, hexact']; linarith)⟩

/-! ## The search -/

/-- The boundary is reached, and not later than the target. -/
def reaches (t : SampleTimeline) (target : ProtocolTime) (pairs mid : ℕ) : Bool :=
  match t.advance (mid * pairs) with
  | .ok copy => !target.before copy.time
  | .error _ => false

variable {t : SampleTimeline} {target : ProtocolTime} {pairs : ℕ}

theorem reaches_iff {mid : ℕ} : t.reaches target pairs mid ↔
    ∃ t', t.advance (mid * pairs) = .ok t' ∧ t'.time ≤ target := by
  unfold reaches
  rcases t.advance (mid * pairs) with e | u
  · simp
  · rw [Bool.not_eq_true', Bool.eq_false_iff, ne_eq, ProtocolTime.before_iff, not_lt]
    simp

theorem Valid.probe_eq (h : t.Valid) {mid : ℕ} (hmid : mid * pairs ≤ uint64Max) :
    t.probe target pairs mid = some (t.reaches target pairs mid) := by
  unfold probe reaches
  rw [times_eq hmid]
  simp only [Option.bind_eq_bind, Option.bind_some]
  rw [h.advance64_eq, Option.bind_some]
  rcases t.advance (mid * pairs) with e | u
  · rfl
  · rfl

/-- The loop is a bisection, and nothing in it wraps. -/
theorem Valid.narrow_eq (h : t.Valid) (n : ℕ) {lo hi : ℕ} (hhi : hi ≤ uint64Max)
    (hroom : hi * pairs ≤ uint64Max) :
    t.narrow target pairs n (lo, hi) = some (Bisection.search (t.reaches target pairs) n lo hi) := by
  induction n generalizing lo hi with
  | zero => rfl
  | succ n ih =>
    unfold narrow Bisection.search
    split
    next hlt =>
      have hmid : lo + (hi - lo) / 2 + (hi - lo) % 2 ≤ hi := by omega
      have hproduct := (Nat.mul_le_mul_right pairs hmid).trans hroom
      rw [minus_eq hlt.le]
      simp only [Option.bind_eq_bind, Option.bind_some]
      rw [plus_eq (by omega), Option.bind_some, plus_eq (by omega), Option.bind_some,
        h.probe_eq hproduct, Option.bind_some]
      unfold Bisection.middle
      split
      · exact ih hhi hroom
      · rw [minus_eq (by omega), Option.bind_some]
        refine ih (by omega) (hproduct.trans' (Nat.mul_le_mul_right pairs (by omega)))
    next => rfl

/-- What is overdue is overdue up to a number of packets only. -/
theorem Valid.reaches_downClosed (h : t.Valid) : Bisection.DownClosed (t.reaches target pairs) 0 := by
  intro a b _ hab hb
  rw [reaches_iff] at hb ⊢
  obtain ⟨u, hu, hle⟩ := hb
  obtain ⟨v, hv, hvu⟩ := h.advance_mono (Nat.mul_le_mul_right pairs hab) hu
  exact ⟨v, hv, hvu.trans hle⟩

theorem le_roomFor (hpairs : 1 ≤ pairs) {k : ℕ} :
    k ≤ t.roomFor pairs ↔ k * pairs ≤ uint64Max - t.ordinal :=
  Nat.le_div_iff_mul_le hpairs

/-- The search for the last boundary up to a time is exact: it returns the largest number of packets
that is zero or leads to a boundary not later than the target. Its 64 iterations close the interval, and
no product wraps. -/
theorem Reachable.intervals_exact (ht : t.Reachable) (hpairs : 1 ≤ pairs) (target : ProtocolTime) :
    ∃ k, t.intervalsOn target pairs = some k ∧ (k = 0 ∨ t.Overdue target pairs k) ∧
      (∀ j, t.Overdue target pairs j → j ≤ k) ∧
      (t.time ≤ target → t.narrow target pairs 64 (0, t.roomFor pairs) = some (k, k)) := by
  have h := ht.valid
  have hordinal := h.ordinal
  by_cases hearly : target.before t.time
  · -- the stream has not yet come to the target
    have hlt := ProtocolTime.before_iff.mp hearly
    refine ⟨0, by rw [intervalsOn, if_pos hearly], .inl rfl, ?_, fun hle => absurd hlt (not_lt.mpr hle)⟩
    rintro j ⟨-, u, hu, hle⟩
    obtain ⟨v, hv, hvu⟩ := h.advance_mono (Nat.zero_le _) hu
    obtain ⟨-, -, hvalid, hexact, -⟩ := h.advance_ok hv
    have hstay : t.time ≤ v.time := h.time_mono hvalid (by rw [hexact]; simp)
    exact absurd hlt (not_lt.mpr (hstay.trans (hvu.trans hle)))
  · have hroom : t.roomFor pairs * pairs ≤ uint64Max - t.ordinal := (le_roomFor hpairs).mp le_rfl
    have hmax : t.roomFor pairs ≤ uint64Max := (Nat.div_le_self _ _).trans (Nat.sub_le _ _)
    have hnarrow : t.narrow target pairs 64 (0, t.roomFor pairs) =
        some (Bisection.search (t.reaches target pairs) 64 0 (t.roomFor pairs)) :=
      h.narrow_eq 64 hmax (hroom.trans (Nat.sub_le _ _))
    have hdown : Bisection.DownClosed (t.reaches target pairs) 0 := h.reaches_downClosed
    have hsize : t.roomFor pairs - 0 < 2 ^ 64 := by
      rw [uint64Max] at hmax
      omega
    have hclosed := Bisection.search_closed (p := t.reaches target pairs) (Nat.zero_le _) hsize
    obtain ⟨⟨-, -, hhi⟩, hfound, hlast⟩ :=
      Bisection.search_spec (n := 64) (Nat.zero_le (t.roomFor pairs)) hdown
    generalize Bisection.search (t.reaches target pairs) 64 0 (t.roomFor pairs) = s at *
    obtain ⟨k, k'⟩ := s
    obtain rfl : k = k' := hclosed
    refine ⟨k, ?_, hfound.imp id fun hk => ⟨(le_roomFor hpairs).mp hhi, reaches_iff.mp hk⟩, ?_,
      fun _ => hnarrow⟩
    · rw [intervalsOn, if_neg hearly, minus_eq hordinal]
      simp only [Option.bind_eq_bind, Option.bind_some]
      rw [divide_eq hpairs, Option.bind_some]
      unfold roomFor at hnarrow
      rw [hnarrow]
      rfl
    · rintro j ⟨hj, hreached⟩
      by_contra hlt
      exact hlast j (not_le.mp hlt) ((le_roomFor hpairs).mpr hj) (reaches_iff.mpr hreached)

/-- At a thousand samples a second, two packets of a thousand samples start up to two seconds later. -/
theorem Reachable.intervals_exact_seconds :
    ∃ t k, SampleTimeline.create { seconds := 5 } 1000 = .ok t ∧
      t.intervalsOn { seconds := 7, picoseconds := 1 } 1000 = some k ∧
      ∀ j, t.Overdue { seconds := 7, picoseconds := 1 } 1000 j → j ≤ k := by
  obtain ⟨t, ht⟩ : ∃ t, SampleTimeline.create { seconds := 5 } 1000 = .ok t := ⟨_, rfl⟩
  obtain ⟨k, hk, -, hlargest, -⟩ :=
    Reachable.intervals_exact (.create (by decide) ht) (by decide : 1 ≤ 1000)
      { seconds := 7, picoseconds := 1 }
  exact ⟨t, k, ht, hk, hlargest⟩

end SampleTimeline

end Vita.Timing
