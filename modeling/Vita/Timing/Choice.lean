import Vita.Timing.SampleTimeline
import Mathlib.Data.List.MinMax
import Mathlib.Data.Nat.Dist

/-!
# The choice of a boundary (`timing/scheduling.hpp`)

`chooseBoundary` goes once through the boundaries. Here its result is described without the loop: the
boundaries that may be chosen are those that are `Suitable`, and the chosen one is least in an order that
does not depend on their sequence.

Main definitions:
- `Suitable`: the conditions on a boundary, in picoseconds;
- `Closer`: one boundary is better than another;
- `Accepts`: the call is not refused.

Main results:
- `chooseBoundary_spec`: the result of a call that is accepted;
- `boundary_choice`: the statement about all calls.
-/

namespace Vita.Timing

open Checked

/-! ## Times in picoseconds -/

theorem ProtocolTime.before_iff_ps {a b : ProtocolTime} (ha : a.valid) (hb : b.valid) :
    a.before b ↔ a.ps < b.ps := by
  rw [ProtocolTime.valid_iff] at ha hb
  simp only [ProtocolTime.before, decide_eq_true_eq, ProtocolTime.ps, picosecondsPerSecond] at ha hb ⊢
  omega

theorem Duration.before_iff_ps {a b : Duration} (ha : a.valid) (hb : b.valid) :
    a.before b ↔ a.ps < b.ps := by
  rw [Duration.valid_iff] at ha hb
  simp only [Duration.before, decide_eq_true_eq, Duration.ps, picosecondsPerSecond] at ha hb ⊢
  omega

theorem Duration.eq_of_ps {a b : Duration} (ha : a.valid) (hb : b.valid) (h : a.ps = b.ps) : a = b := by
  obtain ⟨s, p⟩ := a
  obtain ⟨s', p'⟩ := b
  rw [Duration.valid_iff] at ha hb
  simp only [Duration.ps, picosecondsPerSecond] at ha hb h
  simp only [Duration.mk.injEq]
  omega

theorem Duration.fromPicoseconds_valid (n : ℕ) : (Duration.fromPicoseconds n).valid :=
  Duration.valid_iff.mpr (Nat.mod_lt _ (by decide))

theorem Duration.fromPicoseconds_ps (n : ℕ) : (Duration.fromPicoseconds n).ps = n :=
  Nat.div_add_mod' _ _

/-- A difference of times. -/
theorem subtract_eq_ok {t t' : ProtocolTime} {d : Duration} (ht : t.valid) (hd : d.valid) :
    subtract t d = .ok t' ↔ t'.valid ∧ t'.ps + d.ps = t.ps := by
  have hr : ¬(¬(t.valid = true) ∨ ¬(d.valid = true)) := by simp [ht, hd]
  obtain ⟨s, p⟩ := t
  obtain ⟨s', p'⟩ := t'
  obtain ⟨s₁, p₁⟩ := d
  rw [ProtocolTime.valid_iff] at ht
  rw [Duration.valid_iff] at hd
  rw [ProtocolTime.valid_iff]
  simp only [subtract, bind_eq_ok, rejectIf_eq_ok, hr, not_false_eq_true, exists_const, true_and,
    ProtocolTime.before, decide_eq_true_eq]
  simp only [ProtocolTime.ps, Duration.ps, picosecondsPerSecond] at ht hd ⊢
  split
  · simp only [pure_eq_ok, Except.ok.injEq, ProtocolTime.mk.injEq]
    omega
  · simp only [pure_eq_ok, Except.ok.injEq, ProtocolTime.mk.injEq]
    omega

theorem subtract_exists {t : ProtocolTime} {d : Duration} (ht : t.valid) (hd : d.valid)
    (h : d.ps ≤ t.ps) : ∃ t', subtract t d = .ok t' := by
  refine ⟨{ seconds := (t.ps - d.ps) / picosecondsPerSecond
            picoseconds := (t.ps - d.ps) % picosecondsPerSecond }, (subtract_eq_ok ht hd).mpr ⟨?_, ?_⟩⟩
  · exact ProtocolTime.valid_iff.mpr (Nat.mod_lt _ (by decide))
  · have hps : ProtocolTime.ps { seconds := (t.ps - d.ps) / picosecondsPerSecond
                                 picoseconds := (t.ps - d.ps) % picosecondsPerSecond } = t.ps - d.ps :=
      Nat.div_add_mod' _ _
    omega

/-- The distance of two times. -/
theorem difference_eq {t t' : ProtocolTime} (ht : t.valid) (ht' : t'.valid) (h : t'.ps ≤ t.ps) :
    difference t t' = .ok (.fromPicoseconds (t.ps - t'.ps)) := by
  have hd : Duration.valid { seconds := t'.seconds, picoseconds := t'.picoseconds } := by
    rw [Duration.valid_iff]
    exact ProtocolTime.valid_iff.mp ht'
  obtain ⟨u, hu⟩ := subtract_exists ht hd h
  obtain ⟨hvalid, hps⟩ := (subtract_eq_ok ht hd).mp hu
  simp only [difference, hu, ok_bind, pure_eq_ok, Except.ok.injEq]
  refine Duration.eq_of_ps ?_ (Duration.fromPicoseconds_valid _) ?_
  · rw [Duration.valid_iff]
    exact ProtocolTime.valid_iff.mp hvalid
  · rw [Duration.fromPicoseconds_ps]
    have : u.ps + t'.ps = t.ps := hps
    show u.ps = _
    omega

/-! ## Conditions on a boundary -/

/-- The time that a command needs before it takes effect; a command without a time needs none. -/
def leadNs (mode : ℕ) (c : TimingCapabilities) : ℕ := if mode ≠ 0 then c.preparationLeadNs else 0

/-- How early an effect may be in a timing mode. -/
def earliness (mode : ℕ) (c : TimingCapabilities) : ℕ :=
  if mode = 3 then c.deviceEarlyPs + c.applicationEarlyPs
  else if mode = 4 then c.applicationEarlyPs else c.deviceEarlyPs

/-- How late an effect may be in a timing mode. -/
def lateness (mode : ℕ) (c : TimingCapabilities) : ℕ :=
  if mode = 2 then c.deviceLatePs + c.applicationLatePs
  else if mode = 4 then c.applicationLatePs else c.deviceLatePs

/-- The uncertainty of a boundary. -/
def doubt (clock : ClockSnapshot) (b : Boundary) : ℕ := clock.uncertaintyPs + b.quantizationUncertaintyPs

/-- The boundary is in the execution window with its uncertainty. -/
def InWindow (mode : ℕ) (requested : ProtocolTime) (clock : ClockSnapshot) (c : TimingCapabilities)
    (b : Boundary) : Prop :=
  requested.ps + doubt clock b ≤ b.time.ps + earliness mode c ∧
    b.time.ps + doubt clock b ≤ requested.ps + lateness mode c

instance (mode : ℕ) (requested : ProtocolTime) (clock : ClockSnapshot) (c : TimingCapabilities)
    (b : Boundary) : Decidable (InWindow mode requested clock c b) := by
  unfold InWindow
  infer_instance

/-- A boundary that may be chosen. -/
structure Suitable (mode : ℕ) (requested : ProtocolTime) (clock : ClockSnapshot)
    (c : TimingCapabilities) (b : Boundary) : Prop where
  valid : b.time.valid
  uncommitted : b.committed = false
  ready : b.backendReady
  generation : b.mappingGeneration = clock.mappingGeneration
  lead : clock.time.ps + 1000 * leadNs mode c ≤ b.time.ps
  timed : mode ≠ 0 → b.time.ps ≤ clock.time.ps + 1000 * c.horizonNs ∧ InWindow mode requested clock c b

/-- What is compared: the distance from the requested time, and the time itself. -/
def rank (mode : ℕ) (requested : ProtocolTime) (b : Boundary) : Lex (ℕ × ℕ) :=
  toLex (if mode ≠ 0 then Nat.dist b.time.ps requested.ps else 0, b.time.ps)

/-- A boundary is closer to the requested time, or as close and earlier; without a requested time it is
earlier. -/
def Closer (mode : ℕ) (requested : ProtocolTime) (b b' : Boundary) : Prop :=
  if mode ≠ 0 then
    Nat.dist b.time.ps requested.ps < Nat.dist b'.time.ps requested.ps ∨
      Nat.dist b.time.ps requested.ps = Nat.dist b'.time.ps requested.ps ∧ b.time.ps < b'.time.ps
  else b.time.ps < b'.time.ps

theorem closer_iff {mode : ℕ} {requested : ProtocolTime} {b b' : Boundary} :
    Closer mode requested b b' ↔ rank mode requested b < rank mode requested b' := by
  unfold Closer rank
  rw [Prod.Lex.toLex_lt_toLex]
  by_cases h : mode = 0 <;> simp [h]

/-- The call is not refused. -/
structure Accepts (mode : ℕ) (requested : ProtocolTime) (clock : ClockSnapshot)
    (boundaries : List Boundary) (c : TimingCapabilities) : Prop where
  known : mode ≤ 4
  time : clock.time.valid
  length : boundaries.length ≤ 128
  lead : clock.time.ps + 1000 * leadNs mode c < timeLimit
  timed : mode ≠ 0 → (c.qualified ∨ c.injected) ∧ clock.usable ∧
    clock.time.ps + 1000 * c.horizonNs < timeLimit ∧ requested.valid ∧
    requested.ps ≤ clock.time.ps + 1000 * c.horizonNs ∧
    tolerances mode c = .ok (earliness mode c, lateness mode c) ∧ earliness mode c ≤ requested.ps ∧
    requested.ps + lateness mode c < timeLimit
  /-- The uncertainty of the boundaries that pass the other filters is a 64-bit number. -/
  doubts : mode ≠ 0 → ∀ b ∈ boundaries, b.time.valid → b.committed = false → b.backendReady →
    b.mappingGeneration = clock.mappingGeneration → clock.time.ps + 1000 * leadNs mode c ≤ b.time.ps →
    b.time.ps ≤ clock.time.ps + 1000 * c.horizonNs →
    b.quantizationUncertaintyPs ≤ uint64Max - clock.uncertaintyPs

/-- The choice among any number of boundaries: `chooseBoundary` without the limit of 128. -/
def chooseAmong (mode : ℕ) (requested : ProtocolTime) (clock : ClockSnapshot)
    (boundaries : List Boundary) (c : TimingCapabilities) : Result Boundary := do
  rejectIf (mode > 4 ∨ ¬clock.time.valid) (failure .invalidArgument)
  rejectIf (mode ≠ 0 ∧ (¬c.qualified ∧ ¬c.injected ∨ ¬clock.usable)) (failure .invalidState)
  let ready ← add clock.time (.fromNanoseconds (if mode ≠ 0 then c.preparationLeadNs else 0))
  let horizon ← if mode ≠ 0 then add clock.time (.fromNanoseconds c.horizonNs) else pure clock.time
  rejectIf (mode ≠ 0 ∧ (¬requested.valid ∨ horizon.before requested)) (failure .invalidArgument)
  let usable := boundaries.filter (candidate mode clock ready horizon)
  let selection ←
    if mode ≠ 0 then do
      let window ← executionWindow mode requested c
      usable.foldlM (considerTimed clock requested window) {}
    else pure (usable.foldl considerUntimed {})
  match selection.selected with
  | none => throw (failure .invalidState)
  | some b => return b

/-- The command itself is not refused, whatever the boundaries are. -/
structure Admits (mode : ℕ) (requested : ProtocolTime) (clock : ClockSnapshot)
    (c : TimingCapabilities) : Prop where
  known : mode ≤ 4
  time : clock.time.valid
  lead : clock.time.ps + 1000 * leadNs mode c < timeLimit
  timed : mode ≠ 0 → (c.qualified ∨ c.injected) ∧ clock.usable ∧
    clock.time.ps + 1000 * c.horizonNs < timeLimit ∧ requested.valid ∧
    requested.ps ≤ clock.time.ps + 1000 * c.horizonNs ∧
    tolerances mode c = .ok (earliness mode c, lateness mode c) ∧ earliness mode c ≤ requested.ps ∧
    requested.ps + lateness mode c < timeLimit

/-- The uncertainty of a boundary that passes the other filters is no 64-bit number. -/
def Doubtful (mode : ℕ) (clock : ClockSnapshot) (c : TimingCapabilities) (b : Boundary) : Prop :=
  mode ≠ 0 ∧ b.time.valid ∧ b.committed = false ∧ b.backendReady ∧
    b.mappingGeneration = clock.mappingGeneration ∧ clock.time.ps + 1000 * leadNs mode c ≤ b.time.ps ∧
    b.time.ps ≤ clock.time.ps + 1000 * c.horizonNs ∧
    uint64Max - clock.uncertaintyPs < b.quantizationUncertaintyPs

/-! ## The loop -/

variable {mode : ℕ} {requested : ProtocolTime} {clock : ClockSnapshot} {c : TimingCapabilities}

/-- What is refused before a boundary is looked for. -/
theorem accepts_iff {boundaries : List Boundary} : Accepts mode requested clock boundaries c ↔
    Admits mode requested clock c ∧ boundaries.length ≤ 128 ∧
      ∀ b ∈ boundaries, ¬Doubtful mode clock c b := by
  constructor
  · intro h
    refine ⟨⟨h.known, h.time, h.lead, h.timed⟩, h.length, ?_⟩
    rintro b hb ⟨hmode, hv, hcommitted, hbackend, hg, hl, hh, hlt⟩
    exact absurd (h.doubts hmode b hb hv hcommitted hbackend hg hl hh) (not_le.mpr hlt)
  · rintro ⟨h, hlength, hdoubts⟩
    refine ⟨h.known, h.time, hlength, h.lead, h.timed, ?_⟩
    intro hmode b hb hv hcommitted hbackend hg hl hh
    by_contra hlt
    exact hdoubts b hb ⟨hmode, hv, hcommitted, hbackend, hg, hl, hh, not_le.mp hlt⟩

theorem chooseBoundary_eq_chooseAmong {boundaries : List Boundary} (h : boundaries.length ≤ 128) :
    chooseBoundary mode requested clock boundaries c = chooseAmong mode requested clock boundaries c := by
  unfold chooseBoundary chooseAmong
  rw [rejectIf_of_not (not_lt.mpr h)]
  rfl

/-- The tolerances are those of the mode. -/
theorem tolerances_ok {p : ℕ × ℕ} (h : tolerances mode c = .ok p) :
    p = (earliness mode c, lateness mode c) := by
  unfold tolerances at h
  unfold earliness lateness
  split at h
  · next h2 =>
    simp only [bind_eq_ok, rejectIf_eq_ok, exists_const, pure_eq_ok, Except.ok.injEq] at h
    simp [← h.2, h2]
  · next h2 =>
    split at h
    · next h3 =>
      simp only [bind_eq_ok, rejectIf_eq_ok, exists_const, pure_eq_ok, Except.ok.injEq] at h
      simp [← h.2, h3]
    · next h3 =>
      split at h
      · next h4 =>
        cases h
        simp [h4]
      · next h4 =>
        cases h
        simp [h2, h3, h4]

/-- The execution window in picoseconds. -/
theorem executionWindow_eq_ok {w : ExecutionWindow} (hmode : mode ≠ 0) (hle : mode ≤ 4)
    (hvalid : requested.valid) :
    executionWindow mode requested c = .ok w ↔
      tolerances mode c = .ok (earliness mode c, lateness mode c) ∧
      requested.ps + lateness mode c < timeLimit ∧
      w.earliest.valid ∧ w.earliest.ps + earliness mode c = requested.ps ∧
      w.latest.valid ∧ w.latest.ps = requested.ps + lateness mode c := by
  have hr : ¬(mode < 1 ∨ mode > 4 ∨ ¬(requested.valid = true)) := by
    simp only [hvalid, not_true, or_false]
    omega
  have hsub : ∀ first n, subtract requested (.fromPicoseconds n) = .ok first ↔
      first.valid ∧ first.ps + n = requested.ps := by
    intro first n
    rw [subtract_eq_ok hvalid (Duration.fromPicoseconds_valid _), Duration.fromPicoseconds_ps]
  have hadd : ∀ last n, add requested (.fromPicoseconds n) = .ok last ↔
      requested.ps + n < timeLimit ∧ last.valid ∧ last.ps = requested.ps + n := by
    intro last n
    rw [add_eq_ok hvalid (Duration.fromPicoseconds_valid _), Duration.fromPicoseconds_ps]
  simp only [executionWindow, bind_eq_ok, rejectIf_eq_ok, hr, not_false_eq_true, exists_const, true_and,
    pure_eq_ok, Except.ok.injEq, hsub, hadd]
  constructor
  · rintro ⟨p, hp, first, ⟨hf, hfps⟩, last, ⟨hlt, hl, hlps⟩, rfl⟩
    obtain rfl := tolerances_ok hp
    exact ⟨hp, hlt, hf, hfps, hl, hlps⟩
  · rintro ⟨hp, hlt, hf, hfps, hl, hlps⟩
    exact ⟨_, hp, _, ⟨hf, hfps⟩, _, ⟨hlt, hl, hlps⟩, rfl⟩

/-- The distance that the loop keeps beside the selected boundary. -/
def gap (requested : ProtocolTime) (b : Boundary) : Duration :=
  .fromPicoseconds (Nat.dist b.time.ps requested.ps)

/-- A state of the loop. -/
def selection (requested : ProtocolTime) (best : Option Boundary) : Selection where
  selected := best
  distance := (best.map (gap requested)).getD {}

/-- The comparison of two boundaries. -/
abbrev better (mode : ℕ) (requested : ProtocolTime) (b b' : Boundary) : Prop :=
  rank mode requested b < rank mode requested b'

/-- The distance to a boundary is computed from the earlier of both times. -/
theorem distance_eq {b : Boundary} {α : Type} (hb : b.time.valid) (hr : requested.valid)
    (next : Duration → Result α) :
    (if b.time.before requested then difference requested b.time >>= next
      else difference b.time requested >>= next) = next (gap requested b) := by
  unfold gap Nat.dist
  split
  · next hbefore =>
    rw [ProtocolTime.before_iff_ps hb hr] at hbefore
    rw [difference_eq hr hb hbefore.le, ok_bind]
    congr 2
    omega
  · next hbefore =>
    rw [ProtocolTime.before_iff_ps hb hr, not_lt] at hbefore
    rw [difference_eq hb hr hbefore, ok_bind]
    congr 2
    omega

/-- One step of the loop for a timed command. -/
theorem considerTimed_eq {w : ExecutionWindow} {b : Boundary} {best : Option Boundary}
    (hmode : mode ≠ 0) (hle : mode ≤ 4) (hr : requested.valid)
    (hw : executionWindow mode requested c = .ok w) (hb : b.time.valid)
    (hbest : ∀ x ∈ best, x.time.valid)
    (hdoubt : b.quantizationUncertaintyPs ≤ uint64Max - clock.uncertaintyPs) :
    considerTimed clock requested w (selection requested best) b =
      .ok (selection requested (if InWindow mode requested clock c b
        then List.argAux (better mode requested) best b else best)) := by
  obtain ⟨-, hlt, hfirst, hfirstps, hlast, hlastps⟩ := (executionWindow_eq_ok hmode hle hr).mp hw
  have hvalid : (Duration.fromPicoseconds (doubt clock b)).valid := Duration.fromPicoseconds_valid _
  have hps : (Duration.fromPicoseconds (doubt clock b)).ps = doubt clock b :=
    Duration.fromPicoseconds_ps _
  unfold considerTimed
  rw [rejectIf_of_not (by omega), ok_bind]
  dsimp only
  split
  · next first last hsub hadd =>
    obtain ⟨hf, hfps⟩ := (subtract_eq_ok hb hvalid).mp hsub
    obtain ⟨-, hl, hlps⟩ := (add_eq_ok hb hvalid).mp hadd
    rw [hps] at hfps hlps
    have hwindow : (first.before w.earliest ∨ w.latest.before last) ↔
        ¬InWindow mode requested clock c b := by
      rw [ProtocolTime.before_iff_ps hf hfirst, ProtocolTime.before_iff_ps hlast hl]
      unfold InWindow
      omega
    by_cases hin : InWindow mode requested clock c b
    · rw [if_neg (by rw [hwindow]; exact not_not.mpr hin), if_pos hin]
      refine (distance_eq hb hr _).trans ?_
      cases best with
      | none => rfl
      | some x =>
        have hx := hbest x rfl
        have hcloser : ((gap requested b).before (gap requested x) ∨
            gap requested b = gap requested x ∧ b.time.before x.time) ↔ better mode requested b x := by
          have hgap : ∀ y, (gap requested y).valid ∧
              (gap requested y).ps = Nat.dist y.time.ps requested.ps :=
            fun y => ⟨Duration.fromPicoseconds_valid _, Duration.fromPicoseconds_ps _⟩
          rw [better, ← closer_iff, Closer, if_pos hmode,
            Duration.before_iff_ps (hgap b).1 (hgap x).1, (hgap b).2, (hgap x).2,
            ProtocolTime.before_iff_ps hb hx]
          refine or_congr_right (and_congr_left fun _ => ⟨fun h => ?_, fun h => ?_⟩)
          · rw [← (hgap b).2, ← (hgap x).2, h]
          · exact Duration.eq_of_ps (hgap b).1 (hgap x).1 (by rw [(hgap b).2, (hgap x).2, h])
        show (if (gap requested b).before (gap requested x) ∨
            gap requested b = gap requested x ∧ b.time.before x.time then _ else _) = _
        by_cases hbetter : better mode requested b x
        · rw [if_pos (hcloser.mpr hbetter)]
          simp only [List.argAux, if_pos hbetter]
          rfl
        · rw [if_neg (fun h => hbetter (hcloser.mp h))]
          simp only [List.argAux, if_neg hbetter]
          rfl
    · rw [if_pos (hwindow.mpr hin), if_neg hin]
      rfl
  · next hnone =>
    -- the interval leaves the range of times, so it is not in the window
    have hin : ¬InWindow mode requested clock c b := by
      rintro ⟨hearly, hlate⟩
      obtain ⟨first, hsub⟩ := subtract_exists hb hvalid (by omega)
      obtain ⟨last, hadd⟩ := add_exists hb hvalid (by omega)
      exact hnone first last hsub hadd
    rw [if_neg hin]
    rfl

/-- The loop for a timed command. -/
theorem foldlM_considerTimed {w : ExecutionWindow} {l : List Boundary} {best : Option Boundary}
    (hmode : mode ≠ 0) (hle : mode ≤ 4) (hr : requested.valid)
    (hw : executionWindow mode requested c = .ok w)
    (hl : ∀ b ∈ l, b.time.valid ∧ b.quantizationUncertaintyPs ≤ uint64Max - clock.uncertaintyPs)
    (hbest : ∀ x ∈ best, x.time.valid) :
    l.foldlM (considerTimed clock requested w) (selection requested best) =
      .ok (selection requested ((l.filter fun b => InWindow mode requested clock c b).foldl
        (List.argAux (better mode requested)) best)) := by
  induction l generalizing best with
  | nil => rfl
  | cons b l ih =>
    obtain ⟨hb, hdoubt⟩ := hl b List.mem_cons_self
    have hrest := fun x hx => hl x (List.mem_cons_of_mem b hx)
    rw [List.foldlM_cons, considerTimed_eq hmode hle hr hw hb hbest hdoubt, ok_bind]
    by_cases hin : InWindow mode requested clock c b
    · rw [if_pos hin, List.filter_cons_of_pos (by simpa using hin), List.foldl_cons]
      refine ih hrest fun x hx => ?_
      cases best with
      | none =>
        cases hx
        exact hb
      | some y =>
        simp only [List.argAux] at hx
        split at hx
        · cases hx
          exact hb
        · cases hx
          exact hbest _ rfl
    · rw [if_neg hin, List.filter_cons_of_neg (by simpa using hin)]
      exact ih hrest hbest

/-- The loop for a command without a time. -/
theorem foldl_considerUntimed (requested : ProtocolTime) {l : List Boundary} {s : Selection} (hl : ∀ b ∈ l, b.time.valid)
    (hs : ∀ x ∈ s.selected, x.time.valid) :
    (l.foldl considerUntimed s).selected =
      l.foldl (List.argAux (better 0 requested)) s.selected := by
  induction l generalizing s with
  | nil => rfl
  | cons b l ih =>
    have hb := hl b List.mem_cons_self
    have hstep : (considerUntimed s b).selected = List.argAux (better 0 requested) s.selected b := by
      unfold considerUntimed
      cases hsel : s.selected with
      | none => rfl
      | some x =>
        have hcloser : b.time.before x.time ↔ better 0 requested b x := by
          rw [better, ← closer_iff, Closer, if_neg (not_not.mpr rfl)]
          exact ProtocolTime.before_iff_ps hb (hs x hsel)
        by_cases hbetter : better 0 requested b x
        · simp only [List.argAux, if_pos hbetter, if_pos (hcloser.mpr hbetter)]
        · simp only [List.argAux, if_neg hbetter, if_neg (fun h => hbetter (hcloser.mp h)), hsel]
    rw [List.foldl_cons, List.foldl_cons, ← hstep]
    refine ih (fun x hx => hl x (List.mem_cons_of_mem b hx)) fun x hx => ?_
    rw [hstep] at hx
    cases hsel : s.selected with
    | none =>
      rw [hsel] at hx
      cases hx
      exact hb
    | some y =>
      rw [hsel] at hx
      simp only [List.argAux] at hx
      split at hx
      · cases hx
        exact hb
      · cases hx
        exact hs _ hsel

/-! ## The result -/

/-- The filters before the loop, in picoseconds. -/
theorem candidate_iff {ready horizon : ProtocolTime} (hready : ready.valid) (hhorizon : horizon.valid)
    {b : Boundary} : candidate mode clock ready horizon b ↔
      b.time.valid ∧ b.committed = false ∧ b.backendReady ∧
        b.mappingGeneration = clock.mappingGeneration ∧ ready.ps ≤ b.time.ps ∧
        (mode ≠ 0 → b.time.ps ≤ horizon.ps) := by
  unfold candidate
  by_cases hb : b.time.valid
  · simp only [hb, ProtocolTime.before_iff_ps hb hready, ProtocolTime.before_iff_ps hhorizon hb,
      Bool.not_eq_true, not_lt, true_and, decide_eq_true_eq, ← or_iff_not_imp_left]
  · simp [hb]

/-- What the loop leaves is least among the suitable boundaries. -/
theorem chooseAmong_least {boundaries : List Boundary} (h : Admits mode requested clock c)
    (hdoubts : ∀ b ∈ boundaries, ¬Doubtful mode clock c b) :
    ∃ good : List Boundary, (∀ b, b ∈ good ↔ b ∈ boundaries ∧ Suitable mode requested clock c b) ∧
      chooseAmong mode requested clock boundaries c =
        match good.argmin (rank mode requested) with
        | none => .error (failure .invalidState)
        | some b => .ok b := by
  obtain ⟨ready, hready⟩ := add_exists h.time (Duration.fromNanoseconds_valid (leadNs mode c))
    (by rw [Duration.fromNanoseconds_ps]; exact h.lead)
  obtain ⟨-, hvready, hreadyps⟩ := (add_eq_ok h.time (Duration.fromNanoseconds_valid _)).mp hready
  rw [Duration.fromNanoseconds_ps] at hreadyps
  change add clock.time (.fromNanoseconds (if mode ≠ 0 then c.preparationLeadNs else 0)) = _ at hready
  unfold chooseAmong
  rw [rejectIf_of_not (by simp only [h.time, not_true, or_false]; have := h.known; omega), ok_bind]
  by_cases hmode : mode = 0
  · subst hmode
    simp only [ne_eq, not_true_eq_false, false_and, if_false] at hready ⊢
    rw [rejectIf_of_not not_false, ok_bind, hready, ok_bind, pure_eq_ok, ok_bind,
      rejectIf_of_not not_false, ok_bind, pure_eq_ok, ok_bind]
    have hcandidate : ∀ b, candidate 0 clock ready clock.time b ↔ _ :=
      fun b => candidate_iff hvready h.time
    refine ⟨boundaries.filter (candidate 0 clock ready clock.time), fun b => ?_, ?_⟩
    · rw [List.mem_filter, hcandidate, hreadyps]
      refine and_congr_right fun _ => ⟨?_, fun hs => ⟨hs.valid, hs.uncommitted, hs.ready, hs.generation,
        hs.lead, fun hne => absurd rfl hne⟩⟩
      rintro ⟨hv, hc, hb, hg, hl, -⟩
      exact ⟨hv, hc, hb, hg, hl, fun hne => absurd rfl hne⟩
    · rw [foldl_considerUntimed requested]
      · rfl
      · intro b hb
        exact ((hcandidate b).mp (List.mem_filter.mp hb).2).1
      · simp
  · obtain ⟨hqualified, husable, hlimit, hr, hrequested, htolerances, hearly, hlate⟩ := h.timed hmode
    obtain ⟨horizon, hhorizon⟩ := add_exists h.time (Duration.fromNanoseconds_valid c.horizonNs)
      (by rw [Duration.fromNanoseconds_ps]; exact hlimit)
    obtain ⟨-, hvhorizon, hhorizonps⟩ := (add_eq_ok h.time (Duration.fromNanoseconds_valid _)).mp hhorizon
    rw [Duration.fromNanoseconds_ps] at hhorizonps
    have hwindow : ∃ w, executionWindow mode requested c = .ok w := by
      obtain ⟨first, hfirst⟩ := subtract_exists hr (Duration.fromPicoseconds_valid (earliness mode c))
        (by rw [Duration.fromPicoseconds_ps]; exact hearly)
      obtain ⟨last, hlast⟩ := add_exists hr (Duration.fromPicoseconds_valid (lateness mode c))
        (by rw [Duration.fromPicoseconds_ps]; exact hlate)
      obtain ⟨hv, hps⟩ := (subtract_eq_ok hr (Duration.fromPicoseconds_valid _)).mp hfirst
      obtain ⟨-, hv', hps'⟩ := (add_eq_ok hr (Duration.fromPicoseconds_valid _)).mp hlast
      rw [Duration.fromPicoseconds_ps] at hps hps'
      exact ⟨⟨first, last⟩, (executionWindow_eq_ok hmode h.known hr).mpr
        ⟨htolerances, hlate, hv, hps, hv', hps'⟩⟩
    obtain ⟨w, hw⟩ := hwindow
    have hallowed : ¬(mode ≠ 0 ∧ (¬(c.qualified = true) ∧ ¬(c.injected = true) ∨
        ¬(clock.usable = true))) := by
      rintro ⟨-, ⟨hq, hi⟩ | hu⟩
      · exact hqualified.elim hq hi
      · exact hu husable
    rw [rejectIf_of_not hallowed, ok_bind, hready, ok_bind]
    simp only [if_pos hmode]
    rw [hhorizon, ok_bind, rejectIf_of_not ?_, ok_bind]
    · have hcandidate : ∀ b, candidate mode clock ready horizon b ↔ _ :=
        fun b => candidate_iff hvready hvhorizon
      have husable : ∀ b ∈ boundaries.filter (candidate mode clock ready horizon),
          b.time.valid ∧ b.quantizationUncertaintyPs ≤ uint64Max - clock.uncertaintyPs := by
        intro b hb
        obtain ⟨hmem, hb⟩ := List.mem_filter.mp hb
        obtain ⟨hv, hcommitted, hbackend, hg, hl, hh⟩ := (hcandidate b).mp hb
        refine ⟨hv, not_lt.mp fun hlt => hdoubts b hmem ⟨hmode, hv, hcommitted, hbackend, hg, ?_, ?_, hlt⟩⟩
        · rw [← hreadyps]
          exact hl
        · rw [← hhorizonps]
          exact hh hmode
      refine ⟨(boundaries.filter (candidate mode clock ready horizon)).filter
        fun b => InWindow mode requested clock c b, fun b => ?_, ?_⟩
      · rw [List.mem_filter, List.mem_filter, hcandidate, hreadyps, hhorizonps, decide_eq_true_eq,
          and_assoc]
        refine and_congr_right fun _ => ⟨?_, fun hs => ⟨⟨hs.valid, hs.uncommitted, hs.ready,
          hs.generation, hs.lead, fun _ => (hs.timed hmode).1⟩, (hs.timed hmode).2⟩⟩
        rintro ⟨⟨hv, hc, hb, hg, hl, hh⟩, hin⟩
        exact ⟨hv, hc, hb, hg, hl, fun _ => ⟨hh hmode, hin⟩⟩
      · rw [hw, ok_bind]
        have hfold : List.foldlM (considerTimed clock requested w) {} _ = _ :=
          foldlM_considerTimed hmode h.known hr hw husable (by simp)
        rw [hfold, ok_bind]
        rfl
    · simp only [hr, not_true, false_or, not_and]
      intro _
      rw [ProtocolTime.before_iff_ps hvhorizon hr]
      omega

/-- A step of the loop that does not fail has an uncertainty of 64 bits. -/
theorem doubt_of_foldlM {w : ExecutionWindow} {l : List Boundary} {s s' : Selection}
    (h : l.foldlM (considerTimed clock requested w) s = .ok s') :
    ∀ b ∈ l, b.quantizationUncertaintyPs ≤ uint64Max - clock.uncertaintyPs := by
  induction l generalizing s with
  | nil => nofun
  | cons b l ih =>
    rw [List.foldlM_cons, bind_eq_ok] at h
    obtain ⟨s₁, hb, hrest⟩ := h
    intro x hx
    rcases List.mem_cons.mp hx with rfl | hx
    · rw [considerTimed, bind_eq_ok] at hb
      obtain ⟨_, hfits, -⟩ := hb
      rw [rejectIf_eq_ok, not_lt] at hfits
      exact hfits
    · exact ih hrest x hx

/-- A choice that succeeds was not refused. -/
theorem admits_of_ok {boundaries : List Boundary} {b : Boundary}
    (h : chooseAmong mode requested clock boundaries c = .ok b) :
    Admits mode requested clock c ∧ ∀ b ∈ boundaries, ¬Doubtful mode clock c b := by
  unfold chooseAmong at h
  simp only [bind_eq_ok, rejectIf_eq_ok, exists_const] at h
  obtain ⟨hargument, hallowed, ready, hready, h⟩ := h
  simp only [not_or, not_not, not_lt] at hargument
  obtain ⟨hknown, htime⟩ := hargument
  obtain ⟨hlead, hvready, hreadyps⟩ := (add_eq_ok htime (Duration.fromNanoseconds_valid _)).mp hready
  rw [Duration.fromNanoseconds_ps] at hlead hreadyps
  by_cases hmode : mode = 0
  · exact ⟨⟨hknown, htime, hlead, fun hne => absurd hmode hne⟩, fun _ _ hdoubt => absurd hmode hdoubt.1⟩
  · simp only [ne_eq, hmode, not_false_eq_true, if_true, true_and, not_or, not_and, not_not,
      bind_eq_ok, rejectIf_eq_ok, exists_const] at hallowed h
    obtain ⟨horizon, hhorizon, hrequested, w, hw, s, hfold, -⟩ := h
    obtain ⟨hlimit, hvhorizon, hhorizonps⟩ :=
      (add_eq_ok htime (Duration.fromNanoseconds_valid _)).mp hhorizon
    rw [Duration.fromNanoseconds_ps] at hlimit hhorizonps
    obtain ⟨hr, hbefore⟩ := hrequested
    rw [ProtocolTime.before_iff_ps hvhorizon hr, not_lt] at hbefore
    obtain ⟨htolerances, hlate, -, hearly, -, -⟩ := (executionWindow_eq_ok hmode hknown hr).mp hw
    constructor
    · refine ⟨hknown, htime, hlead, fun _ => ⟨?_, hallowed.2, hlimit, hr, by omega, htolerances,
        by omega, hlate⟩⟩
      by_cases hq : c.qualified
      · exact .inl hq
      · exact .inr (hallowed.1 hq)
    · rintro x hx ⟨-, hv, hcommitted, hbackend, hg, hl, hh, hlt⟩
      refine absurd (doubt_of_foldlM hfold x (List.mem_filter.mpr ⟨hx,
        (candidate_iff hvready hvhorizon).mpr ⟨hv, hcommitted, hbackend, hg, ?_, fun _ => ?_⟩⟩))
        (not_le.mpr hlt)
      · rw [hreadyps]
        exact hl
      · rw [hhorizonps]
        exact hh

/-- A call that chooses a boundary was not refused. -/
theorem accepts_of_ok {boundaries : List Boundary} {b : Boundary}
    (h : chooseBoundary mode requested clock boundaries c = .ok b) :
    Accepts mode requested clock boundaries c := by
  have hlength : boundaries.length ≤ 128 := by
    by_contra hlong
    unfold chooseBoundary at h
    simp only [bind_eq_ok, rejectIf_eq_ok, exists_const] at h
    omega
  rw [chooseBoundary_eq_chooseAmong hlength] at h
  obtain ⟨hadmits, hdoubts⟩ := admits_of_ok h
  exact accepts_iff.mpr ⟨hadmits, hlength, hdoubts⟩

/-- The result of a choice that is not refused. -/
theorem chooseAmong_spec {boundaries : List Boundary} (h : Admits mode requested clock c)
    (hdoubts : ∀ b ∈ boundaries, ¬Doubtful mode clock c b) :
    (∃ b ∈ boundaries, Suitable mode requested clock c b ∧
      (∀ b' ∈ boundaries, Suitable mode requested clock c b' → ¬Closer mode requested b' b) ∧
      chooseAmong mode requested clock boundaries c = .ok b) ∨
    (∀ b ∈ boundaries, ¬Suitable mode requested clock c b) ∧
      chooseAmong mode requested clock boundaries c = .error (failure .invalidState) := by
  obtain ⟨good, hgood, hresult⟩ := chooseAmong_least h hdoubts
  cases hmin : good.argmin (rank mode requested) with
  | none =>
    rw [hmin] at hresult
    refine .inr ⟨fun b hb hs => ?_, hresult⟩
    have := (hgood b).mpr ⟨hb, hs⟩
    rw [List.argmin_eq_none.mp hmin] at this
    cases this
  | some b =>
    rw [hmin] at hresult
    obtain ⟨hb, hs⟩ := (hgood b).mp (List.argmin_mem hmin)
    refine .inl ⟨b, hb, hs, fun b' hb' hs' hcloser => ?_, hresult⟩
    exact List.not_lt_of_mem_argmin ((hgood b').mpr ⟨hb', hs'⟩) hmin (closer_iff.mp hcloser)

/-- The result of a call that is accepted. -/
theorem chooseBoundary_spec {boundaries : List Boundary}
    (h : Accepts mode requested clock boundaries c) :
    (∃ b ∈ boundaries, Suitable mode requested clock c b ∧
      (∀ b' ∈ boundaries, Suitable mode requested clock c b' → ¬Closer mode requested b' b) ∧
      chooseBoundary mode requested clock boundaries c = .ok b) ∨
    (∀ b ∈ boundaries, ¬Suitable mode requested clock c b) ∧
      chooseBoundary mode requested clock boundaries c = .error (failure .invalidState) := by
  obtain ⟨hadmits, hlength, hdoubts⟩ := accepts_iff.mp h
  rw [chooseBoundary_eq_chooseAmong hlength]
  exact chooseAmong_spec hadmits hdoubts

/-- Acceptance does not depend on the order of the boundaries. -/
theorem Accepts.perm {boundaries boundaries' : List Boundary}
    (h : Accepts mode requested clock boundaries c) (hperm : boundaries.Perm boundaries') :
    Accepts mode requested clock boundaries' c where
  known := h.known
  time := h.time
  length := by
    rw [← hperm.length_eq]
    exact h.length
  lead := h.lead
  timed := h.timed
  doubts := fun hmode b hb => h.doubts hmode b (hperm.mem_iff.mpr hb)

/-- Of two boundaries one is closer, or they have the same time. -/
theorem time_eq_of_not_closer {b b' : Boundary} (hb : b.time.valid) (hb' : b'.time.valid)
    (h : ¬Closer mode requested b b') (h' : ¬Closer mode requested b' b) : b.time = b'.time := by
  refine ProtocolTime.eq_of_ps hb hb' ?_
  unfold Closer at h h'
  split at h
  · next hmode =>
    rw [if_pos hmode] at h'
    omega
  · next hmode =>
    rw [if_neg hmode] at h'
    omega

/-- The choice is optimal and does not depend on the order of the boundaries. -/
theorem boundary_choice (mode : ℕ) (requested : ProtocolTime) (clock : ClockSnapshot)
    (boundaries : List Boundary) (c : TimingCapabilities) :
    (∀ b, chooseBoundary mode requested clock boundaries c = .ok b →
      Accepts mode requested clock boundaries c ∧ b ∈ boundaries ∧ Suitable mode requested clock c b ∧
      (∀ b' ∈ boundaries, Suitable mode requested clock c b' → ¬Closer mode requested b' b) ∧
      ∀ boundaries', boundaries.Perm boundaries' →
        ∃ b', chooseBoundary mode requested clock boundaries' c = .ok b' ∧ b'.time = b.time) ∧
    (Accepts mode requested clock boundaries c →
      ((∃ b, chooseBoundary mode requested clock boundaries c = .ok b) ∨
        chooseBoundary mode requested clock boundaries c = .error (failure .invalidState)) ∧
      (chooseBoundary mode requested clock boundaries c = .error (failure .invalidState) ↔
        ∀ b ∈ boundaries, ¬Suitable mode requested clock c b)) := by
  constructor
  · intro b hb
    have haccepts := accepts_of_ok hb
    rcases chooseBoundary_spec haccepts with ⟨x, hmem, hs, hbest, hx⟩ | ⟨-, herror⟩
    · obtain rfl : x = b := Except.ok.inj (hx.symm.trans hb)
      refine ⟨haccepts, hmem, hs, hbest, fun boundaries' hperm => ?_⟩
      rcases chooseBoundary_spec (haccepts.perm hperm) with ⟨y, hmem', hs', hbest', hy⟩ | ⟨hnone, -⟩
      · have hcloser := hbest y (hperm.mem_iff.mpr hmem') hs'
        have hcloser' := hbest' x (hperm.mem_iff.mp hmem) hs
        exact ⟨y, hy, time_eq_of_not_closer hs'.valid hs.valid hcloser hcloser'⟩
      · exact absurd hs (hnone x (hperm.mem_iff.mp hmem))
    · rw [herror] at hb
      cases hb
  · intro haccepts
    rcases chooseBoundary_spec haccepts with ⟨x, hmem, hs, -, hx⟩ | ⟨hnone, herror⟩
    · refine ⟨.inl ⟨x, hx⟩, fun herror => ?_, fun hnone => absurd hs (hnone x hmem)⟩
      rw [hx] at herror
      cases herror
    · exact ⟨.inr herror, fun _ => hnone, fun _ => herror⟩

/-- A boundary in the first millisecond may be chosen for a command without a time, and is then earlier
than the preparation lead allows. -/
theorem boundary_choice_immediate :
    chooseBoundary 0 {} { time := { seconds := 5 } } [{ time := { seconds := 5 } }]
        { preparationLeadNs := 1000000 } = .ok { time := { seconds := 5 } } ∧
      ¬(ProtocolTime.ps { seconds := 5 } + 1000 * 1000000 ≤ ProtocolTime.ps { seconds := 5 }) := by
  exact ⟨rfl, by decide⟩

/-- Two boundaries half a microsecond from the requested time: the earlier one is chosen. -/
theorem boundary_choice_tie : ∃ b, chooseBoundary 1 { seconds := 5 }
      { state := .locked, time := { seconds := 4 } }
      [{ time := { seconds := 5, picoseconds := 500000 } },
        { time := { seconds := 4, picoseconds := 999999500000 } }]
      { deviceEarlyPs := 1000000, deviceLatePs := 1000000, horizonNs := 2000000000
        qualified := true } = .ok b ∧
    b.time = { seconds := 4, picoseconds := 999999500000 } ∧ b.committed = false := by
  have hchosen : chooseBoundary 1 { seconds := 5 } { state := .locked, time := { seconds := 4 } }
      [{ time := { seconds := 5, picoseconds := 500000 } },
        { time := { seconds := 4, picoseconds := 999999500000 } }]
      { deviceEarlyPs := 1000000, deviceLatePs := 1000000, horizonNs := 2000000000
        qualified := true } = .ok { time := { seconds := 4, picoseconds := 999999500000 } } := rfl
  obtain ⟨-, -, hs, -⟩ := (boundary_choice _ _ _ _ _).1 _ hchosen
  exact ⟨_, hchosen, rfl, hs.uncommitted⟩

end Vita.Timing
