import Vita.Runtime.Boundaries

/-!
# The listed boundaries against all of them

The list that `operation_context` builds is compared with all packet boundaries of the stream, under the
same rule of choice. The boundaries next to a requested time are listed, and so are those next to the
present; the boundary to choose may be neither, when the boundaries next to the requested time are too
soon for the preparation lead or outside the window of the timing mode.

Main definitions:
- `Early`, `Late`: what a boundary misses, in terms of lead, horizon and window;
- `Near`: less than a packet away from the present or from a requested time;
- `Covered`: when nothing is lost.

Main results:
- `mem_candidateIntervals`: what is listed is near;
- `covered_of_neighbour`: the usual case;
- `candidates_suffice`: exactly when nothing is lost.
-/

namespace Vita.Runtime

open Checked Timing
open Transaction (Config Engine)

/-! ## Packet boundaries -/

/-- All packet boundaries of a stream. -/
def packetBoundaries (t : SampleTimeline) (mappingGeneration pairs : ℕ) : List Boundary :=
  (List.range (t.roomFor pairs + 1)).filterMap (packetBoundary t mappingGeneration pairs)

variable {t : SampleTimeline} {generation pairs : ℕ}

theorem packetBoundary_eq_some {k : ℕ} {b : Boundary} : packetBoundary t generation pairs k = some b ↔
    ∃ copy, t.advance (k * pairs) = .ok copy ∧ makeBoundary copy generation = b := by
  unfold packetBoundary
  cases t.advance (k * pairs) <;> simp

/-- What a packet boundary is like. -/
structure OnGrid (t : SampleTimeline) (generation pairs k : ℕ) (b : Boundary) : Prop where
  room : t.ordinal + k * pairs ≤ uint64Max
  ordinal : b.sampleOrdinal = t.ordinal + k * pairs
  valid : b.time.valid
  generation : b.mappingGeneration = generation
  uncommitted : b.committed = false
  ready : b.backendReady
  quantized : b.quantizationUncertaintyPs ≤ 1
  low : (b.time.ps : ℚ) ≤ t.exact + (k * pairs : ℕ) * picosecondsPerSecond / t.rate
  high : t.exact + (k * pairs : ℕ) * picosecondsPerSecond / t.rate < b.time.ps + 1

/-- A boundary is at the time of its packet. -/
theorem packetBoundary_onGrid (h : t.Valid) {k : ℕ} {b : Boundary}
    (hb : packetBoundary t generation pairs k = some b) : OnGrid t generation pairs k b := by
  obtain ⟨copy, hcopy, rfl⟩ := packetBoundary_eq_some.mp hb
  obtain ⟨hroom, -, hvalid, hexact, -, hordinal, -⟩ := h.advance_ok hcopy
  have hpos : (0 : ℚ) < copy.current.denominator := by
    exact_mod_cast (Nat.zero_le _).trans_lt hvalid.proper
  have hone : (copy.current.numerator : ℚ) / copy.current.denominator < 1 := by
    rw [div_lt_one hpos]
    exact_mod_cast hvalid.proper
  have hnonneg : (0 : ℚ) ≤ (copy.current.numerator : ℚ) / copy.current.denominator := by positivity
  refine ⟨hroom, hordinal, hvalid.time, rfl, rfl, rfl, ?_, ?_, ?_⟩
  · show (if copy.current.numerator ≠ 0 then 1 else 0) ≤ 1
    split <;> decide
  · rw [← hexact]
    exact le_add_of_nonneg_right hnonneg
  · rw [← hexact]
    exact add_lt_add_of_le_of_lt le_rfl hone

/-- Packets are never shorter than ten nanoseconds, so that their boundaries are far more than one
picosecond apart. -/
theorem packetBoundary_spaced (h : t.Valid) (hpairs : 0 < pairs) {j k : ℕ} {b b' : Boundary}
    (hjk : j < k) (hb : packetBoundary t generation pairs j = some b)
    (hb' : packetBoundary t generation pairs k = some b') : b.time.ps + 2 ≤ b'.time.ps := by
  have hlow := (packetBoundary_onGrid h hb).low
  have hhigh := (packetBoundary_onGrid h hb').high
  have hrate : (0 : ℚ) < t.rate := by exact_mod_cast h.rate_pos
  have hmore : j * pairs + 1 ≤ k * pairs := by
    have hnext := Nat.mul_le_mul_right pairs (Nat.succ_le_of_lt hjk)
    rw [Nat.succ_mul] at hnext
    omega
  have hrate_le : (t.rate : ℚ) ≤ 100000000 := by exact_mod_cast h.rate_le
  have hsample : (3 : ℚ) ≤ picosecondsPerSecond / t.rate := by
    rw [le_div_iff₀ hrate, picosecondsPerSecond]
    push_cast
    linarith
  have hstep : ((j * pairs : ℕ) : ℚ) * picosecondsPerSecond / t.rate + 3 ≤
      (k * pairs : ℕ) * picosecondsPerSecond / t.rate :=
    calc ((j * pairs : ℕ) : ℚ) * picosecondsPerSecond / t.rate + 3
        ≤ (j * pairs : ℕ) * picosecondsPerSecond / t.rate + picosecondsPerSecond / t.rate := by linarith
      _ = ((j * pairs + 1 : ℕ) : ℚ) * picosecondsPerSecond / t.rate := by
        push_cast
        ring
      _ ≤ (k * pairs : ℕ) * picosecondsPerSecond / t.rate := by gcongr
  have hfar : (b.time.ps : ℚ) + 2 < b'.time.ps := by linarith
  exact_mod_cast hfar.le

theorem packetBoundary_inj (h : t.Valid) (hpairs : 0 < pairs) {j k : ℕ} {b b' : Boundary}
    (hb : packetBoundary t generation pairs j = some b)
    (hb' : packetBoundary t generation pairs k = some b') (heq : b.time = b'.time) : j = k := by
  have hps : b.time.ps = b'.time.ps := by rw [heq]
  rcases Nat.lt_trichotomy j k with hlt | rfl | hlt
  · have := packetBoundary_spaced h hpairs hlt hb hb'
    omega
  · rfl
  · have := packetBoundary_spaced h hpairs hlt hb' hb
    omega

/-- The boundaries before one that is reached are reached. -/
theorem packetBoundary_exists (h : t.Valid) {j k : ℕ} {b : Boundary} (hjk : j ≤ k)
    (hb : packetBoundary t generation pairs k = some b) :
    ∃ b', packetBoundary t generation pairs j = some b' := by
  obtain ⟨copy, hcopy, -⟩ := packetBoundary_eq_some.mp hb
  obtain ⟨copy', hcopy', -⟩ := h.advance_mono (Nat.mul_le_mul_right pairs hjk) hcopy
  exact ⟨_, packetBoundary_eq_some.mpr ⟨copy', hcopy', rfl⟩⟩

theorem mem_packetBoundaries (h : t.Valid) (hpairs : 0 < pairs) {b : Boundary} :
    b ∈ packetBoundaries t generation pairs ↔ ∃ k, packetBoundary t generation pairs k = some b := by
  unfold packetBoundaries
  rw [List.mem_filterMap]
  refine ⟨fun ⟨k, _, hk⟩ => ⟨k, hk⟩, fun ⟨k, hk⟩ => ⟨k, ?_, hk⟩⟩
  have hroom := (packetBoundary_onGrid h hk).room
  rw [List.mem_range, Nat.lt_succ_iff, SampleTimeline.le_roomFor hpairs]
  omega

/-! ## What is listed -/

/-- A list holds the boundaries of some numbers of packets, each once. -/
structure Listing (t : SampleTimeline) (generation pairs : ℕ) (boundaries : List Boundary)
    (intervals : List ℕ) : Prop where
  mem : ∀ b, b ∈ boundaries ↔ ∃ k ∈ intervals, packetBoundary t generation pairs k = some b
  nodup : boundaries.Nodup
  length : boundaries.length ≤ intervals.length

variable {capacity : ℕ} {boundaries : List Boundary} {intervals : List ℕ}

/-- One more boundary is listed, if it can be represented and is not listed yet. -/
theorem Listing.append (h : Listing t generation pairs boundaries intervals) (ht : t.Valid)
    (hpairs : 0 < pairs) (hroom : intervals.length < capacity) (k : ℕ) :
    Listing t generation pairs (appendBoundary t generation pairs capacity boundaries k)
      (intervals ++ [k]) := by
  have hlength := h.length
  have hlonger : (intervals ++ [k]).length = intervals.length + 1 := List.length_append
  -- a boundary that is not appended adds nothing
  have hsame (hknown : ∀ b, packetBoundary t generation pairs k = some b → b ∈ boundaries) :
      Listing t generation pairs boundaries (intervals ++ [k]) := by
    refine ⟨fun b => ?_, h.nodup, by omega⟩
    constructor
    · intro hb
      obtain ⟨j, hj, heq⟩ := (h.mem b).mp hb
      exact ⟨j, List.mem_append_left _ hj, heq⟩
    · rintro ⟨j, hj, heq⟩
      rcases List.mem_append.mp hj with hj | hj
      · exact (h.mem b).mpr ⟨j, hj, heq⟩
      · obtain rfl := List.mem_singleton.mp hj
        exact hknown b heq
  unfold appendBoundary
  split
  next hfull =>
    refine hsame fun b hb => ?_
    have hgrid := (packetBoundary_onGrid ht hb).room
    have hle : k ≤ uint64Max / pairs := (Nat.le_div_iff_mul_le hpairs).mpr (by omega)
    omega
  next =>
    split
    next hnone =>
      refine hsame fun b hb => ?_
      rw [hnone] at hb
      cases hb
    next b hb =>
      have hgrid := packetBoundary_onGrid ht hb
      split
      next hany =>
        refine hsame fun x hx => ?_
        obtain rfl : b = x := Option.some.inj (hb.symm.trans hx)
        obtain ⟨other, hother, heq⟩ := List.any_eq_true.mp hany
        rw [decide_eq_true_eq] at heq
        obtain ⟨j, -, hj⟩ := (h.mem other).mp hother
        have hordinal := (packetBoundary_onGrid ht hj).ordinal
        have hproduct : j * pairs = k * pairs := by
          have := hgrid.ordinal
          omega
        obtain rfl : j = k := Nat.eq_of_mul_eq_mul_right hpairs hproduct
        obtain rfl : other = b := Option.some.inj (hj.symm.trans hb)
        exact hother
      next hany =>
        have hfresh : b ∉ boundaries := fun hmem =>
          hany (List.any_eq_true.mpr ⟨b, hmem, decide_eq_true rfl⟩)
        refine ⟨fun x => ?_, ?_, ?_⟩
        · rw [List.mem_append, List.mem_singleton, h.mem]
          constructor
          · rintro (⟨j, hj, heq⟩ | rfl)
            · exact ⟨j, List.mem_append_left _ hj, heq⟩
            · exact ⟨k, List.mem_append_right _ (List.mem_singleton_self k), hb⟩
          · rintro ⟨j, hj, heq⟩
            rcases List.mem_append.mp hj with hj | hj
            · exact .inl ⟨j, hj, heq⟩
            · obtain rfl := List.mem_singleton.mp hj
              exact .inr (Option.some.inj (heq.symm.trans hb))
        · exact List.nodup_append.mpr ⟨h.nodup, List.nodup_singleton b, fun x hx y hy hxy =>
            hfresh (by rwa [hxy, List.mem_singleton.mp hy] at hx)⟩
        · rw [List.length_append, List.length_singleton]
          omega

/-- Further boundaries are listed, as far as there is room. -/
theorem Listing.run (h : Listing t generation pairs boundaries intervals) (ht : t.Valid)
    (hpairs : 0 < pairs) (more : List ℕ) (hroom : intervals.length + more.length ≤ capacity) :
    Listing t generation pairs
      (more.foldl (appendBoundary t generation pairs capacity) boundaries) (intervals ++ more) := by
  induction more generalizing boundaries intervals with
  | nil => simpa using h
  | cons k more ih =>
    rw [List.length_cons] at hroom
    have happended := h.append ht hpairs (show intervals.length < capacity by omega) k
    have hstep := ih happended (by rw [List.length_append, List.length_singleton]; omega)
    rwa [List.append_assoc, List.singleton_append] at hstep

theorem length_intervalsAround (target : ProtocolTime) : (intervalsAround t pairs target).length ≤ 2 := by
  unfold intervalsAround
  split <;> simp

/-- The list of the candidates is bounded by the requested times. -/
theorem length_candidateIntervals (now : ProtocolTime) (requested : List ProtocolTime) :
    (candidateIntervals t now pairs requested).length ≤ 2 * requested.length + 3 := by
  have hflat : (requested.flatMap (intervalsAround t pairs)).length ≤ 2 * requested.length := by
    induction requested with
    | nil => simp
    | cons r requested ih =>
      rw [List.flatMap_cons, List.length_append, List.length_cons]
      have : (intervalsAround t pairs r).length ≤ 2 := length_intervalsAround r
      omega
  have : (intervalsAround t pairs now).length ≤ 2 := length_intervalsAround now
  unfold candidateIntervals
  rw [List.length_append, List.length_cons]
  omega

/-- The array has room for everything that is to be listed. -/
theorem candidateBoundaries_listing {transactions : ℕ} {clock : ClockSnapshot}
    {requested : List ProtocolTime} (ht : t.Valid) (hpairs : 0 < pairs)
    (hfew : requested.length ≤ transactions) :
    Listing t clock.mappingGeneration pairs (candidateBoundaries transactions t clock pairs requested)
      (candidateIntervals t clock.time pairs requested) := by
  have hempty : Listing t clock.mappingGeneration pairs [] [] := ⟨by simp, List.nodup_nil, le_rfl⟩
  have hlength : (candidateIntervals t clock.time pairs requested).length ≤ 2 * requested.length + 3 :=
    length_candidateIntervals clock.time requested
  exact hempty.run ht hpairs _ (by rw [List.length_nil]; omega)

theorem Listing.perm {boundaries' : List Boundary} (h : Listing t generation pairs boundaries intervals)
    (h' : Listing t generation pairs boundaries' intervals) : boundaries.Perm boundaries' :=
  (List.perm_ext_iff_of_nodup h.nodup h'.nodup).mpr fun b => (h.mem b).trans (h'.mem b).symm

/-- The boundaries that are meant to be listed. -/
def meantBoundaries (t : SampleTimeline) (generation pairs : ℕ) (intervals : List ℕ) : List Boundary :=
  intervals.dedup.filterMap (packetBoundary t generation pairs)

theorem meantBoundaries_listing (ht : t.Valid) (hpairs : 0 < pairs) (intervals : List ℕ) :
    Listing t generation pairs (meantBoundaries t generation pairs intervals) intervals where
  mem b := by
    unfold meantBoundaries
    rw [List.mem_filterMap]
    simp only [List.mem_dedup]
  nodup := by
    refine (List.nodup_dedup intervals).filterMap fun j k b hj hk => ?_
    exact packetBoundary_inj ht hpairs hj hk rfl
  length := (List.length_filterMap_le _ _).trans (List.dedup_sublist intervals).length_le

/-! ## The choice -/

/-- The choice among the listed boundaries has the result of the choice among others: the same time, or
no boundary at all. -/
def SameChoice (mode : ℕ) (requested : ProtocolTime) (clock : ClockSnapshot) (c : TimingCapabilities)
    (listed others : List Boundary) : Prop :=
  (chooseBoundary mode requested clock listed c).toOption.map (·.time) =
    (chooseAmong mode requested clock others c).toOption.map (·.time)

/-- What a list of numbers of packets has to hold. -/
structure Sufficient (mode : ℕ) (requested : ProtocolTime) (clock : ClockSnapshot) (c : TimingCapabilities)
    (t : SampleTimeline) (pairs : ℕ) (intervals : List ℕ) : Prop where
  /-- The suitable boundary that is closest to the requested time, and not too many others. -/
  closest : (∀ k b, packetBoundary t clock.mappingGeneration pairs k = some b →
      ¬Doubtful mode clock c b) →
    ∀ k b, packetBoundary t clock.mappingGeneration pairs k = some b → Suitable mode requested clock c b →
    (∀ j b', packetBoundary t clock.mappingGeneration pairs j = some b' →
      Suitable mode requested clock c b' → ¬Closer mode requested b' b) →
    k ∈ intervals ∧ (meantBoundaries t clock.mappingGeneration pairs intervals).length ≤ 128
  /-- A doubtful boundary, for which the choice fails, unless it fails anyway. -/
  doubtful : (∃ k b, packetBoundary t clock.mappingGeneration pairs k = some b ∧
      Doubtful mode clock c b) →
    (meantBoundaries t clock.mappingGeneration pairs intervals).length ≤ 128 →
    (∃ k ∈ intervals, ∃ b, packetBoundary t clock.mappingGeneration pairs k = some b ∧
      Doubtful mode clock c b) ∨
    ∀ k ∈ intervals, ∀ b, packetBoundary t clock.mappingGeneration pairs k = some b →
      ¬Suitable mode requested clock c b

section Choice

variable {mode : ℕ} {requested : ProtocolTime} {clock : ClockSnapshot} {c : TimingCapabilities}

/-- A boundary is chosen where the request is accepted and one is suitable. -/
theorem chooseBoundary_ok_iff {listed : List Boundary} :
    (∃ b, chooseBoundary mode requested clock listed c = .ok b) ↔
      Accepts mode requested clock listed c ∧ ∃ b ∈ listed, Suitable mode requested clock c b := by
  constructor
  · rintro ⟨b, hb⟩
    have haccepts := accepts_of_ok hb
    rcases chooseBoundary_spec haccepts with ⟨x, hx, hs, -, -⟩ | ⟨-, herror⟩
    · exact ⟨haccepts, x, hx, hs⟩
    · rw [herror] at hb
      cases hb
  · rintro ⟨haccepts, b, hb, hs⟩
    rcases chooseBoundary_spec haccepts with ⟨x, -, -, -, hx⟩ | ⟨hnone, -⟩
    · exact ⟨x, hx⟩
    · exact absurd hs (hnone b hb)

theorem toOption_eq_none {α : Type} {r : Result α} : r.toOption = none ↔ ¬∃ a, r = .ok a := by
  cases r <;> simp [Except.toOption]

/-- Where the choice among the others fails, the choice among the listed has to fail. -/
theorem sameChoice_of_failure {listed others : List Boundary}
    (h : ¬∃ b, chooseAmong mode requested clock others c = .ok b) :
    SameChoice mode requested clock c listed others ↔
      ¬∃ b, chooseBoundary mode requested clock listed c = .ok b := by
  unfold SameChoice
  rw [toOption_eq_none.mpr h, Option.map_none, Option.map_eq_none_iff, toOption_eq_none]

/-- Where it succeeds, the choice among the listed has to succeed with the same time. -/
theorem sameChoice_of_success {listed others : List Boundary} {b : Boundary}
    (h : chooseAmong mode requested clock others c = .ok b) :
    SameChoice mode requested clock c listed others ↔
      ∃ x, chooseBoundary mode requested clock listed c = .ok x ∧ x.time = b.time := by
  unfold SameChoice
  rw [h]
  cases hchosen : chooseBoundary mode requested clock listed c with
  | error e => simp [Except.toOption]
  | ok x => simp [Except.toOption]

variable {intervals : List ℕ} {listed : List Boundary}

/-- A list loses nothing exactly if it is sufficient. -/
theorem sameChoice_iff (ht : t.Valid) (hpairs : 0 < pairs)
    (hlisted : Listing t clock.mappingGeneration pairs listed intervals) :
    SameChoice mode requested clock c listed (packetBoundaries t clock.mappingGeneration pairs) ↔
      (Admits mode requested clock c → Sufficient mode requested clock c t pairs intervals) := by
  have hlength : listed.length = (meantBoundaries t clock.mappingGeneration pairs intervals).length :=
    (hlisted.perm (meantBoundaries_listing ht hpairs intervals)).length_eq
  have hall (b : Boundary) : b ∈ packetBoundaries t clock.mappingGeneration pairs ↔
      ∃ k, packetBoundary t clock.mappingGeneration pairs k = some b :=
    mem_packetBoundaries ht hpairs
  by_cases hadmits : Admits mode requested clock c
  swap
  · -- the command itself is refused
    rw [sameChoice_of_failure fun ⟨b, hb⟩ => hadmits (admits_of_ok hb).1]
    exact ⟨fun _ h => absurd h hadmits,
      fun _ ⟨b, hb⟩ => hadmits (accepts_iff.mp (accepts_of_ok hb)).1⟩
  by_cases hdoubts : ∃ k b, packetBoundary t clock.mappingGeneration pairs k = some b ∧
      Doubtful mode clock c b
  · -- the choice among all boundaries fails
    obtain ⟨k, b, hb, hdoubtful⟩ := hdoubts
    rw [sameChoice_of_failure fun ⟨x, hx⟩ => (admits_of_ok hx).2 b ((hall b).mpr ⟨k, hb⟩) hdoubtful,
      chooseBoundary_ok_iff, accepts_iff, hlength]
    constructor
    · intro hfails _
      refine ⟨fun hnone => absurd hdoubtful (hnone k b hb), fun _ hshort => ?_⟩
      by_contra hneither
      rw [not_or] at hneither
      obtain ⟨hcertain, hsuitable⟩ := hneither
      push Not at hsuitable
      obtain ⟨j, hj, x, hx, hs⟩ := hsuitable
      refine hfails ⟨⟨hadmits, hshort, fun y hy hdoubt => ?_⟩, x, (hlisted.mem x).mpr ⟨j, hj, hx⟩, hs⟩
      obtain ⟨i, hi, hyi⟩ := (hlisted.mem y).mp hy
      exact hcertain ⟨i, hi, y, hyi, hdoubt⟩
    · rintro hcovered ⟨⟨-, hshort, hcertain⟩, x, hx, hs⟩
      rcases (hcovered hadmits).doubtful ⟨k, b, hb, hdoubtful⟩ hshort with ⟨j, hj, y, hy, hdoubt⟩ | hnone
      · exact hcertain y ((hlisted.mem y).mpr ⟨j, hj, hy⟩) hdoubt
      · obtain ⟨j, hj, hxj⟩ := (hlisted.mem x).mp hx
        exact hnone j hj x hxj hs
  · have hcertain : ∀ k b, packetBoundary t clock.mappingGeneration pairs k = some b →
        ¬Doubtful mode clock c b := fun k b hb hdoubt => hdoubts ⟨k, b, hb, hdoubt⟩
    have hcertain' : ∀ b ∈ packetBoundaries t clock.mappingGeneration pairs, ¬Doubtful mode clock c b := by
      intro b hb
      obtain ⟨k, hk⟩ := (hall b).mp hb
      exact hcertain k b hk
    rcases chooseAmong_spec hadmits hcertain' with ⟨b, hb, hs, hbest, hchosen⟩ | ⟨hnone, herror⟩
    · -- the closest boundary has to be listed
      rw [sameChoice_of_success hchosen]
      obtain ⟨k, hk⟩ := (hall b).mp hb
      constructor
      · rintro ⟨x, hx, htime⟩ -
        refine ⟨fun _ j y hy hsuitable hclosest => ?_, fun hdoubt => absurd hdoubt hdoubts⟩
        have hy' : y.time = b.time := by
          refine time_eq_of_not_closer hsuitable.valid hs.valid ?_ (hclosest k b hk hs)
          exact hbest y ((hall y).mpr ⟨j, hy⟩) hsuitable
        rcases chooseBoundary_spec (accepts_of_ok hx) with ⟨x', hmem, -, -, hx'⟩ | ⟨-, herror⟩
        · obtain rfl : x' = x := Except.ok.inj (hx'.symm.trans hx)
          obtain ⟨i, hi, hxi⟩ := (hlisted.mem x').mp hmem
          obtain rfl : i = j := packetBoundary_inj ht hpairs hxi hy (htime.trans hy'.symm)
          exact ⟨hi, hlength ▸ (accepts_of_ok hx).length⟩
        · rw [herror] at hx
          cases hx
      · intro hcovered
        obtain ⟨hmem, hshort⟩ := (hcovered hadmits).closest hcertain k b hk hs
          fun j y hy hsuitable => hbest y ((hall y).mpr ⟨j, hy⟩) hsuitable
        have hb' : b ∈ listed := (hlisted.mem b).mpr ⟨k, hmem, hk⟩
        have hsub : ∀ y ∈ listed, y ∈ packetBoundaries t clock.mappingGeneration pairs := by
          intro y hy
          obtain ⟨j, -, hj⟩ := (hlisted.mem y).mp hy
          exact (hall y).mpr ⟨j, hj⟩
        have haccepts : Accepts mode requested clock listed c :=
          accepts_iff.mpr ⟨hadmits, hlength ▸ hshort, fun y hy => hcertain' y (hsub y hy)⟩
        rcases chooseBoundary_spec haccepts with ⟨x, hx, hsx, hbest', hx'⟩ | ⟨hnone, -⟩
        · exact ⟨x, hx', time_eq_of_not_closer hsx.valid hs.valid (hbest x (hsub x hx) hsx)
            (hbest' b hb' hs)⟩
        · exact absurd hs (hnone b hb')
    · -- no boundary is suitable
      rw [sameChoice_of_failure (by rw [herror]; rintro ⟨b, hb⟩; cases hb)]
      constructor
      · intro _ _
        refine ⟨fun _ k b hb hs => absurd hs (hnone b ((hall b).mpr ⟨k, hb⟩)),
          fun hdoubt => absurd hdoubt hdoubts⟩
      · rintro - ⟨x, hx⟩
        obtain ⟨-, y, hy, hs⟩ := chooseBoundary_ok_iff.mp ⟨x, hx⟩
        obtain ⟨j, -, hj⟩ := (hlisted.mem y).mp hy
        exact hnone y ((hall y).mpr ⟨j, hj⟩) hs

end Choice

section Neighbours

variable {mode : ℕ} {requested : ProtocolTime} {clock : ClockSnapshot} {c : TimingCapabilities}

/-- One of the two boundaries around a time. -/
def Neighbour (t : SampleTimeline) (pairs : ℕ) (target : ProtocolTime) (i : ℕ) : Prop :=
  ∃ k, t.intervalsOn target pairs = some k ∧ (i = k ∨ i = k + 1)

/-- The boundaries around a time, as they are listed. -/
theorem intervalsAround_spec (ht : t.Reachable) (hpairs : 0 < pairs) (target : ProtocolTime) :
    ∃ k, intervalsAround t pairs target = [k, (k + 1) % (uint64Max + 1)] ∧
      (∀ i, Neighbour t pairs target i ↔ i = k ∨ i = k + 1) ∧
      (k = 0 ∨ t.Overdue target pairs k) ∧ ∀ j, t.Overdue target pairs j → j ≤ k := by
  obtain ⟨k, hk, hfound, hlast, -⟩ := ht.intervals_exact hpairs target
  refine ⟨k, ?_, fun i => ?_, hfound, hlast⟩
  · unfold intervalsAround
    rw [hk]
  · unfold Neighbour
    rw [hk]
    simp

/-- A boundary that is not overdue is later. -/
theorem later_of_not_overdue (ht : t.Valid) {k : ℕ} {b : Boundary} {target : ProtocolTime}
    (htarget : target.valid) (hb : packetBoundary t generation pairs k = some b)
    (h : ¬t.Overdue target pairs k) : target.ps < b.time.ps := by
  have hgrid := packetBoundary_onGrid ht hb
  obtain ⟨copy, hcopy, rfl⟩ := packetBoundary_eq_some.mp hb
  by_contra hle
  refine h ⟨?_, copy, hcopy, ?_⟩
  · have := hgrid.room
    omega
  · by_contra hlt
    exact hle ((ProtocolTime.before_iff_ps htarget hgrid.valid).mp
      (ProtocolTime.before_iff.mpr (not_le.mp hlt)))

theorem earlier_of_overdue (ht : t.Valid) {k : ℕ} {b : Boundary} {target : ProtocolTime}
    (htarget : target.valid) (hb : packetBoundary t generation pairs k = some b)
    (h : t.Overdue target pairs k) : b.time.ps ≤ target.ps := by
  have hgrid := packetBoundary_onGrid ht hb
  obtain ⟨copy, hcopy, rfl⟩ := packetBoundary_eq_some.mp hb
  obtain ⟨-, copy', hcopy', hle⟩ := h
  obtain rfl : copy = copy' := Except.ok.inj (hcopy.symm.trans hcopy')
  by_contra hlt
  have hbefore := (ProtocolTime.before_iff_ps htarget hgrid.valid).mpr (not_le.mp hlt)
  exact absurd hle (not_le.mpr (ProtocolTime.before_iff.mp hbefore))

/-- The number after that of a boundary up to which another is reached does not wrap. -/
theorem succ_mod (ht : t.Valid) (hpairs : 0 < pairs) {j k : ℕ} {b : Boundary} (hkj : k < j)
    (hb : packetBoundary t generation pairs j = some b) : (k + 1) % (uint64Max + 1) = k + 1 := by
  have hroom := (packetBoundary_onGrid ht hb).room
  have hle : j * 1 ≤ j * pairs := Nat.mul_le_mul_left j hpairs
  exact Nat.mod_eq_of_lt (by omega)

theorem suitable_untimed {k : ℕ} {b : Boundary} (ht : t.Valid)
    (hb : packetBoundary t clock.mappingGeneration pairs k = some b) (h : clock.time.ps ≤ b.time.ps) :
    Suitable 0 requested clock c b := by
  have hgrid := packetBoundary_onGrid ht hb
  refine ⟨hgrid.valid, hgrid.uncommitted, hgrid.ready, hgrid.generation, ?_,
    fun hmode => absurd rfl hmode⟩
  show clock.time.ps + 1000 * 0 ≤ b.time.ps
  omega

/-- Without a requested time the next boundary is chosen, which is listed. -/
theorem next_listed (ht : t.Reachable) (hpairs : 0 < pairs) (hclock : clock.time.valid) {k : ℕ}
    {b : Boundary} (hb : packetBoundary t clock.mappingGeneration pairs k = some b)
    (hs : Suitable 0 requested clock c b)
    (hclosest : ∀ j b', packetBoundary t clock.mappingGeneration pairs j = some b' →
      Suitable 0 requested clock c b' → ¬Closer 0 requested b' b) (times : List ProtocolTime) :
    k ∈ candidateIntervals t clock.time pairs times := by
  obtain ⟨near, haround, -, hfound, hlast⟩ := intervalsAround_spec ht hpairs clock.time
  have hv := ht.valid
  -- no boundary before this one is late enough
  have hearlier (j : ℕ) (b' : Boundary) (hj : j < k)
      (hb' : packetBoundary t clock.mappingGeneration pairs j = some b') :
      b'.time.ps < clock.time.ps := by
    by_contra hle
    refine hclosest j b' hb' (suitable_untimed hv hb' (not_lt.mp hle)) ?_
    have := packetBoundary_spaced hv hpairs hj hb' hb
    show b'.time.ps < b.time.ps
    omega
  have hlead : clock.time.ps ≤ b.time.ps := by
    have : clock.time.ps + 1000 * 0 ≤ b.time.ps := hs.lead
    omega
  unfold candidateIntervals
  rw [haround]
  by_cases hzero : k = 0
  · simp [hzero]
  · rcases Nat.lt_trichotomy k near with hlt | rfl | hlt
    · -- the boundary is before one that is overdue
      have hdue : t.Overdue clock.time pairs near := hfound.resolve_left (by omega)
      have ⟨_, copy, hcopy, _⟩ := hdue
      have hnear : packetBoundary t clock.mappingGeneration pairs near = some _ :=
        packetBoundary_eq_some.mpr ⟨copy, hcopy, rfl⟩
      have := earlier_of_overdue hv hclock hnear hdue
      have := packetBoundary_spaced hv hpairs hlt hb hnear
      omega
    · simp
    · -- the boundary after the last one overdue is late enough
      have hsucc : k = near + 1 := by
        by_contra hne
        obtain ⟨b', hb'⟩ := packetBoundary_exists hv (show near + 1 ≤ k by omega) hb
        have := hearlier (near + 1) b' (by omega) hb'
        have := later_of_not_overdue hv hclock hb' fun hdue => by
          have := hlast _ hdue
          omega
        omega
      rw [succ_mod hv hpairs hlt hb, ← hsucc]
      simp

end Neighbours

/-! ## Lead, window and packets -/

/-- A packet boundary is less than one packet away from a time: the one before it is not later than the
time, and the one after it is. The first two boundaries also stand for all earlier times. -/
def Beside (t : SampleTimeline) (pairs : ℕ) (x : ProtocolTime) (k : ℕ) : Prop :=
  (k ≤ 1 ∨ t.Overdue x pairs (k - 1)) ∧ ¬t.Overdue x pairs (k + 1)

/-- The boundary is the next one of the stream, or less than one packet away from one of the times. -/
def Near (t : SampleTimeline) (pairs : ℕ) (times : List ProtocolTime) (k : ℕ) : Prop :=
  k = 0 ∨ ∃ x ∈ times, Beside t pairs x k

/-- At most 128 boundaries are that near. -/
def Few (t : SampleTimeline) (generation pairs : ℕ) (times : List ProtocolTime) : Prop :=
  ∀ boundaries : List Boundary, boundaries.Nodup →
    (∀ b ∈ boundaries, ∃ k, Near t pairs times k ∧ packetBoundary t generation pairs k = some b) →
    boundaries.length ≤ 128

/-- The boundary comes before the preparation lead is over, or before the window opens. -/
def Early (mode : ℕ) (requested : ProtocolTime) (clock : ClockSnapshot) (c : TimingCapabilities)
    (b : Boundary) : Prop :=
  b.time.ps < clock.time.ps + 1000 * leadNs mode c ∨
    b.time.ps + earliness mode c < requested.ps + doubt clock b

/-- The boundary comes after the horizon, or after the window has closed. -/
def Late (mode : ℕ) (requested : ProtocolTime) (clock : ClockSnapshot) (c : TimingCapabilities)
    (b : Boundary) : Prop :=
  clock.time.ps + 1000 * c.horizonNs < b.time.ps ∨
    requested.ps + lateness mode c < b.time.ps + doubt clock b

/-- Exactly when nothing is lost. The times are the present and those of the timed commands. -/
structure Covered (mode : ℕ) (requested : ProtocolTime) (clock : ClockSnapshot) (c : TimingCapabilities)
    (t : SampleTimeline) (pairs : ℕ) (times : List ProtocolTime) : Prop where
  /-- The lead is over, or the window opens, only after a boundary that is later than the requested time:
  then the next boundary is near one of the times, or too late as well. -/
  opening : (∀ k b, packetBoundary t clock.mappingGeneration pairs k = some b → ¬Doubtful mode clock c b) →
    mode ≠ 0 → ∀ k a b, packetBoundary t clock.mappingGeneration pairs k = some a →
      packetBoundary t clock.mappingGeneration pairs (k + 1) = some b → requested.ps < a.time.ps →
      Early mode requested clock c a → ¬Early mode requested clock c b → ¬Late mode requested clock c b →
      Near t pairs times (k + 1)
  /-- The window closes before a boundary that is not later than the requested time: then the boundary
  before that is near one of the times, or too early as well. -/
  closing : (∀ k b, packetBoundary t clock.mappingGeneration pairs k = some b → ¬Doubtful mode clock c b) →
    mode ≠ 0 → ∀ k a b, packetBoundary t clock.mappingGeneration pairs k = some a →
      packetBoundary t clock.mappingGeneration pairs (k + 1) = some b → b.time.ps ≤ requested.ps →
      Late mode requested clock c b → ¬Late mode requested clock c a → ¬Early mode requested clock c a →
      Near t pairs times k
  few : (∀ k b, packetBoundary t clock.mappingGeneration pairs k = some b → ¬Doubtful mode clock c b) →
    (∃ k b, packetBoundary t clock.mappingGeneration pairs k = some b ∧
      Suitable mode requested clock c b) → Few t clock.mappingGeneration pairs times
  /-- A boundary whose uncertainty leaves 64 bits makes the choice fail: then one that is near does so
  too, or none that is near is suitable. -/
  doubtful : (∃ k b, packetBoundary t clock.mappingGeneration pairs k = some b ∧
      Doubtful mode clock c b) → Few t clock.mappingGeneration pairs times →
    (∃ k b, Near t pairs times k ∧ packetBoundary t clock.mappingGeneration pairs k = some b ∧
      Doubtful mode clock c b) ∨
    ∀ k b, Near t pairs times k → packetBoundary t clock.mappingGeneration pairs k = some b →
      ¬Suitable mode requested clock c b

section Covering

variable {mode : ℕ} {requested : ProtocolTime} {clock : ClockSnapshot} {c : TimingCapabilities}
variable {times : List ProtocolTime}

theorem overdue_mono (ht : t.Valid) {x : ProtocolTime} {j k : ℕ} (hjk : j ≤ k)
    (h : t.Overdue x pairs k) : t.Overdue x pairs j := by
  obtain ⟨hroom, copy, hcopy, hle⟩ := h
  have hless : j * pairs ≤ k * pairs := Nat.mul_le_mul_right pairs hjk
  obtain ⟨copy', hcopy', htime⟩ := ht.advance_mono hless hcopy
  exact ⟨hless.trans hroom, copy', hcopy', htime.trans hle⟩

/-- The boundaries around a time are those less than one packet away. -/
theorem neighbour_iff_beside (ht : t.Reachable) (hpairs : 0 < pairs) {x : ProtocolTime} {k : ℕ} :
    Neighbour t pairs x k ↔ Beside t pairs x k := by
  obtain ⟨near, -, hneighbour, hfound, hlast⟩ := intervalsAround_spec ht hpairs x
  have hv := ht.valid
  have hnot (j : ℕ) (hj : near < j) : ¬t.Overdue x pairs j := fun h => absurd (hlast j h) (not_le.mpr hj)
  rw [hneighbour]
  constructor
  · rintro (rfl | rfl)
    · refine ⟨?_, hnot _ (Nat.lt_succ_self k)⟩
      exact hfound.imp (fun hzero => by omega) (overdue_mono hv (Nat.sub_le k 1))
    · refine ⟨?_, hnot _ (by omega)⟩
      exact hfound.imp (fun hzero => by omega) fun hdue => hdue
  · rintro ⟨hbefore, hafter⟩
    have hle : near ≤ k := by
      by_contra hlt
      have hdue := hfound.resolve_left (by omega)
      exact hafter (overdue_mono hv (by omega) hdue)
    rcases hbefore with hone | hdue
    · omega
    · have := hlast _ hdue
      omega

/-- What is listed is near. -/
theorem mem_candidateIntervals (ht : t.Reachable) (hpairs : 0 < pairs) {now : ProtocolTime} {k : ℕ}
    {b : Boundary} (hb : packetBoundary t generation pairs k = some b) :
    k ∈ candidateIntervals t now pairs times ↔ Near t pairs (now :: times) k := by
  have hv := ht.valid
  have haround (x : ProtocolTime) : k ∈ intervalsAround t pairs x ∨ k = 0 ↔ Beside t pairs x k ∨ k = 0 := by
    rw [← neighbour_iff_beside ht hpairs]
    obtain ⟨near, hlist, hneighbour, hfound, -⟩ := intervalsAround_spec ht hpairs x
    rw [hlist, hneighbour, List.mem_cons, List.mem_singleton]
    by_cases hzero : k = 0
    · simp [hzero]
    · have hwrap : k = (near + 1) % (uint64Max + 1) ↔ k = near + 1 := by
        constructor
        · intro heq
          by_cases hlast : near + 1 < uint64Max + 1
          · rw [heq, Nat.mod_eq_of_lt hlast]
          · -- the number after the last one wraps to the next boundary of the stream
            have hpositive : 0 < uint64Max := by decide
            have hroom := (hfound.resolve_left (by omega)).1
            have hmul : near * 1 ≤ near * pairs := Nat.mul_le_mul_left near hpairs
            have hend : near = uint64Max := by omega
            rw [heq, hend, Nat.mod_self] at hzero
            exact absurd rfl hzero
        · rintro rfl
          exact (succ_mod hv hpairs (Nat.lt_succ_self near) hb).symm
      rw [hwrap]
  unfold candidateIntervals Near
  rw [List.cons_append, List.mem_cons, List.mem_append, List.mem_flatMap]
  simp only [List.mem_cons, exists_eq_or_imp]
  by_cases hzero : k = 0
  · simp [hzero]
  · have hbeside (x : ProtocolTime) : k ∈ intervalsAround t pairs x ↔ Beside t pairs x k := by
      simpa [hzero] using haround x
    simp only [hbeside]

/-- There are as many boundaries near as are meant to be listed. -/
theorem few_iff (ht : t.Reachable) (hpairs : 0 < pairs) {now : ProtocolTime} :
    Few t generation pairs (now :: times) ↔
      (meantBoundaries t generation pairs (candidateIntervals t now pairs times)).length ≤ 128 := by
  have hlisting : Listing t generation pairs
      (meantBoundaries t generation pairs (candidateIntervals t now pairs times))
      (candidateIntervals t now pairs times) := meantBoundaries_listing ht.valid hpairs _
  constructor
  · intro hfew
    refine hfew _ hlisting.nodup fun b hb => ?_
    obtain ⟨k, hk, hkb⟩ := (hlisting.mem b).mp hb
    exact ⟨k, (mem_candidateIntervals ht hpairs hkb).mp hk, hkb⟩
  · intro hshort boundaries hnodup hnear
    refine (List.Subperm.length_le (hnodup.subperm fun b hb => ?_)).trans hshort
    obtain ⟨k, hk, hkb⟩ := hnear b hb
    exact (hlisting.mem b).mpr ⟨k, (mem_candidateIntervals ht hpairs hkb).mpr hk, hkb⟩

/-- A boundary is suitable for a timed command if it is neither early nor late. -/
theorem suitable_iff (ht : t.Valid) (hmode : mode ≠ 0) {k : ℕ} {b : Boundary}
    (hb : packetBoundary t clock.mappingGeneration pairs k = some b) :
    Suitable mode requested clock c b ↔
      ¬Early mode requested clock c b ∧ ¬Late mode requested clock c b := by
  have hgrid := packetBoundary_onGrid ht hb
  unfold Early Late
  constructor
  · intro hs
    have hlead := hs.lead
    obtain ⟨hhorizon, hopens, hcloses⟩ := hs.timed hmode
    omega
  · rintro ⟨hearly, hlate⟩
    exact ⟨hgrid.valid, hgrid.uncommitted, hgrid.ready, hgrid.generation, by omega,
      fun _ => ⟨by omega, by omega, by omega⟩⟩

/-- What comes before an early boundary is early. -/
theorem Early.earlier (ht : t.Valid) (hpairs : 0 < pairs) {j k : ℕ} {a b : Boundary} (hjk : j ≤ k)
    (ha : packetBoundary t clock.mappingGeneration pairs j = some a)
    (hb : packetBoundary t clock.mappingGeneration pairs k = some b)
    (h : Early mode requested clock c b) : Early mode requested clock c a := by
  rcases hjk.lt_or_eq with hlt | rfl
  · have hfar := packetBoundary_spaced ht hpairs hlt ha hb
    have hquantized := (packetBoundary_onGrid ht hb).quantized
    unfold Early doubt at *
    omega
  · obtain rfl : a = b := Option.some.inj (ha.symm.trans hb)
    exact h

/-- What comes after a late boundary is late. -/
theorem Late.later (ht : t.Valid) (hpairs : 0 < pairs) {j k : ℕ} {a b : Boundary} (hjk : j ≤ k)
    (ha : packetBoundary t clock.mappingGeneration pairs j = some a)
    (hb : packetBoundary t clock.mappingGeneration pairs k = some b)
    (h : Late mode requested clock c a) : Late mode requested clock c b := by
  rcases hjk.lt_or_eq with hlt | rfl
  · have hfar := packetBoundary_spaced ht hpairs hlt ha hb
    have hquantized := (packetBoundary_onGrid ht ha).quantized
    unfold Late doubt at *
    omega
  · obtain rfl : a = b := Option.some.inj (ha.symm.trans hb)
    exact h

/-- The times of boundaries follow their numbers. -/
theorem packetBoundary_mono (ht : t.Valid) (hpairs : 0 < pairs) {j k : ℕ} {a b : Boundary} (hjk : j ≤ k)
    (ha : packetBoundary t generation pairs j = some a)
    (hb : packetBoundary t generation pairs k = some b) : a.time.ps ≤ b.time.ps := by
  rcases hjk.lt_or_eq with hlt | rfl
  · have := packetBoundary_spaced ht hpairs hlt ha hb
    omega
  · exact (congrArg (·.time.ps) (Option.some.inj (ha.symm.trans hb))).le

/-- A boundary closest to the requested time that is not next to it is the first one after the lead and
the opening of the window, or the last one before its closing. -/
theorem closest_near (ht : t.Reachable) (hpairs : 0 < pairs) (hmode : mode ≠ 0)
    (hrequested : requested.valid) (hmem : requested ∈ times)
    (hcertain : ∀ k b, packetBoundary t clock.mappingGeneration pairs k = some b →
      ¬Doubtful mode clock c b)
    (h : Covered mode requested clock c t pairs times) {k : ℕ} {b : Boundary}
    (hb : packetBoundary t clock.mappingGeneration pairs k = some b)
    (hs : Suitable mode requested clock c b)
    (hclosest : ∀ j b', packetBoundary t clock.mappingGeneration pairs j = some b' →
      Suitable mode requested clock c b' → ¬Closer mode requested b' b) : Near t pairs times k := by
  obtain ⟨near, -, hneighbour, hfound, hlast⟩ := intervalsAround_spec ht hpairs requested
  have hv := ht.valid
  obtain ⟨hearly, hlate⟩ := (suitable_iff hv hmode hb).mp hs
  -- a suitable boundary is not closer than this one
  have hcloser (j : ℕ) (b' : Boundary) (hb' : packetBoundary t clock.mappingGeneration pairs j = some b')
      (hs' : Suitable mode requested clock c b') :
      Nat.dist b.time.ps requested.ps ≤ Nat.dist b'.time.ps requested.ps := by
    by_contra hlt
    refine hclosest j b' hb' hs' ?_
    unfold Closer
    rw [if_pos hmode]
    exact .inl (not_le.mp hlt)
  by_cases hbeside : k = near ∨ k = near + 1
  · exact .inr ⟨requested, hmem, (neighbour_iff_beside ht hpairs).mp ((hneighbour k).mpr hbeside)⟩
  rcases Nat.lt_or_ge k near with hlt | hge
  · -- the next boundary is not later than the requested time, and closer
    have hdue : t.Overdue requested pairs (k + 1) :=
      overdue_mono hv (by omega) (hfound.resolve_left (by omega))
    have ⟨_, copy, hcopy, _⟩ := hdue
    have hnext : packetBoundary t clock.mappingGeneration pairs (k + 1) = some _ :=
      packetBoundary_eq_some.mpr ⟨copy, hcopy, rfl⟩
    have hle := earlier_of_overdue hv hrequested hnext hdue
    have hfar := packetBoundary_spaced hv hpairs (Nat.lt_succ_self k) hb hnext
    refine h.closing hcertain hmode k b _ hb hnext hle ?_ hlate hearly
    by_contra hnot
    have hdistance := hcloser _ _ hnext ((suitable_iff hv hmode hnext).mpr
      ⟨fun he => hearly (he.earlier hv hpairs (Nat.le_succ k) hb hnext), hnot⟩)
    unfold Nat.dist at hdistance
    omega
  · -- the boundary before is later than the requested time, and closer
    obtain ⟨j, rfl⟩ : ∃ j, k = j + 1 := ⟨k - 1, by omega⟩
    obtain ⟨a, ha⟩ := packetBoundary_exists hv (Nat.le_succ j) hb
    have hlater := later_of_not_overdue hv hrequested ha fun hdue => by
      have := hlast _ hdue
      omega
    have hfar := packetBoundary_spaced hv hpairs (Nat.lt_succ_self j) ha hb
    refine h.opening hcertain hmode j a b ha hb hlater ?_ hearly hlate
    by_contra hnot
    have hdistance := hcloser _ _ ha ((suitable_iff hv hmode ha).mpr
      ⟨hnot, fun hl => hlate (hl.later hv hpairs (Nat.le_succ j) ha hb)⟩)
    unfold Nat.dist at hdistance
    omega

/-- No boundary is closer to the requested time than the first one after the lead and the opening of the
window, when those before it are later than the requested time. -/
theorem closest_of_opening (ht : t.Valid) (hpairs : 0 < pairs) (hmode : mode ≠ 0) {k : ℕ}
    {a b : Boundary} (ha : packetBoundary t clock.mappingGeneration pairs k = some a)
    (hb : packetBoundary t clock.mappingGeneration pairs (k + 1) = some b)
    (hlater : requested.ps < a.time.ps) (hearly : Early mode requested clock c a) (j : ℕ) (b' : Boundary)
    (hb' : packetBoundary t clock.mappingGeneration pairs j = some b')
    (hs' : Suitable mode requested clock c b') : ¬Closer mode requested b' b := by
  have hnot := ((suitable_iff ht hmode hb').mp hs').1
  have hjk : k + 1 ≤ j := by
    by_contra hlt
    exact hnot (hearly.earlier ht hpairs (by omega) hb' ha)
  have hfirst := packetBoundary_spaced ht hpairs (Nat.lt_succ_self k) ha hb
  have hle := packetBoundary_mono ht hpairs hjk hb hb'
  unfold Closer Nat.dist
  rw [if_pos hmode]
  omega

/-- Where a boundary that is not after the requested time is late already, the one before it is the
closest suitable one. -/
theorem closest_of_closing (ht : t.Valid) (hpairs : 0 < pairs) (hmode : mode ≠ 0) {k : ℕ}
    {a b : Boundary} (ha : packetBoundary t clock.mappingGeneration pairs k = some a)
    (hb : packetBoundary t clock.mappingGeneration pairs (k + 1) = some b)
    (hle : b.time.ps ≤ requested.ps) (hlate : Late mode requested clock c b) (j : ℕ) (b' : Boundary)
    (hb' : packetBoundary t clock.mappingGeneration pairs j = some b')
    (hs' : Suitable mode requested clock c b') : ¬Closer mode requested b' a := by
  have hnot := ((suitable_iff ht hmode hb').mp hs').2
  have hjk : j ≤ k := by
    by_contra hlt
    exact hnot (hlate.later ht hpairs (by omega) hb hb')
  have hlast := packetBoundary_spaced ht hpairs (Nat.lt_succ_self k) ha hb
  have hless := packetBoundary_mono ht hpairs hjk hb' ha
  unfold Closer Nat.dist
  rw [if_pos hmode]
  omega

/-- The list that is built is sufficient exactly under the condition on lead, window and packets. -/
theorem sufficient_iff (ht : t.Reachable) (hpairs : 0 < pairs) {now : ProtocolTime}
    (hnow : clock.time = now) (hadmits : Admits mode requested clock c)
    (hmem : mode ≠ 0 → requested ∈ times) :
    Sufficient mode requested clock c t pairs (candidateIntervals t now pairs times) ↔
      Covered mode requested clock c t pairs (now :: times) := by
  have hv := ht.valid
  have hnear {k : ℕ} {b : Boundary} (hb : packetBoundary t clock.mappingGeneration pairs k = some b) :
      k ∈ candidateIntervals t now pairs times ↔ Near t pairs (now :: times) k :=
    mem_candidateIntervals ht hpairs hb
  constructor
  · intro h
    refine ⟨fun hcertain hmode k a b ha hb hlater hearly hnot hlate => ?_,
      fun hcertain hmode k a b ha hb hle hlate hnot hearly => ?_, fun hcertain hsome => ?_,
      fun hdoubt hfew => ?_⟩
    · exact (hnear hb).mp (h.closest hcertain _ b hb ((suitable_iff hv hmode hb).mpr ⟨hnot, hlate⟩)
        (closest_of_opening hv hpairs hmode ha hb hlater hearly)).1
    · exact (hnear ha).mp (h.closest hcertain _ a ha ((suitable_iff hv hmode ha).mpr ⟨hearly, hnot⟩)
        (closest_of_closing hv hpairs hmode ha hb hle hlate)).1
    · -- among the suitable boundaries one is closest
      have hcertain' : ∀ b ∈ packetBoundaries t clock.mappingGeneration pairs,
          ¬Doubtful mode clock c b := by
        intro b hb
        obtain ⟨k, hk⟩ := (mem_packetBoundaries hv hpairs).mp hb
        exact hcertain k b hk
      obtain ⟨i, y, hy, hsy⟩ := hsome
      rcases chooseAmong_spec hadmits hcertain' with ⟨b, hb, hs, hbest, -⟩ | ⟨hnone, -⟩
      · obtain ⟨k, hk⟩ := (mem_packetBoundaries hv hpairs).mp hb
        exact (few_iff ht hpairs).mpr (h.closest hcertain k b hk hs fun j x hx hsx =>
          hbest x ((mem_packetBoundaries hv hpairs).mpr ⟨j, hx⟩) hsx).2
      · exact absurd hsy (hnone y ((mem_packetBoundaries hv hpairs).mpr ⟨i, hy⟩))
    · rcases h.doubtful hdoubt ((few_iff ht hpairs).mp hfew) with ⟨k, hk, b, hb, hdoubtful⟩ | hnone
      · exact .inl ⟨k, b, (hnear hb).mp hk, hb, hdoubtful⟩
      · exact .inr fun k b hk hb => hnone k ((hnear hb).mpr hk) b hb
  · intro h
    refine ⟨fun hcertain k b hb hs hclosest => ⟨?_, ?_⟩, fun hdoubt hshort => ?_⟩
    · by_cases hmode : mode = 0
      · subst hmode
        exact hnow ▸ next_listed ht hpairs hadmits.time hb hs hclosest times
      · exact (hnear hb).mpr (closest_near ht hpairs hmode (hadmits.timed hmode).2.2.2.1
          (List.mem_cons_of_mem _ (hmem hmode)) hcertain h hb hs hclosest)
    · exact (few_iff ht hpairs).mp (h.few hcertain ⟨k, b, hb, hs⟩)
    · rcases h.doubtful hdoubt ((few_iff ht hpairs).mpr hshort) with ⟨k, b, hk, hb, hdoubtful⟩ | hnone
      · exact .inl ⟨k, (hnear hb).mpr hk, b, hb, hdoubtful⟩
      · exact .inr fun k hk b hb => hnone k b ((hnear hb).mp hk) hb

/-- With few timed commands there is room for all boundaries that are near. -/
theorem few_of_times (ht : t.Reachable) (hpairs : 0 < pairs) {now : ProtocolTime}
    (hfew : times.length ≤ 62) : Few t generation pairs (now :: times) := by
  rw [few_iff ht hpairs]
  have hlisting : Listing t generation pairs
      (meantBoundaries t generation pairs (candidateIntervals t now pairs times))
      (candidateIntervals t now pairs times) := meantBoundaries_listing ht.valid hpairs _
  have hmeant := hlisting.length
  have : (candidateIntervals t now pairs times).length ≤ 2 * times.length + 3 :=
    length_candidateIntervals now times
  omega

/-- The usual case: one of the two boundaries around the requested time is suitable. -/
theorem covered_of_neighbour (ht : t.Reachable) (hpairs : 0 < pairs) (hmode : mode ≠ 0)
    (hrequested : requested.valid) (hmem : requested ∈ times)
    (hfew : Few t clock.mappingGeneration pairs times)
    (hcertain : ∀ k b, packetBoundary t clock.mappingGeneration pairs k = some b →
      ¬Doubtful mode clock c b) {i : ℕ} {x : Boundary} (hi : Neighbour t pairs requested i)
    (hx : packetBoundary t clock.mappingGeneration pairs i = some x)
    (hs : Suitable mode requested clock c x) : Covered mode requested clock c t pairs times := by
  obtain ⟨near, -, hneighbour, hfound, hlast⟩ := intervalsAround_spec ht hpairs requested
  have hv := ht.valid
  obtain ⟨hearly, hlate⟩ := (suitable_iff hv hmode hx).mp hs
  have hnext (k : ℕ) (hk : k = near ∨ k = near + 1) : Near t pairs times k :=
    .inr ⟨requested, hmem, (neighbour_iff_beside ht hpairs).mp ((hneighbour k).mpr hk)⟩
  rw [hneighbour] at hi
  refine ⟨fun _ _ k a b ha hb hlater hearly' _ _ => hnext _ ?_,
    fun _ _ k a b ha hb hle hlate' _ _ => hnext _ ?_, fun _ _ => hfew,
    fun ⟨k, b, hb, hdoubt⟩ => absurd hdoubt (hcertain k b hb)⟩
  · -- the suitable one is not among the early ones
    have hki : k < i := by
      by_contra hge
      exact hearly (hearly'.earlier hv hpairs (not_lt.mp hge) hx ha)
    have hnotdue : ¬t.Overdue requested pairs k := fun hdue => by
      have := earlier_of_overdue hv hrequested ha hdue
      omega
    have hkn : near ≤ k := by
      by_contra hlt
      exact hnotdue (overdue_mono hv (by omega) (hfound.resolve_left (by omega)))
    omega
  · have hik : i ≤ k := by
      by_contra hlt
      exact hlate (hlate'.later hv hpairs (by omega) hb hx)
    have hdue : t.Overdue requested pairs (k + 1) := by
      by_contra hnot
      have := later_of_not_overdue hv hrequested hb hnot
      omega
    have := hlast _ hdue
    omega

end Covering

/-! ## The list and all boundaries -/

/-- The boundaries that `operation_context` lists lose nothing exactly where lead, window and packets
cover the choice. With at most 62 transactions they do for a command without a time, and for one that has
a time in the list if one of the two boundaries around it is suitable. -/
theorem candidates_suffice {σ : Type} (engine : Config σ) (w : Engine σ) (s : StreamView)
    (extra : Option Codec.Timestamp) {pairs : ℕ} (htimeline : s.timeline.Reachable)
    (hpacket : packetSamples s.config = .ok pairs)
    (hfew : ((pendingTimes engine w).filter (·.mode ≠ 0)).length < engine.transactions) (mode : ℕ)
    (requested : ProtocolTime) :
    let now := operationContext engine w s extra
    let times := requestedTimes (pendingTimes engine w) extra
    let same := SameChoice mode requested now.clock now.timing now.boundaries
      (packetBoundaries s.timeline now.clock.mappingGeneration pairs)
    (mode ≠ 0 → requested ∈ times) →
    (same ↔ (Admits mode requested now.clock now.timing →
      Covered mode requested now.clock now.timing s.timeline pairs (now.clock.time :: times))) ∧
    (engine.transactions ≤ 62 → mode = 0 → same) ∧
    (engine.transactions ≤ 62 → now.clock.uncertaintyPs < uint64Max →
      (∃ i b, Neighbour s.timeline pairs requested i ∧
        packetBoundary s.timeline now.clock.mappingGeneration pairs i = some b ∧
        Suitable mode requested now.clock now.timing b) → same) := by
  intro now times same hmem
  have hv := htimeline.valid
  have hpairs := packetSamples_pos hpacket
  have htimes : times.length ≤ engine.transactions := by
    show (requestedTimes (pendingTimes engine w) extra).length ≤ _
    unfold requestedTimes
    have hextra : (extra.toList.filter (·.tsi ≠ .none)).length ≤ 1 :=
      (List.length_filter_le _ _).trans (by cases extra <;> simp)
    simp only [List.length_append, List.length_map]
    omega
  have hboundaries : now.boundaries = candidateBoundaries engine.transactions s.timeline now.clock pairs
      times := by
    simp only [now, times, operationContext, hpacket]
  have hlisted : Listing s.timeline now.clock.mappingGeneration pairs now.boundaries
      (candidateIntervals s.timeline now.clock.time pairs times) :=
    hboundaries ▸ candidateBoundaries_listing hv hpairs htimes
  have hiff : same ↔ (Admits mode requested now.clock now.timing →
      Covered mode requested now.clock now.timing s.timeline pairs (now.clock.time :: times)) :=
    (sameChoice_iff hv hpairs hlisted).trans
      (forall_congr' fun hadmits => sufficient_iff htimeline hpairs rfl hadmits hmem)
  have hroom (hsmall : engine.transactions ≤ 62) :
      Few s.timeline now.clock.mappingGeneration pairs (now.clock.time :: times) :=
    few_of_times htimeline hpairs (htimes.trans hsmall)
  have huntimed (hsmall : engine.transactions ≤ 62) (hmode : mode = 0) : same := by
    subst hmode
    refine hiff.mpr fun _ => ⟨fun _ h => absurd rfl h, fun _ h => absurd rfl h, fun _ _ => hroom hsmall, ?_⟩
    rintro ⟨_, _, _, hdoubt⟩
    exact absurd rfl hdoubt.1
  refine ⟨hiff, huntimed, ?_⟩
  rintro hsmall hclock ⟨i, x, hi, hx, hs⟩
  by_cases hmode : mode = 0
  · exact huntimed hsmall hmode
  · refine hiff.mpr fun hadmits => ?_
    refine covered_of_neighbour htimeline hpairs hmode (hadmits.timed hmode).2.2.2.1
      (List.mem_cons_of_mem _ (hmem hmode)) (hroom hsmall) ?_ hi hx hs
    rintro k b hb ⟨-, -, -, -, -, -, -, hlt⟩
    have := (packetBoundary_onGrid hv hb).quantized
    omega

namespace Overtaken

/-- A stream of one sample a packet, a million samples a second, that is to go on at five seconds. -/
def stream : StreamView where
  config := { maximumSamplesPerPacket := 1 }
  timeline := { current := { time := { seconds := 5 } }, rate := 1000000 }
  generation := 1
  running := true
  operation := 1
  timing := deterministicTiming
  clockSnapshot := some { state := .locked, time := { seconds := 4, picoseconds := 999999000000 } }

/-- The command is to take effect now, one microsecond before. -/
def stamp : Codec.Timestamp where
  tsi := .other
  tsf := .picoseconds
  integer := 4
  fractional := 999999000000

def engine : Config Unit where
  transactions := 16

def idle : Engine Unit where
  env := { ext := () }
  pool := { capacities := fun _ => 0 }

theorem stream_reachable : stream.timeline.Reachable :=
  @SampleTimeline.Reachable.create { seconds := 5 } 1000000 _ (by decide) rfl

/-- The boundary after 999 packets is a millisecond after the requested time. -/
theorem boundary_suitable : ∃ b, packetBoundary stream.timeline 0 1 999 = some b ∧
    Suitable 4 (timeOf stamp) (operationContext engine idle stream (some stamp)).clock
      deterministicTiming b := by
  refine ⟨{ time := { seconds := 5, picoseconds := 999000000 }, sampleOrdinal := 999 }, by decide +kernel,
    ⟨by decide, rfl, rfl, rfl, by decide +kernel, fun _ => ⟨by decide +kernel, by decide +kernel⟩⟩⟩

theorem admits : Admits 4 (timeOf stamp) (operationContext engine idle stream (some stamp)).clock
    deterministicTiming where
  known := by decide
  time := by decide
  lead := by decide +kernel
  timed := fun _ => ⟨.inr rfl, rfl, by decide +kernel, by decide, by decide +kernel, rfl,
    by decide +kernel, by decide +kernel⟩

end Overtaken

open Overtaken in
/-- With a lead of one millisecond and an application window of one, the boundary a millisecond later is
the only one to choose, and it is not listed: the command is rejected. -/
theorem candidates_lose :
    let now := operationContext engine idle stream (some stamp)
    stream.timeline.Reachable ∧ packetSamples stream.config = .ok 1 ∧ pendingTimes engine idle = [] ∧
      timeOf stamp ∈ requestedTimes [] (some stamp) ∧
      now.boundaries.map (·.sampleOrdinal) = [0, 1] ∧
      ¬SameChoice 4 (timeOf stamp) now.clock now.timing now.boundaries
        (packetBoundaries stream.timeline now.clock.mappingGeneration 1) := by
  have hv := stream_reachable.valid
  have hrejected : chooseBoundary 4 (timeOf stamp)
      (operationContext engine idle stream (some stamp)).clock
      (operationContext engine idle stream (some stamp)).boundaries deterministicTiming = .error (failure .invalidState) := by
    rfl
  refine ⟨stream_reachable, by decide +kernel, by decide +kernel, by decide +kernel, by decide +kernel,
    fun hsame => ?_⟩
  obtain ⟨b, hb, hs⟩ := boundary_suitable
  have hcertain : ∀ x ∈ packetBoundaries stream.timeline 0 1,
      ¬Doubtful 4 (operationContext engine idle stream (some stamp)).clock deterministicTiming x := by
    rintro x hx ⟨-, -, -, -, -, -, -, hlt⟩
    obtain ⟨k, hk⟩ := (mem_packetBoundaries hv one_pos).mp hx
    have := (packetBoundary_onGrid hv hk).quantized
    have : uint64Max - 0 < x.quantizationUncertaintyPs := hlt
    rw [uint64Max] at this
    omega
  rcases chooseAmong_spec admits hcertain with ⟨x, -, -, -, hx⟩ | ⟨hnone, -⟩
  · obtain ⟨y, hy, -⟩ := (sameChoice_of_success hx).mp hsame
    rw [hrejected] at hy
    cases hy
  · exact hnone b ((mem_packetBoundaries hv one_pos).mpr ⟨999, hb⟩) hs

/-- The same stream one millisecond before: the lead ends with the next boundary. -/
def Overtaken.inTime : StreamView :=
  { Overtaken.stream with
    clockSnapshot := some { state := .locked, time := { seconds := 4, picoseconds := 998999000000 } } }

open Overtaken in
/-- The command that is lost one millisecond later takes the same boundary as among all of them: the one
next to its time. -/
theorem candidates_suffice_inTime :
    let now := operationContext engine idle inTime (some stamp)
    SameChoice 4 (timeOf stamp) now.clock now.timing now.boundaries
      (packetBoundaries inTime.timeline now.clock.mappingGeneration 1) := by
  have htimeline : inTime.timeline.Reachable := stream_reachable
  obtain ⟨-, -, hneighbour⟩ := candidates_suffice engine idle inTime (some stamp) htimeline
    (show packetSamples inTime.config = .ok 1 by decide +kernel) (by decide +kernel) 4 (timeOf stamp)
    (by decide +kernel)
  refine hneighbour (by decide) (by decide +kernel) ⟨0, { time := { seconds := 5 } }, ⟨0, rfl, .inl rfl⟩,
    by decide +kernel, ⟨by decide, rfl, rfl, rfl, by decide +kernel,
      fun _ => ⟨by decide +kernel, by decide +kernel⟩⟩⟩

end Vita.Runtime
