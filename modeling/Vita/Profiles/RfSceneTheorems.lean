import Vita.Profiles.RfScene
import Mathlib.Tactic.Ring
import Mathlib.Algebra.BigOperators.Ring.Finset

/-!
# The phase of a simulated tone

The two phases are sums over all ordinals since the first retune: of the tone, and of the center that is
in force. So their difference is that of the tone seen from the center, however the samples were split
into windows or skipped.

Main result: `RfScene.tone_phase_exact`.
-/

namespace Vita.Profiles.RfScene

open Checked State Timing Timing.Word64

/-! ## Modular steps -/

/-- `turn` without its bounds. -/
def turned (phase hz delta rate : ℕ) : ℕ := (phase + delta * (hz % rate)) % rate

/-- The turn of a phase does not overflow and is taken modulo the rate. -/
theorem turn_eq {phase hz delta rate : ℕ} (hpos : 0 < rate) (hrate : rate ≤ 100000000)
    (hphase : phase < rate) (hdelta : delta < rate) :
    turn phase hz delta rate = some (turned phase hz delta rate) := by
  have hhz := Nat.mod_lt hz hpos
  have hproduct : delta * (hz % rate) ≤ 100000000 * 100000000 :=
    Nat.mul_le_mul (hdelta.le.trans hrate) (hhz.le.trans hrate)
  have hmax : uint64Max = 18446744073709551615 := rfl
  unfold turn
  rw [rest_eq hpos]
  simp only [Option.bind_eq_bind, Option.bind_some]
  rw [times_eq (by omega), Option.bind_some, plus_eq (by omega), Option.bind_some, rest_eq hpos]
  rfl

theorem turned_modEq (phase hz count rate : ℕ) :
    turned phase hz (count % rate) rate ≡ phase + count * hz [MOD rate] := by
  unfold turned
  refine (Nat.mod_modEq _ _).trans (Nat.ModEq.add_left _ ?_)
  exact (Nat.mod_modEq count rate).mul (Nat.mod_modEq hz rate)

/-! ## The invariant -/

/-- The numbers of a scene are small enough for every operation. -/
structure Bounded (s : RfScene) : Prop where
  rate_pos : 0 < s.config.sampleRate
  rate_le : s.config.sampleRate ≤ 100000000
  tone_le : s.config.toneHz ≤ 6000000000
  center_le : s.center ≤ 6000000000
  tone_lt : s.tonePhase < s.config.sampleRate
  lo_lt : s.loPhase < s.config.sampleRate
  next_le : s.next ≤ uint64Max

/-- The phases are the sums since the first retune. -/
structure Exact (s : RfScene) : Prop where
  head : ∃ ordinal rest, s.tunes = (ordinal, s.center) :: rest ∧ ordinal ≤ s.next
  started : s.firstOrdinal ≤ s.next
  tone : s.tonePhase ≡ (s.next - s.firstOrdinal) * s.config.toneHz [MOD s.config.sampleRate]
  lo : s.loPhase ≡ ∑ k ∈ Finset.Ico s.firstOrdinal s.next, inForce s.tunes k [MOD s.config.sampleRate]

/-- What holds of a scene after any calls. -/
structure Sound (s : RfScene) : Prop extends Bounded s where
  exact : s.initialized → Exact s
  fresh : ¬s.initialized → s.next = 0 ∧ s.tonePhase = 0 ∧ s.loPhase = 0

/-- `advance` without its bounds. -/
def advanced (count : ℕ) (s : RfScene) : RfScene :=
  { s with
    tonePhase := turned s.tonePhase s.config.toneHz (count % s.config.sampleRate) s.config.sampleRate
    loPhase := turned s.loPhase s.center (count % s.config.sampleRate) s.config.sampleRate
    next := s.next + count }

variable {s s' : RfScene} {count : ℕ}

theorem Bounded.advance_eq (h : Bounded s) (hcount : s.next + count ≤ uint64Max) :
    s.advance count = some (s.advanced count) := by
  have hdelta := Nat.mod_lt count h.rate_pos
  unfold advance
  rw [rest_eq h.rate_pos]
  simp only [Option.bind_eq_bind, Option.bind_some]
  rw [turn_eq h.rate_pos h.rate_le h.tone_lt hdelta, Option.bind_some,
    turn_eq h.rate_pos h.rate_le h.lo_lt hdelta, Option.bind_some, plus_eq hcount]
  rfl

theorem Bounded.advanced (h : Bounded s) (hcount : s.next + count ≤ uint64Max) :
    Bounded (s.advanced count) :=
  { h with
    tone_lt := Nat.mod_lt _ h.rate_pos
    lo_lt := Nat.mod_lt _ h.rate_pos
    next_le := hcount }

/-- The center stays in force until the next retune. -/
theorem Exact.inForce_eq (h : Exact s) {k : ℕ} (hk : s.next ≤ k) : inForce s.tunes k = s.center := by
  obtain ⟨ordinal, rest, htunes, hle⟩ := h.head
  have hreached : ordinal ≤ k := hle.trans hk
  rw [inForce, htunes, List.find?_cons_of_pos (by simpa using hreached)]
  rfl

/-- The phases stay exact over any number of samples. -/
theorem Exact.advanced (h : Exact s) (count : ℕ) : Exact (s.advanced count) := by
  obtain ⟨ordinal, rest, htunes, hle⟩ := h.head
  refine ⟨⟨ordinal, rest, htunes, hle.trans (Nat.le_add_right _ _)⟩,
    h.started.trans (Nat.le_add_right _ _), ?_, ?_⟩
  · show turned _ _ _ _ ≡ (s.next + count - s.firstOrdinal) * s.config.toneHz [MOD _]
    rw [Nat.sub_add_comm h.started, Nat.add_mul]
    exact (turned_modEq _ _ _ _).trans (h.tone.add_right _)
  · show turned _ _ _ _ ≡ ∑ k ∈ Finset.Ico s.firstOrdinal (s.next + count), inForce s.tunes k [MOD _]
    have hsplit := Finset.sum_Ico_consecutive (inForce s.tunes) h.started (Nat.le_add_right s.next count)
    have hconstant : ∑ k ∈ Finset.Ico s.next (s.next + count), inForce s.tunes k = count * s.center := by
      rw [Finset.sum_congr rfl fun k hk => h.inForce_eq (Finset.mem_Ico.mp hk).1, Finset.sum_const,
        Nat.card_Ico, Nat.add_sub_cancel_left, nsmul_eq_mul, Nat.cast_id]
    rw [← hsplit, hconstant]
    exact (turned_modEq _ _ _ _).trans (h.lo.add_right _)

/-- A retune takes effect at the next ordinal, so it does not change what was in force before. -/
theorem Exact.retune (h : Exact s) (center : ℕ) :
    Exact { s with center, tunes := (s.next, center) :: s.tunes } := by
  obtain ⟨ordinal, rest, htunes, -⟩ := h.head
  have hfirst : firstOrdinal { s with center, tunes := (s.next, center) :: s.tunes } = s.firstOrdinal := by
    simp [firstOrdinal, htunes, List.getLast?_cons]
  refine ⟨⟨s.next, s.tunes, rfl, le_rfl⟩, by rw [hfirst]; exact h.started, by rw [hfirst]; exact h.tone, ?_⟩
  rw [hfirst]
  have hsame : ∑ k ∈ Finset.Ico s.firstOrdinal s.next, inForce ((s.next, center) :: s.tunes) k =
      ∑ k ∈ Finset.Ico s.firstOrdinal s.next, inForce s.tunes k := by
    refine Finset.sum_congr rfl fun k hk => ?_
    have hbefore : ¬s.next ≤ k := not_le.mpr (Finset.mem_Ico.mp hk).2
    rw [inForce, inForce, List.find?_cons_of_neg (by simpa using hbefore)]
  show s.loPhase ≡ ∑ k ∈ Finset.Ico s.firstOrdinal s.next, inForce ((s.next, center) :: s.tunes) k [MOD _]
  rw [hsame]
  exact h.lo

/-! ## Calls -/

/-- The difference of the phases, modulo the rate. -/
theorem Bounded.phaseNumerator_eq (h : Bounded s) :
    s.phaseNumerator =
      some ((s.tonePhase + s.config.sampleRate - s.loPhase) % s.config.sampleRate) := by
  have hrate := h.rate_le
  have htone := h.tone_lt
  have hlo := h.lo_lt
  have hsum : s.tonePhase + s.config.sampleRate ≤ uint64Max := by
    rw [uint64Max]
    omega
  unfold phaseNumerator
  rw [plus_eq hsum]
  simp only [Option.bind_eq_bind, Option.bind_some]
  rw [minus_eq (by omega), Option.bind_some, rest_eq h.rate_pos]

/-- Whether the tone is heard does not overflow. -/
theorem Bounded.audible_eq (h : Bounded s) : ∃ audible, s.audible = some audible := by
  have hrate := h.rate_le
  have htone := h.tone_le
  have hcenter := h.center_le
  unfold audible
  rw [int64_eq (by omega)]
  simp only [Option.bind_eq_bind, Option.bind_some]
  rw [int64_eq (by omega), Option.bind_some, int64_eq (by omega), Option.bind_some,
    int64_eq (by omega), Option.bind_some, int64_eq (by omega), Option.bind_some, int64_eq (by omega),
    Option.bind_some]
  exact ⟨_, rfl⟩

theorem Sound.failed (h : Sound s) : Sound { s with faulted := true } :=
  ⟨{ h.toBounded with }, fun hinit => { h.exact hinit with }, h.fresh⟩

/-- What a call does: it goes on to a sound scene, from which later ordinals follow, and a failure marks
the scene as faulted. -/
structure Goes (s : RfScene) (r : Result Unit) (s' : RfScene) : Prop where
  sound : Sound s'
  next : s.next ≤ s'.next
  kept : s.initialized → s'.initialized
  config : s'.config = s.config
  failed : (∃ e, r = .error e) → s'.faulted

theorem Sound.goes_fail (h : Sound s) (code : ErrorCode) : Goes s (s.fail code).1 (s.fail code).2 :=
  ⟨h.failed, le_rfl, id, rfl, fun _ => rfl⟩

theorem Goes.trans {r : Result Unit} {s₁ s₂ : RfScene} (h : Goes s (.ok ()) s₁) (h' : Goes s₁ r s₂) :
    Goes s r s₂ :=
  ⟨h'.sound, h.next.trans h'.next, fun hinit => h'.kept (h.kept hinit), h'.config.trans h.config,
    h'.failed⟩

/-- Samples are skipped or produced. -/
theorem Sound.goes_advanced (h : Sound s) (hinit : s.initialized) (hcount : s.next + count ≤ uint64Max) :
    Goes s (.ok ()) (s.advanced count) :=
  ⟨⟨h.toBounded.advanced hcount, fun _ => (h.exact hinit).advanced count, fun hno => absurd hinit hno⟩,
    Nat.le_add_right _ _, id, rfl, fun ⟨_, he⟩ => by cases he⟩

theorem Sound.goes_retune (h : Sound s) (hinit : s.initialized) {center ordinal : ℕ}
    (hcenter : tunable center) (hordinal : s.next = ordinal) :
    Goes s (.ok ()) { s with center, tunes := (ordinal, center) :: s.tunes } := by
  subst hordinal
  exact ⟨⟨{ h.toBounded with center_le := hcenter.2 }, fun _ => (h.exact hinit).retune center,
    fun hno => absurd hinit hno⟩, le_rfl, id, rfl, fun ⟨_, he⟩ => by cases he⟩

/-- The first retune. -/
theorem Sound.goes_first (h : Sound s) (hnew : ¬s.initialized) {center ordinal : ℕ}
    (hcenter : tunable center) (hordinal : ordinal ≤ uint64Max) :
    Goes s (.ok ()) { s with next := ordinal, center, initialized := true, tunes := [(ordinal, center)] } := by
  obtain ⟨hnext, htone, hlo⟩ := h.fresh hnew
  have hfirst : firstOrdinal { s with next := ordinal, center, initialized := true
                                      tunes := [(ordinal, center)] } = ordinal := rfl
  refine ⟨⟨{ h.toBounded with center_le := hcenter.2, next_le := hordinal }, fun _ => ?_,
    fun hno => absurd rfl hno⟩, ?_, fun hinit => absurd hinit hnew, rfl, fun ⟨_, he⟩ => by cases he⟩
  · refine ⟨⟨ordinal, [], rfl, le_rfl⟩, hfirst.le, ?_, ?_⟩
    · rw [hfirst, Nat.sub_self, Nat.zero_mul]
      show s.tonePhase ≡ 0 [MOD _]
      rw [htone]
    · rw [hfirst, Finset.Ico_self, Finset.sum_empty]
      show s.loPhase ≡ 0 [MOD _]
      rw [hlo]
  · show s.next ≤ ordinal
    omega

/-- An effective event is applied at its ordinal, or is a fault. -/
theorem Sound.effective (h : Sound s) (hfaulted : ¬s.faulted) (event : EffectiveEvent)
    (hordinal : event.sampleOrdinal ≤ uint64Max) :
    ∃ r s', s.effective event = some (r, s') ∧ Goes s r s' := by
  unfold RfScene.effective
  rw [if_neg hfaulted]
  split
  next center rate hcenter hrate =>
    split_ifs with hrefused hinit hlate horigin
    · exact ⟨_, _, rfl, h.goes_fail _⟩
    · exact ⟨_, _, rfl, h.goes_fail _⟩
    · -- the old center is integrated up to the ordinal of the event
      simp only [not_or, not_not] at hrefused
      have hgap : s.next + (event.sampleOrdinal - s.next) = event.sampleOrdinal := by omega
      have hadvanced := h.goes_advanced hinit (hgap.trans_le hordinal)
      have hretune := hadvanced.sound.goes_retune (hadvanced.kept hinit) hrefused.2.1 hgap
      rw [minus_eq (by omega)]
      simp only [Option.bind_eq_bind, Option.bind_some]
      rw [h.advance_eq (hgap.trans_le hordinal)]
      exact ⟨_, _, rfl, hadvanced.trans hretune⟩
    · exact ⟨_, _, rfl, h.goes_fail _⟩
    · simp only [not_or, not_not] at hrefused
      exact ⟨_, _, rfl, h.goes_first hinit hrefused.2.1 hordinal⟩
  next => exact ⟨_, _, rfl, h.goes_fail _⟩

/-- Some samples are produced, each one step of phase. -/
theorem Sound.produceFrom (h : Sound s) (hinit : s.initialized) (window : SampleWriteWindow)
    (audible : Bool) (n i : ℕ) (hroom : s.next + n ≤ uint64Max) :
    ∃ r s', produceFrom window audible n i s = some (r, s') ∧ Goes s r s' := by
  induction n generalizing s i with
  | zero => exact ⟨_, _, rfl, h, le_rfl, id, rfl, fun ⟨_, he⟩ => by cases he⟩
  | succ n ih =>
    unfold RfScene.produceFrom
    rw [h.phaseNumerator_eq]
    simp only [Option.bind_eq_bind, Option.bind_some]
    split
    · exact ⟨_, _, rfl, h.goes_fail _⟩
    · have hadvanced : Goes s (.ok ()) (s.advanced 1) := h.goes_advanced hinit (by omega)
      have hroom' : (s.advanced 1).next + n ≤ uint64Max := by
        show s.next + 1 + n ≤ _
        omega
      obtain ⟨r, s', hrun, hgoes⟩ := ih hadvanced.sound (hadvanced.kept hinit) (i + 1) hroom'
      rw [h.advance_eq (by omega), Option.bind_some]
      exact ⟨r, s', hrun, hadvanced.trans hgoes⟩

/-- A window is produced as a whole, or is a fault. -/
theorem Sound.produce (h : Sound s) (hinit : s.initialized) (hfaulted : ¬s.faulted)
    (window : SampleWriteWindow) (hordinal : window.firstOrdinal ≤ uint64Max) :
    ∃ r s', s.produce window = some (r, s') ∧ Goes s r s' := by
  unfold RfScene.produce
  rw [if_neg (by simp [hinit, hfaulted])]
  split
  next rate center hrate hcenter =>
    split_ifs with hrefused
    · exact ⟨_, _, rfl, h.goes_fail _⟩
    · simp only [not_or, not_not, not_lt] at hrefused
      rw [minus_eq hordinal]
      simp only [Option.bind_eq_bind, Option.bind_some]
      split_ifs with hroom
      · exact ⟨_, _, rfl, h.goes_fail _⟩
      · have hgap : s.next + (window.firstOrdinal - s.next) = window.firstOrdinal := by omega
        have hadvanced := h.goes_advanced hinit (hgap.trans_le hordinal)
        obtain ⟨audible, haudible⟩ := hadvanced.sound.audible_eq
        have hroom' : (s.advanced (window.firstOrdinal - s.next)).next + window.count ≤ uint64Max := by
          show s.next + (window.firstOrdinal - s.next) + window.count ≤ _
          omega
        obtain ⟨r, s', hrun, hgoes⟩ := hadvanced.sound.produceFrom (hadvanced.kept hinit) window audible
          window.count 0 hroom'
        rw [minus_eq hrefused.2.2, Option.bind_some, h.advance_eq (hgap.trans_le hordinal),
          Option.bind_some, haudible, Option.bind_some]
        exact ⟨r, s', hrun, hadvanced.trans hgoes⟩
  next => exact ⟨_, _, rfl, h.goes_fail _⟩

/-! ## Runs -/

/-- A faulted scene refuses every call and stays as it is. -/
theorem step_faulted (hfaulted : s.faulted) (call : Call) :
    ∃ e, s.step call = some (.error e, s) := by
  cases call with
  | effective event => exact ⟨_, if_pos hfaulted⟩
  | produce window => exact ⟨_, if_pos (.inr hfaulted)⟩

/-- Every call ends with a sound scene, and an error is final. -/
theorem step_goes (h : Sound s) {call : Call} (hcall : call.Representable) :
    ∃ r s', s.step call = some (r, s') ∧ Sound s' ∧ s.next ≤ s'.next ∧ s'.config = s.config ∧
      ((∃ e, r = .error e) → (s.initialized ∨ ∃ event, call = .effective event) → s'.faulted) := by
  by_cases hfaulted : s.faulted
  · obtain ⟨e, hstep⟩ := step_faulted hfaulted call
    exact ⟨_, _, hstep, h, le_rfl, rfl, fun _ _ => hfaulted⟩
  · cases call with
    | effective event =>
      obtain ⟨r, s', hstep, hgoes⟩ := h.effective hfaulted event hcall
      exact ⟨r, s', hstep, hgoes.sound, hgoes.next, hgoes.config, fun he _ => hgoes.failed he⟩
    | produce window =>
      by_cases hinit : s.initialized
      · obtain ⟨r, s', hstep, hgoes⟩ := h.produce hinit hfaulted window hcall
        exact ⟨r, s', hstep, hgoes.sound, hgoes.next, hgoes.config, fun he _ => hgoes.failed he⟩
      · refine ⟨_, s, if_pos (.inl hinit), h, le_rfl, rfl, fun _ hor => ?_⟩
        rcases hor with hor | ⟨event, hevent⟩
        · exact absurd hor hinit
        · cases hevent

/-- A scene that was created is sound. -/
theorem Created.sound (h : Created s) : Sound s := by
  obtain ⟨config, h⟩ := h
  have hcreate : ∀ s, create config = .ok s → Sound s := by
    intro s h
    unfold create at h
    split at h
    · cases h
    next hvalid =>
      obtain rfl := Except.ok.inj h
      simp only [not_or, not_lt] at hvalid
      have hpos := Nat.pos_of_ne_zero hvalid.1
      exact ⟨⟨hpos, hvalid.2.1, hvalid.2.2.1, Nat.zero_le _, hpos, hpos, Nat.zero_le _⟩,
        fun hinit => absurd hinit Bool.false_ne_true, fun _ => ⟨rfl, rfl, rfl⟩⟩
  rcases h with h | h
  · exact hcreate s h
  · simp only [createForRecovery, bind_eq_ok, pure_eq_ok, Except.ok.injEq] at h
    obtain ⟨s', hs', rfl⟩ := h
    have hsound := hcreate s' hs'
    exact ⟨{ hsound.toBounded with }, fun hinit => { hsound.exact hinit with }, hsound.fresh⟩

theorem run_sound (h : Sound s) {calls : List Call} (hcalls : ∀ call ∈ calls, call.Representable) :
    ∃ s', s.run calls = some s' ∧ Sound s' ∧ s'.config = s.config := by
  induction calls generalizing s with
  | nil => exact ⟨s, rfl, h, rfl⟩
  | cons call calls ih =>
    obtain ⟨r, s', hstep, hsound, -, hconfig, -⟩ := step_goes h (hcalls call List.mem_cons_self)
    obtain ⟨u, hrun, hsound', hconfig'⟩ := ih hsound fun c hc => hcalls c (List.mem_cons_of_mem _ hc)
    refine ⟨u, ?_, hsound', hconfig'.trans hconfig⟩
    rw [run, List.foldlM_cons, hstep]
    exact hrun

theorem run_faulted (hfaulted : s.faulted) (calls : List Call) : s.run calls = some s := by
  induction calls with
  | nil => rfl
  | cons call calls ih =>
    obtain ⟨e, hstep⟩ := step_faulted hfaulted call
    rw [run, List.foldlM_cons, hstep]
    exact ih

/-- The phase is the sum of the tone seen from the centers in force. -/
theorem Sound.phase (h : Sound s) (hinit : s.initialized) : ∃ phase : ℕ, s.phaseNumerator = some phase ∧
    (phase : ℤ) = (∑ k ∈ Finset.Ico s.firstOrdinal s.next,
      ((s.config.toneHz : ℤ) - inForce s.tunes k)) % s.config.sampleRate := by
  have hexact := h.exact hinit
  have hlo := h.lo_lt
  refine ⟨_, h.phaseNumerator_eq, ?_⟩
  have htone : ((s.next - s.firstOrdinal : ℕ) : ℤ) * s.config.toneHz ≡ s.tonePhase
      [ZMOD s.config.sampleRate] := by
    have hcast := (Int.natCast_modEq_iff.mpr hexact.tone).symm
    rwa [Nat.cast_mul] at hcast
  have hsum : ((∑ k ∈ Finset.Ico s.firstOrdinal s.next, inForce s.tunes k : ℕ) : ℤ) ≡ s.loPhase
      [ZMOD s.config.sampleRate] :=
    (Int.natCast_modEq_iff.mpr hexact.lo).symm
  rw [Nat.cast_sum] at hsum
  rw [Finset.sum_sub_distrib, Finset.sum_const, Nat.card_Ico, nsmul_eq_mul, (htone.sub hsum).eq,
    Int.natCast_mod, Nat.cast_sub (by omega), Nat.cast_add]
  rw [show (s.tonePhase : ℤ) + s.config.sampleRate - s.loPhase =
    (s.tonePhase - s.loPhase) + s.config.sampleRate by ring, Int.add_emod_right]

/-- The simulated tone is phase exact. In every run of a scene nothing wraps; once the scene is
initialized the phase is the sum of tone minus center in force, over all ordinals since the first retune,
modulo the sample rate, and so it depends only on the retunes and the next ordinal; the next ordinal
never decreases; and behind a retune that failed, or a window that failed after the first retune, every
call fails. -/
theorem tone_phase_exact {s₀ : RfScene} (h : Created s₀) {calls : List Call}
    (hcalls : ∀ call ∈ calls, call.Representable) :
    ∃ s, s₀.run calls = some s ∧
      (∃ phase : ℕ, s.phaseNumerator = some phase ∧ (s.initialized → (phase : ℤ) =
        (∑ k ∈ Finset.Ico s.firstOrdinal s.next, ((s₀.config.toneHz : ℤ) - inForce s.tunes k)) %
          s₀.config.sampleRate)) ∧
      (∀ calls' s', (∀ call ∈ calls', call.Representable) → s₀.run calls' = some s' →
        s.initialized → s'.initialized → s'.tunes = s.tunes → s'.next = s.next →
        s'.phaseNumerator = s.phaseNumerator) ∧
      ∀ call, call.Representable → ∃ r s', s.step call = some (r, s') ∧ s.next ≤ s'.next ∧
        ((∃ e, r = .error e) → (s.initialized ∨ ∃ event, call = .effective event) →
          ∀ calls' call', ∃ e u v, s'.run calls' = some u ∧ u.step call' = some (.error e, v)) := by
  obtain ⟨s, hrun, hsound, hconfig⟩ := run_sound h.sound hcalls
  refine ⟨s, hrun, ?_, ?_, ?_⟩
  · by_cases hinit : s.initialized
    · obtain ⟨phase, hphase, hexact⟩ := hsound.phase hinit
      exact ⟨phase, hphase, fun _ => by rw [hexact, hconfig]⟩
    · exact ⟨_, hsound.phaseNumerator_eq, fun hinit' => absurd hinit' hinit⟩
  · intro calls' s' hcalls' hrun' hinit hinit' htunes hnext
    obtain ⟨u, hu, hsound', hconfig'⟩ := run_sound h.sound hcalls'
    obtain rfl := Option.some.inj (hrun'.symm.trans hu)
    obtain ⟨phase, hphase, hexact⟩ := hsound.phase hinit
    obtain ⟨phase', hphase', hexact'⟩ := hsound'.phase hinit'
    have hfirst : s'.firstOrdinal = s.firstOrdinal := by rw [firstOrdinal, firstOrdinal, htunes]
    rw [hconfig', hfirst, hnext, htunes, ← hconfig, ← hexact] at hexact'
    rw [hphase, hphase', Int.natCast_inj.mp hexact']
  · intro call hcall
    obtain ⟨r, s', hstep, -, hnext, -, hfailed⟩ := step_goes hsound hcall
    refine ⟨r, s', hstep, hnext, fun he hor calls' call' => ?_⟩
    have hfaulted := hfailed he hor
    obtain ⟨e, hrefused⟩ := step_faulted hfaulted call'
    exact ⟨e, s', s', run_faulted hfaulted calls', hrefused⟩

/-! ## A run -/

/-- A known center, at the default sample rate. -/
def tuned (hz : Int64) : StateSnapshot :=
  { fields := fun i =>
      if i = 1 then { id := stateField 1, value := .hertz (100000 * 1048576), validity := .known }
      else if i = 4 then { id := stateField 4, value := .hertz (hz * 1048576), validity := .known }
      else { id := stateField i } }

/-- A retune from 100 MHz to 100.025 MHz behind four samples and a gap. -/
def retuned : List Call :=
  [.effective { state := tuned 100000000, ordinalKnown := true },
    .produce { firstOrdinal := 0, count := 4, config := tuned 100000000 },
    .effective { state := tuned 100025000, ordinalKnown := true, sampleOrdinal := 10 },
    .produce { firstOrdinal := 10, count := 2, config := tuned 100025000 }]

theorem run_retuned : ({ config := {} } : RfScene).run retuned =
    some { config := {}, center := 100025000, next := 12, tonePhase := 0, loPhase := 50000
           initialized := true, tunes := [(10, 100025000), (0, 100000000)] } := by
  decide +kernel

/-- Ten samples at an offset of 50 kHz and two at one of 25 kHz. -/
theorem tone_phase_exact_retuned : ∃ s phase, ({ config := {} } : RfScene).run retuned = some s ∧
    s.phaseNumerator = some phase ∧
      (phase : ℤ) = (∑ k ∈ Finset.Ico 0 12, ((100050000 : ℤ) - inForce s.tunes k)) % 100000 := by
  have hcreated : Created { config := {} } := ⟨{}, .inl rfl⟩
  have hcalls : ∀ call ∈ retuned, call.Representable := by
    intro call hcall
    simp only [retuned, List.mem_cons, List.not_mem_nil, or_false] at hcall
    rcases hcall with rfl | rfl | rfl | rfl <;> simp [Call.Representable, uint64Max]
  obtain ⟨s, hrun, ⟨phase, hphase, hexact⟩, -⟩ := tone_phase_exact hcreated hcalls
  refine ⟨s, phase, hrun, hphase, ?_⟩
  obtain rfl := Option.some.inj (run_retuned.symm.trans hrun)
  exact hexact rfl

end Vita.Profiles.RfScene
