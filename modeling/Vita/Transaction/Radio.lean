import Vita.Transaction.Lane

/-!
# The lifecycle of a radio

A radio is started and stopped by single commands and gets its settings all four together, through
`backend.commit`. A start stays armed from its admission until it is complete or cancelled.

Main results:
- `Act.armedStart`: a move arms a start only where no other one is armed;
- `commit_allowed`: settings are committed neither while data is running nor while a start is armed;
- `turn_commits`: what a turn with a commit changes;
- `radio_lifecycle`: all of this for the runs of an engine.
-/

namespace Vita.Transaction.Engine

open Checked Timing State Codec Trace

variable {σ : Type} {c : Config σ} {p p' : Phase} {w w' : Engine σ}

/-! ## Armed starts -/

/-- At most one radio start is armed. -/
def OneArmed (c : Config σ) (w : Engine σ) : Prop :=
  ∀ i < c.transactions, ∀ j < c.transactions, (w.slots i).armedStart → (w.slots j).armedStart → i = j

theorem armedStart_iff {s : Slot} : s.armedStart ↔ s.active ∧ ¬s.complete ∧ s.action = 2 ∧
    s.request.isOnly Field.discreteIO32 3 ∧ s.eligible 0 ∧ ¬s.cancelled 0 := by
  simp [Slot.armedStart, Slot.live, and_assoc]

theorem count_of_isOnly {r : Request} {id : FieldId} {v : UInt32} (h : r.isOnly id v) : r.count = 1 := by
  simp only [Request.isOnly, decide_eq_true_eq] at h
  exact h.1

/-- The first turn of a transaction makes no field eligible. -/
theorem revalidate_eligible {now : OperationContext} {i f : ℕ} (hcount : (w.slots i).request.count ≤ 8)
    (hf : f < (w.slots i).request.count) (h : ((revalidate c now i w).slots i).eligible f) :
    (w.slots i).eligible f := by
  unfold revalidate at h
  dsimp only at h
  split at h
  · exact h
  · obtain ⟨s, env, new, hw, -, hplanned, -⟩ := validate_spec (c := c) i
      (s := { w.slots i with dataRunning := now.dataRunning ∧ ¬immediateStop c (w.slots i).request })
      hcount w
    generalize validate c i { w.slots i with
      dataRunning := now.dataRunning ∧ ¬immediateStop c (w.slots i).request } w = v at h hw
    rw [hw] at h
    simp only [setSlot_slots, Function.update_self] at h
    exact (admittedOnly_eligible (by rw [hplanned.count]; exact hf) h).1

/-- A transaction other than a radio's settings never gets an eligible field back, and does not become
incomplete again. -/
theorem Act.eligible {i f : ℕ} (hb : Base c p w) (h : Act c i p w p' w')
    (hactive : (w.slots i).active) (hactive' : (w'.slots i).active)
    (hsingle : ¬(w.slots i).isBatch c) (hf : f < (w.slots i).request.count) :
    ((w'.slots i).eligible f → (w.slots i).eligible f) ∧
      ((w.slots i).complete → (w'.slots i).complete) := by
  have hsame : ∀ s : Slot, s.execution = (w.slots i).execution → s.complete = (w.slots i).complete →
      w'.slots i = s → ((w'.slots i).eligible f → (w.slots i).eligible f) ∧
        ((w.slots i).complete → (w'.slots i).complete) := by
    rintro s he hc rfl
    rw [Slot.eligible, he, hc]
    exact ⟨id, id⟩
  have happlied : ∀ {field : ℕ} {o : FieldOutcome} {v : Engine σ}, v.slots = w.slots →
      Applied i field o v w' → ((w'.slots i).eligible f → (w.slots i).eligible f) ∧
        ((w.slots i).complete → (w'.slots i).complete) := by
    intro field o v hv happlied
    obtain ⟨hypothetical, credits, revisions, hs⟩ := happlied.slots
    rw [hs, Function.update_self, hv]
    refine ⟨(recordOutcome_narrows _ field o).eligible f, ?_⟩
    rw [recordOutcome_eq]
    exact id
  have hrescheduled : ∀ {s : Slot}, Rescheduled (w.slots i) s → w'.slots i = s →
      ((w'.slots i).eligible f → (w.slots i).eligible f) ∧
        ((w.slots i).complete → (w'.slots i).complete) := by
    rintro s hr rfl
    refine ⟨hr.plan.eligible f, ?_⟩
    rw [hr.slot]
    exact id
  cases h with
  | @settle _ t record port _ hfind =>
    obtain ⟨reported, heq, -⟩ := consume_applied port hfind
    rw [heq] at happlied ⊢
    exact happlied (v := w.setPort port) rfl (applyOutcome_applied ..)
  | own | enter | query | unscheduled | single | unchanged | stuck | exhaust | disarm | confirm =>
    exact hsame _ rfl rfl rfl
  | drain | pass | start =>
    simp only [cancelPending, dispatchField, emit_slots, setSlot_slots, Function.update_self]
    exact ⟨id, id⟩
  | revalidate hnot =>
    obtain ⟨-, hslot, -⟩ := hb.turn rfl
    obtain ⟨s, env, new, heq, -, hr, -⟩ := revalidate_spec (c := c) hnot hslot.count_le
    refine ⟨revalidate_eligible hslot.count_le hf, fun hc => ?_⟩
    rw [heq]
    simp only [Function.update_self]
    rw [hr.slot]
    exact hc
  | @defer _ now =>
    exact hrescheduled (reschedule_rescheduled now (w.slots i)) (Function.update_self ..)
  | schedule =>
    exact hrescheduled ((reschedule_rescheduled _ _).trans (checkWindow_rescheduled _ _))
      (Function.update_self ..)
  | boundary => exact hrescheduled (validateBoundaryState_rescheduled _ _) (Function.update_self ..)
  | unready hbatch => exact absurd hbatch hsingle
  | recheck hready => exact absurd hready.batch hsingle
  | commit hready => exact absurd hready.batch hsingle
  | apply | simulate => exact happlied rfl (applyOutcome_applied ..)
  | publish version event =>
    rcases recordEvent_cases (c := c) i event { w with state := { w.state with version } } with
      heq | ⟨env, credits, revisions, -, heq⟩ <;> rw [heq] at hsame ⊢
    · exact hsame _ rfl rfl rfl
    · exact hsame { w.slots i with credits, revisions } rfl rfl (Function.update_self ..)
  | @block _ field _ =>
    rcases blockField_cases i field w with heq | heq <;> rw [heq] at hsame ⊢
    · exact hsame _ rfl rfl rfl
    · dsimp only
      rw [Function.update_self]
      exact ⟨(blockedSlot_narrowed (w.slots i) field).plan.eligible f, id⟩
  | finish now =>
    obtain ⟨s, env, hs, -, heq⟩ := finish_spec (c := c) i now w
    rw [heq]
    simp only [Function.update_self]
    rw [hs]
    exact ⟨id, fun _ => trivial⟩
  | scratch hidle => exact absurd hactive (by rw [hidle]; exact Bool.false_ne_true)
  | reserve hidle => exact absurd hactive (by rw [hidle]; exact Bool.false_ne_true)
  | drop hidle => exact absurd hactive (by rw [hidle]; exact Bool.false_ne_true)
  | activate _ hidle => exact absurd hactive (by rw [hidle]; exact Bool.false_ne_true)
  | release h =>
    obtain ⟨-, -, rfl⟩ := release_spec h
    simp at hactive'

/-- A move arms a start only at its admission, and only where no other one is armed. -/
theorem Act.armedStart {i : ℕ} (hb : Base c p w) (h : Act c i p w p' w')
    (hsdr : c.profile = .sdrRadio) (harmed : (w'.slots i).armedStart) :
    (w.slots i).armedStart ∨ ∀ j < c.transactions, j ≠ i → ¬(w.slots j).armedStart := by
  obtain ⟨hactive', hlive, haction, honly, heligible, hcancelled⟩ := armedStart_iff.mp harmed
  by_cases hactive : (w.slots i).active
  · left
    have htenure := h.tenure hb hactive hactive'
    rw [Slot.action, htenure.request] at haction
    rw [htenure.request] at honly
    rw [htenure.cancelled] at hcancelled
    have hone := count_of_isOnly honly
    have hsingle : ¬(w.slots i).isBatch c := by
      intro hbatch
      have := (isBatch_count hbatch).1
      rw [(hb.slot i hactive).count] at this
      omega
    obtain ⟨hel, hcomplete⟩ := h.eligible hb hactive hactive' hsingle (f := 0) (by omega)
    exact armedStart_iff.mpr ⟨hactive, fun hc => hlive (hcomplete hc), haction, honly, hel heligible,
      hcancelled⟩
  · right
    cases h with
    | @activate _ now credits gen _ _ _ hother =>
      simp only [emit_slots, setSlot_slots, Function.update_self] at haction honly heligible
      exact hother hsdr honly haction heligible
    | settle _ hfind => exact absurd (findRunning_eq_some hfind).2.1 hactive
    | own _ hlive' | enter _ _ hlive' | query hlive' | drain hlive' =>
      exact absurd (live_iff.mp hlive').1 hactive
    | scratch _ hs =>
      rw [setSlot_slots, Function.update_self, hs] at hactive'
      cases hactive'
    | reserve _ _ _ _ h =>
      obtain ⟨publisher, port, field, -, rfl⟩ := reserveTicket_spec h
      simp only [Function.update_self] at hactive'
      exact absurd hactive' hactive
    | drop =>
      simp only [dropTokens, setSlot_slots, Function.update_self] at hactive'
      exact absurd hactive' hactive
    | disarm hact | confirm hact => exact absurd hact hactive
    | release h => exact absurd (release_spec h).1 hactive
    | _ => exact absurd (hb.phase i rfl) hactive

/-- Every act leaves one armed start at most. -/
theorem oneArmed_act {i : ℕ} (hb : Base c p w) (hsdr : c.profile = .sdrRadio) (hone : OneArmed c w)
    (h : Act c i p w p' w') : OneArmed c w' := by
  have hframe := h.frame hb
  have hother : ∀ j < c.transactions, j ≠ i → (w'.slots i).armedStart → (w'.slots j).armedStart →
      i < c.transactions → False := by
    intro j hj hne hi harmed hlt
    rw [hframe.slots j hne] at harmed
    rcases h.armedStart hb hsdr hi with hi | hnone
    · exact hne (hone j hj i hlt harmed hi)
    · exact hnone j hj hne harmed
  intro j hj k hk hjarmed hkarmed
  by_cases hji : j = i
  · by_cases hki : k = i
    · rw [hji, hki]
    · exact (hother k hk hki (hji ▸ hjarmed) hkarmed (hji ▸ hj)).elim
  · by_cases hki : k = i
    · exact (hother j hj hji (hki ▸ hkarmed) hjarmed (hki ▸ hk)).elim
    · rw [hframe.slots j hji] at hjarmed
      rw [hframe.slots k hki] at hkarmed
      exact hone j hj k hk hjarmed hkarmed

theorem Still.armedStart (h : Still p w w') {j : ℕ} (harmed : (w'.slots j).armedStart) :
    (w.slots j).armedStart := by
  obtain ⟨hactive, hlive, haction, honly, heligible, hcancelled⟩ := armedStart_iff.mp harmed
  refine armedStart_iff.mpr ⟨?_, ?_, ?_, ?_, ?_, fun hc => hcancelled (h.cancelled j 0 hc)⟩
  · rwa [h.slots j] at hactive
  · rwa [h.slots j] at hlive
  · rwa [h.slots j] at haction
  · rwa [h.slots j] at honly
  · rwa [h.slots j] at heligible

/-! ## Turns -/

/-- What every move keeps holds after a sequence of moves. -/
theorem moves_invariant {P : Phase → Engine σ → Prop}
    (hact : ∀ p w i p' w', Base c p w → P p w → Act c i p w p' w' → P p' w')
    (hstill : ∀ p w w', Base c p w → P p w → Still p w w' → P p w') (h : Moves c p w p' w')
    (hw : Base c p w ∧ P p w) : Base c p' w' ∧ P p' w' := by
  refine h.invariant (P := fun p w => Base c p w ∧ P p w) (fun p w p' w' hb h => ?_) hw
  refine ⟨hb.1.move h, ?_⟩
  rcases h.cases hb.1 with ⟨i, h⟩ | ⟨rfl, h⟩
  · exact hact _ _ i _ _ hb.1 hb.2 h
  · exact hstill _ _ _ hb.1 hb.2 h

/-- The turns of some slots, none of which ends the call. -/
inductive Turned (c : Config σ) (now : OperationContext) (running : Bool) :
    List ℕ → Engine σ → Engine σ → Prop
  | nil {w : Engine σ} : Turned c now running [] w w
  | cons {i : ℕ} {rest : List ℕ} {w v w' : Engine σ} (hturn : turn c now running i w = (.next, v))
      (hrest : Turned c now running rest v w') : Turned c now running (i :: rest) w w'

theorem Turned.turns {now : OperationContext} {running : Bool} {done : List ℕ}
    (h : Turned c now running done w w') : turns c now running done w = (.ok (), w') := by
  induction h with
  | nil => rfl
  | cons hturn _ ih => simp only [Engine.turns, hturn, ih]

/-- The engine when a call of `progress` begins, of the caller or of `requestQuiesce`. -/
def Called (c : Config σ) (w : Engine σ) : Prop :=
  Reachable c w ∨ ∃ v, Reachable c v ∧
    w = (List.range c.transactions).foldl (quiesceSlot c) (scan c { v with quiescing := true })

/-- In a run, a call of `progress` is about to give the slot `i` its turn. -/
def AtTurn (c : Config σ) (now : OperationContext) (running : Bool) (i : ℕ) (w : Engine σ) : Prop :=
  ∃ w₀ v done rest, Called c w₀ ∧ v = scan c (observeBackendFaults c w₀) ∧
    running = anyRunning c v ∧ List.range c.transactions = done ++ i :: rest ∧
    Turned c now running done (chooseOwner c now v) w

/-- What every move keeps holds whenever a slot gets its turn. -/
theorem turn_invariant {P : Phase → Engine σ → Prop}
    (hinitial : ∀ ext pool state timeline, P .idle (initial ext pool state timeline))
    (hact : ∀ p w i p' w', Base c p w → P p w → Act c i p w p' w' → P p' w')
    (hstill : ∀ p w w', Base c p w → P p w → Still p w w' → P p w') {now : OperationContext}
    {running : Bool} {i : ℕ} (h : AtTurn c now running i w) : Base c .idle w ∧ P .idle w := by
  obtain ⟨w₀, v, done, rest, hcalled, rfl, rfl, hrange, hturned⟩ := h
  have hstart : ∀ u, Reachable c u → Base c .idle u ∧ P .idle u :=
    fun u hu => base_invariant hinitial hact hstill hu
  have hw₀ : Base c .idle w₀ ∧ P .idle w₀ := by
    rcases hcalled with h | ⟨u, hu, rfl⟩
    · exact hstart w₀ h
    · exact moves_invariant hact hstill ((Moves.quiet (.flags u u.pool u.timeline u.faulted true)).trans
        ((scan_moves _).trans (Moves.foldl quiesceSlot_moves _ _))) (hstart u hu)
  have hslots : ∀ u : Engine σ, (chooseOwner c now u).slots = u.slots := by
    intro u
    unfold chooseOwner
    split <;> rfl
  have hmoves : Moves c .idle (chooseOwner c now (scan c (observeBackendFaults c w₀))) .idle
      (turns c now (anyRunning c (scan c (observeBackendFaults c w₀))) done
        (chooseOwner c now (scan c (observeBackendFaults c w₀)))).2 := by
    refine turns_moves ?_ ?_ ?_
    · exact (List.nodup_append.mp (hrange ▸ List.nodup_range)).1
    · exact fun j hj => List.mem_range.mp (hrange ▸ List.mem_append_left _ hj)
    · intro j hj hnot hactive hrunning
      rw [hslots] at hactive hrunning
      simp only [anyRunning, decide_eq_true_eq, not_exists, not_and] at hnot
      exact hnot j (hrange ▸ List.mem_append_left _ hj) hactive hrunning
  rw [hturned.turns] at hmoves
  exact moves_invariant hact hstill ((observeBackendFaults_moves w₀).trans ((scan_moves _).trans
    ((chooseOwner_moves now _).trans hmoves))) hw₀

/-! ## The credits of settings -/

/-- The slot is not in a turn, or its turn has not come to its fields. -/
def Phase.before (p : Phase) (j : ℕ) : Prop :=
  p.slot = some j → ∃ now, p = .planning j now ∨ p = .checked j now

/-- A radio's settings are not executed one by one, and keep their credits until they are committed. -/
structure Unspent (p : Phase) (j : ℕ) (s : Slot) : Prop where
  idle : ¬s.running
  credits : ¬s.complete → p.before j →
    s.credits.held .revision = 4 ∧ s.credits.held .contextPublication = 4

theorem SlotInv.isBatch_iff {owner : Option ℕ} {log : List Event} {j : ℕ} {s : Slot}
    (h : SlotInv c p owner log j s) :
    s.isBatch c ↔ c.profile = .sdrRadio ∧ s.request.count = 4 ∧ s.action = 2 := by
  rw [Slot.isBatch, decide_eq_true_eq, h.count]

/-- Every act keeps the credits of a batch until it is committed. -/
theorem Act.unspent {i : ℕ} (hb : Base c p w) (h : Act c i p w p' w')
    (hu : (w.slots i).active → (w.slots i).isBatch c → Unspent p i (w.slots i))
    (hactive' : (w'.slots i).active) (hbatch' : (w'.slots i).isBatch c) : Unspent p' i (w'.slots i) := by
  by_cases hactive : (w.slots i).active
  · have htenure := h.tenure hb hactive hactive'
    have hbatch : (w.slots i).isBatch c := by
      rw [((hb.act h).slot i hactive').isBatch_iff, Slot.action, htenure.request] at hbatch'
      exact (hb.slot i hactive).isBatch_iff.mpr hbatch'
    have hu := hu hactive hbatch
    have hkeep : ∀ s : Slot, s.credits = (w.slots i).credits → s.running = (w.slots i).running →
        s.complete = (w.slots i).complete → (p'.before i → p.before i) → w'.slots i = s →
        Unspent p' i (w'.slots i) := by
      rintro s hc hr hcomplete hp rfl
      refine ⟨by rw [hr]; exact hu.idle, fun hnot hbefore => ?_⟩
      rw [hc]
      exact hu.credits (by rwa [hcomplete] at hnot) (hp hbefore)
    have hlate : ∀ s : Slot, s.running = (w.slots i).running → ¬p'.before i → w'.slots i = s →
        Unspent p' i (w'.slots i) := by
      rintro s hr hp rfl
      exact ⟨by rw [hr]; exact hu.idle, fun _ hbefore => absurd hbefore hp⟩
    have happlied : ∀ {field : ℕ} {o : FieldOutcome}, Applied i field o w w' → ¬p'.before i →
        Unspent p' i (w'.slots i) := by
      intro field o happlied hp
      obtain ⟨hypothetical, credits, revisions, hs⟩ := happlied.slots
      refine ⟨fun hrun => ?_, fun _ hbefore => absurd hbefore hp⟩
      rw [hs, Function.update_self, recordOutcome_eq] at hrun
      cases hrun
    cases h with
    | settle _ hfind => exact absurd (findRunning_eq_some hfind).2.2.1 hu.idle
    | own | disarm | confirm => exact hkeep _ rfl rfl rfl id rfl
    | enter | unscheduled => exact hkeep _ rfl rfl rfl (by simp [Phase.before, Phase.slot]) rfl
    | query | single | unchanged | exhaust =>
      exact hlate _ rfl (by simp [Phase.before, Phase.slot]) rfl
    | drain | pass | unready =>
      refine hlate _ ?_ (by simp [Phase.before, Phase.slot]) rfl
      simp [cancelPending, skip, withdrawFour]
    | revalidate hnot =>
      obtain ⟨-, hslot, -⟩ := hb.turn rfl
      obtain ⟨s, env, new, heq, -, hr, -⟩ := revalidate_spec (c := c) hnot hslot.count_le
      rw [heq] at hkeep ⊢
      exact hkeep s (by rw [hr.slot]) (by rw [hr.slot]) (by rw [hr.slot]) id (Function.update_self ..)
    | @defer _ now =>
      have hr := (reschedule_rescheduled (c := c) now (w.slots i)).slot
      exact hkeep (reschedule c now (w.slots i)) (by rw [hr]) (by rw [hr]) (by rw [hr])
        (by simp [Phase.before, Phase.slot]) (Function.update_self ..)
    | @schedule _ now =>
      have hr := ((reschedule_rescheduled (c := c) now (w.slots i)).trans
        (checkWindow_rescheduled now _)).slot
      exact hkeep (checkWindow now (reschedule c now (w.slots i))) (by rw [hr]) (by rw [hr]) (by rw [hr])
        (by simp [Phase.before, Phase.slot]) (Function.update_self ..)
    | boundary =>
      have hr := (validateBoundaryState_rescheduled (c := c) w.timeline (w.slots i)).slot
      exact hkeep (validateBoundaryState c w.timeline (w.slots i)) (by rw [hr]) (by rw [hr]) (by rw [hr])
        id (Function.update_self ..)
    | recheck =>
      obtain ⟨-, hslot, -⟩ := hb.turn rfl
      obtain ⟨s, env, new, heq, -, hr, -⟩ := revalidateBatch_spec (c := c) _ hslot.count_le
      rw [heq] at hlate ⊢
      exact hlate (withdrawFour s) (by rw [withdrawFour, hr.slot]) (by simp [Phase.before, Phase.slot])
        (by simp)
    | @commit _ now commit =>
      obtain ⟨-, hslot, -⟩ := hb.turn rfl
      obtain ⟨s, env, new, heq, -, hr, -⟩ := revalidateBatch_spec (c := c) now hslot.count_le
      rw [heq] at hlate ⊢
      exact hlate s (by rw [hr.slot]) (by simp [Phase.before, Phase.slot]) (Function.update_self ..)
    | apply | simulate => exact happlied (applyOutcome_applied ..) (by simp [Phase.before, Phase.slot])
    | publish version event =>
      rcases recordEvent_cases (c := c) i event { w with state := { w.state with version } } with
        heq | ⟨env, credits, revisions, -, heq⟩ <;> rw [heq] at hlate ⊢
      · exact hlate _ rfl (by simp [Phase.before, Phase.slot]) rfl
      · exact hlate { w.slots i with credits, revisions } rfl (by simp [Phase.before, Phase.slot])
          (Function.update_self ..)
    | @block _ field _ =>
      rcases blockField_cases i field w with heq | heq <;> rw [heq] at hlate ⊢
      · exact hlate _ rfl (by simp [Phase.before, Phase.slot]) rfl
      · exact hlate (blockedSlot (w.slots i) field) rfl (by simp [Phase.before, Phase.slot])
          (Function.update_self ..)
    | stuck heligible =>
      obtain ⟨-, -, hin⟩ := hb.turn rfl
      exact absurd heligible (hin.refused (by simp [Phase.isWalking]) hbatch _)
    | start _ hbegun =>
      obtain ⟨-, -, hin⟩ := hb.turn rfl
      exact absurd hbegun.eligible (hin.refused (by simp [Phase.isWalking]) hbatch _)
    | finish now =>
      obtain ⟨s, env, hs, -, heq⟩ := finish_spec (c := c) i now w
      rw [heq]
      simp only [Function.update_self]
      refine ⟨?_, fun hnot => absurd rfl hnot⟩
      rw [hs]
      exact hu.idle
    | scratch hidle => exact absurd hactive (by rw [hidle]; exact Bool.false_ne_true)
    | reserve hidle => exact absurd hactive (by rw [hidle]; exact Bool.false_ne_true)
    | drop hidle => exact absurd hactive (by rw [hidle]; exact Bool.false_ne_true)
    | activate _ hidle => exact absurd hactive (by rw [hidle]; exact Bool.false_ne_true)
    | release h =>
      obtain ⟨-, -, rfl⟩ := release_spec h
      simp at hactive'
  · cases h with
    | @activate _ now credits gen _ _ hfresh _ hcredits =>
      simp only [emit_slots, setSlot_slots, Function.update_self] at hbatch' ⊢
      obtain ⟨hcount, haction⟩ := isBatch_count hbatch'
      obtain ⟨hrevision, hpublication⟩ := hcredits haction
      refine ⟨?_, fun _ _ => ⟨hrevision.trans hcount, hpublication.trans hcount⟩⟩
      simp [hfresh.running]
    | settle _ hfind => exact absurd (findRunning_eq_some hfind).2.1 hactive
    | own _ hlive' | enter _ _ hlive' | query hlive' | drain hlive' =>
      exact absurd (live_iff.mp hlive').1 hactive
    | scratch _ hs =>
      rw [setSlot_slots, Function.update_self, hs] at hactive'
      cases hactive'
    | reserve _ _ _ _ h =>
      obtain ⟨publisher, port, field, -, rfl⟩ := reserveTicket_spec h
      simp only [Function.update_self] at hactive'
      exact absurd hactive' hactive
    | drop =>
      simp only [dropTokens, setSlot_slots, Function.update_self] at hactive'
      exact absurd hactive' hactive
    | disarm hact | confirm hact => exact absurd hact hactive
    | release h => exact absurd (release_spec h).1 hactive
    | _ => exact absurd (hb.phase i rfl) hactive

/-! ## The values of settings -/

/-- The adjusted values are not changed by the dependencies. -/
theorem propagate_adjusted (p : ExecutionPlan) (errors : UInt32) (f : ℕ) :
    ((propagate p errors).fields f).adjusted = (p.fields f).adjusted := by
  have hfold : ∀ (l : List ℕ) (fields : ℕ → PlannedField),
      (l.foldl (propagateStep errors p.count) fields f).adjusted = (fields f).adjusted := by
    intro l
    induction l with
    | nil => exact fun _ => rfl
    | cons g l ih =>
      intro fields
      rw [List.foldl_cons, ih, propagateStep]
      split
      · by_cases hf : f = g
        · subst hf
          rw [Function.update_self]
          rfl
        · rw [Function.update_of_ne hf]
      · rfl
  exact hfold _ _

/-- Nor by the settlement of the plan. -/
theorem settlePlan_adjusted (s : Slot) (p : ExecutionPlan) (whole : Bool) (f : ℕ) :
    ((settlePlan c s p whole).fields f).adjusted = (p.fields f).adjusted := by
  have hwhole : ((wholePlan p whole).fields f).adjusted = (p.fields f).adjusted := by
    unfold wholePlan
    split <;> rfl
  have hblocked : ((blockedPlan c s p whole).fields f).adjusted = (p.fields f).adjusted := by
    unfold blockedPlan
    split
    · simp only [mapFields]
      split <;> exact hwhole
    · exact hwhole
  rw [← hblocked]
  simp only [settlePlan, markPlan, mapFields]
  split
  · split <;> rfl
  · rfl

theorem refuseIf_adjusted (b : Bool) (errors : UInt32) (v : Validation) :
    (refuseIf b errors v).adjusted = v.adjusted := by
  unfold refuseIf
  split <;> rfl

/-- A radio executes the values that were requested, and only those its profile takes. -/
structure Exact (f : RequestField) (adjusted : SemanticValue) : Prop where
  adjusted : adjusted = f.value
  taken : (sdrValidate f.id f.value).resolvable

theorem sdrValidate_adjusted (id : FieldId) (value : SemanticValue) :
    (sdrValidate id value).adjusted = value := by
  simp only [sdrValidate, checkHertz, Validation.refuse]
  repeat' split
  all_goals rfl

/-- The backend may not adjust a value of a radio. -/
theorem backendValidate_exact {state : StateSnapshot} {f : RequestField} {v : Validation} {e : Env σ}
    (hsdr : c.profile = .sdrRadio) (h : (backendValidate c state f v e).1.resolvable) :
    (backendValidate c state f v e).1.adjusted = v.adjusted ∧ v.resolvable := by
  unfold backendValidate at h ⊢
  split at h
  · exact ⟨rfl, h⟩
  · next validate _ =>
    split at h
    · next hv =>
      rw [if_pos hv]
      dsimp only at h ⊢
      split at h
      · exact absurd h Bool.false_ne_true
      · next hadjusted =>
        simp only [hsdr, true_and, not_not] at hadjusted
        rw [if_neg (by simp [hadjusted])]
        exact ⟨hadjusted, hv⟩
    · next hv => exact absurd h hv

/-- A field of the radio that can be executed has the requested value. -/
theorem validateField_exact {state : StateSnapshot} {action : ℕ} {f : RequestField} {e : Env σ}
    (hsdr : c.profile = .sdrRadio) (haction : action ≠ 0)
    (h : (validateField c state action f e).1.resolvable) :
    Exact f (validateField c state action f e).1.adjusted := by
  unfold validateField at h ⊢
  dsimp only at h ⊢
  split at h
  · exact absurd h Bool.false_ne_true
  · next hsupported =>
    rw [if_neg hsupported]
    generalize hcheck : checkCapabilities c f (profileValidate c f.id f.value) = v at h ⊢
    have hv : v.adjusted = f.value ∧ (v.resolvable → (sdrValidate f.id f.value).resolvable) := by
      rw [← hcheck]
      simp only [checkCapabilities, profileValidate, hsdr]
      split
      · split
        · exact ⟨sdrValidate_adjusted f.id f.value, fun h => absurd h Bool.false_ne_true⟩
        · exact ⟨sdrValidate_adjusted f.id f.value, id⟩
      · exact ⟨sdrValidate_adjusted f.id f.value, id⟩
    rw [if_pos haction]
    split at h
    · exact absurd h Bool.false_ne_true
    · next hnative =>
      rw [if_neg hnative]
      obtain ⟨hadjusted, hresolvable⟩ := backendValidate_exact hsdr h
      exact ⟨hadjusted.trans hv.1, hv.2 hresolvable⟩

theorem plannedField_adjusted (s : Slot) (state : StateSnapshot) (f : RequestField) (v : Validation) :
    (plannedField s state f v).adjusted = v.adjusted := by
  unfold plannedField
  split <;> rfl

/-- The checks of the engine adjust nothing and make nothing resolvable. -/
theorem checkRequest_exact (s : Slot) (state : StateSnapshot) (armed : Bool) (f : RequestField)
    (v : Validation) : (checkRequest c s state armed f v).adjusted = v.adjusted ∧
      ((checkRequest c s state armed f v).resolvable → v.resolvable) := by
  unfold checkRequest
  simp only [refuseIf_adjusted, true_and]
  intro h
  obtain ⟨-, h⟩ := refuseIf_resolvable h
  obtain ⟨-, h⟩ := refuseIf_resolvable h
  obtain ⟨-, h⟩ := refuseIf_resolvable h
  obtain ⟨-, h⟩ := refuseIf_resolvable h
  obtain ⟨-, h⟩ := refuseIf_resolvable h
  obtain ⟨-, h⟩ := refuseIf_resolvable h
  exact (refuseIf_resolvable h).2

/-- So has each field of a plan. -/
theorem validateFields_exact (s : Slot) (state : StateSnapshot) (armed : Bool)
    (hsdr : c.profile = .sdrRadio) (haction : s.action ≠ 0) (fields : List RequestField) (e : Env σ)
    {i : ℕ} (h : ((validateFields c s state armed fields e).1.getD i {}).eligible)
    (hi : i < fields.length) :
    Exact (fields.getD i { id := ⟨0, 0⟩ })
      ((validateFields c s state armed fields e).1.getD i {}).adjusted := by
  induction fields generalizing e i with
  | nil => exact absurd hi (Nat.not_lt_zero i)
  | cons f rest ih =>
    simp only [validateFields] at h ⊢
    cases i with
    | zero =>
      obtain ⟨hadjusted, hresolvable⟩ := checkRequest_exact (c := c) s state armed f
        (validateField c state s.action f e).1
      have hexact := validateField_exact hsdr haction (hresolvable (plannedField_eligible h))
      simp only [List.getD_cons_zero, plannedField_adjusted, hadjusted]
      exact hexact
    | succ i => exact ih _ h (Nat.lt_of_succ_lt_succ hi)

/-- A field that a validation of a radio leaves eligible has the requested value. -/
theorem validatePlan_exact {s : Slot} {state : StateSnapshot} {armed : Bool} {e : Env σ} {f : ℕ}
    (hsdr : c.profile = .sdrRadio) (haction : s.action ≠ 0) (hf : f < s.request.count)
    (h : (validatePlan c s state armed e).2.1.eligible f) :
    Exact (s.request.field f) ((validatePlan c s state armed e).2.1.execution.fields f).adjusted := by
  have hfields := fun h => validateFields_exact (c := c) s state armed hsdr haction s.request.fields e h hf
  rw [validatePlan_eq] at h ⊢
  dsimp only at h ⊢
  split at h
  · next order heq =>
    simp only [Slot.eligible, rawPlan, if_pos hf] at h ⊢
    exact hfields h
  · next order heq =>
    have hprop := propagate_narrows { rawPlan s state.version
      (validateFields c s state armed s.request.fields e).1 with order } dependencyBlocked
    have hraw := (hprop.trans (settlePlan_narrows (c := c) s _ _)).eligible f h
    simp only [settlePlan_adjusted, propagate_adjusted]
    simp only [rawPlan, if_pos hf] at hraw ⊢
    exact hfields hraw

/-! ## Commits -/

/-- A radio gets its four settings together, and neither while data is running nor while a start is
armed. -/
structure CommitAllowed (d : Dispatch) : Prop where
  stopped : ¬d.now.dataRunning
  unarmed : ¬d.armed
  settings : (planIds d.plan).Perm
    [Field.sampleRate, Field.rfReferenceFrequency, Field.bandwidth, Field.gain]
  ready : ∀ f < d.plan.count, (d.plan.fields f).eligible ∧ ¬d.cancelled f
  narrow : ∀ f < d.plan.count, ∀ g < d.plan.count, (d.plan.fields f).id = Field.bandwidth →
    (d.plan.fields g).id = Field.sampleRate → ∀ b ∈ asHertz (d.plan.fields f).adjusted,
    ∀ q ∈ asHertz (d.plan.fields g).adjusted, b ≤ q

/-- Four different fields among which all settings are. -/
theorem settings_perm {ids : List FieldId} (hlength : ids.length = 4)
    (hmem : ∀ id ∈ [Field.sampleRate, Field.rfReferenceFrequency, Field.bandwidth, Field.gain],
      id ∈ ids) :
    ids.Perm [Field.sampleRate, Field.rfReferenceFrequency, Field.bandwidth, Field.gain] := by
  have hnodup : [Field.sampleRate, Field.rfReferenceFrequency, Field.bandwidth, Field.gain].Nodup := by
    decide
  exact ((hnodup.subperm hmem).perm_of_length_le (by rw [hlength]; rfl)).symm

theorem validate_slot (i : ℕ) (s : Slot) (w : Engine σ) :
    (validate c i s w).2.slots i = (validatePlan c s w.state (armed c w i) w.env).2.1 := by
  unfold validate
  dsimp only
  split <;> simp

theorem revalidateBatch_exact {now : OperationContext} {i f : ℕ} (hsdr : c.profile = .sdrRadio)
    (haction : (w.slots i).action ≠ 0) (hf : f < (w.slots i).request.count)
    (h : ((revalidateBatch c now i w).2.slots i).eligible f) :
    Exact ((w.slots i).request.field f)
      (((revalidateBatch c now i w).2.slots i).execution.fields f).adjusted := by
  unfold revalidateBatch at h ⊢
  have hslot := validate_slot (c := c) i { w.slots i with dataRunning := now.dataRunning } w
  generalize (validate c i { w.slots i with dataRunning := now.dataRunning } w).2.slots i = s at h hslot ⊢
  subst hslot
  exact validatePlan_exact (s := { w.slots i with dataRunning := now.dataRunning }) hsdr haction hf h

/-- The field at a position of a request is the only one with its identifier. -/
theorem hertz_field {r : Request} {profile : Profile} (hr : r.WellFormed profile) {f : ℕ}
    (hf : f < r.count) : r.hertz (r.field f).id = asHertz (r.field f).value := by
  have hfield : ∀ g < r.count, r.fields[g]? = some (r.field g) := by
    intro g hg
    rw [Request.field, List.getD_eq_getElem?_getD, List.getElem?_eq_getElem hg]
    rfl
  cases hfind : r.fields.find? fun g => g.id = (r.field f).id with
  | none =>
    have hnot := List.find?_eq_none.mp hfind (r.field f) (List.mem_of_getElem? (hfield f hf))
    simp at hnot
  | some g =>
    obtain ⟨k, hk, hg⟩ := List.mem_iff_getElem.mp (List.mem_of_find?_eq_some hfind)
    have hid := List.find?_some hfind
    have hgk : r.field k = g := by
      have h := hfield k hk
      rw [List.getElem?_eq_getElem hk, hg] at h
      exact (Option.some.inj h).symm
    have hkf : k = f := hr.field_injective hk hf (by rw [hgk]; simpa using hid)
    rw [Request.hertz, hfind, ← hkf, hgk]
    rfl

/-- What is committed was asked for, and it was validated against the state at that time. -/
theorem commit_allowed {i : ℕ} {now : OperationContext} {d : Dispatch}
    {commit : ExecutionPlan → Boundary → σ → Reply σ BatchOutcome} (hsdr : c.profile = .sdrRadio)
    (hb : Base c (.checked i now) w) (hready : Ready c w i) (hvalid : (revalidateBatch c now i w).1)
    (heligible : ∀ f < 4, ((revalidateBatch c now i w).2.slots i).eligible f)
    (hlog : (callCommit c commit now i (revalidateBatch c now i w).2).2.log = w.log ++ [.dispatched d]) :
    CommitAllowed d := by
  obtain ⟨-, hslot, -⟩ := hb.turn rfl
  obtain ⟨hcount, haction⟩ := isBatch_count hready.batch
  rw [hslot.count] at hcount
  obtain ⟨d', hlog', hsends⟩ := @commit_sends σ c w i now commit hb hready hvalid heligible
  obtain rfl : d = d' := by
    have h := hlog.symm.trans hlog'
    simpa using h
  -- the plan is that of the last validation
  have hplan : d.plan = ((revalidateBatch c now i w).2.slots i).execution := by
    have h : (callCommit c commit now i (revalidateBatch c now i w).2).2.log.getLast? =
        some (.dispatched d) := by
      rw [hlog]
      simp
    simp only [callCommit, call, emit, List.getLast?_concat, Option.some.injEq,
      Event.dispatched.injEq] at h
    rw [← h]
  have hexact : ∀ f < 4, Exact ((w.slots i).request.field f) (d.plan.fields f).adjusted := by
    intro f hf
    rw [hplan]
    exact revalidateBatch_exact hsdr (by omega) (by omega) (heligible f hf)
  cases hsends with
  | @batch _ s hready hplanned hel haccepted =>
    have hpc : s.execution.count = 4 := hplanned.count.trans hcount
    have hid : ∀ f < 4, (s.execution.fields f).id = ((w.slots i).request.field f).id :=
      fun f hf => hplanned.id f (by rw [hcount]; exact hf)
    obtain ⟨hconfig, hstopped, hunarmed⟩ : sdrConfiguration (w.slots i).request ∧
        ¬now.dataRunning ∧ ¬armed c w i := by
      have hcomplete := (haccepted 0 (by omega)).complete
      have hcam : (w.slots i).request.cam.action ≠ 0 := by
        rw [Slot.action] at haction
        omega
      simp only [incompleteSdr, decide_eq_true_eq, hsdr, hcam, hcount, true_and, not_or, not_and,
        not_false_eq_true, ne_eq] at hcomplete
      obtain ⟨hsettings, hfree⟩ := hcomplete
      have hconfig : sdrConfiguration (w.slots i).request := by
        by_contra hnot
        exact hsettings hnot (fun h => absurd h (by decide))
      exact ⟨hconfig, hfree hconfig⟩
    have hids : ∀ id, (w.slots i).request.has id → id ∈ planIds s.execution := by
      intro id hhas
      simp only [Request.has, decide_eq_true_eq] at hhas
      obtain ⟨f, hf, rfl⟩ := hhas
      obtain ⟨k, hk, rfl⟩ := List.mem_iff_getElem.mp hf
      have hk4 : k < 4 := by rwa [← hcount]
      refine List.mem_map.mpr ⟨k, List.mem_range.mpr (by rwa [hpc]), ?_⟩
      rw [hid k hk4, Request.field, List.getD_eq_getElem?_getD, List.getElem?_eq_getElem hk]
      rfl
    simp only [sdrConfiguration, decide_eq_true_eq] at hconfig
    obtain ⟨-, hrate, hcenter, hwidth, hgain⟩ := hconfig
    refine ⟨hstopped, hunarmed, settings_perm ?_ ?_, ?_, ?_⟩
    · rw [planIds, List.length_map, List.length_range, hpc]
    · simp only [List.mem_cons, List.not_mem_nil, or_false, forall_eq_or_imp, forall_eq]
      exact ⟨hids _ hrate, hids _ hcenter, hids _ hwidth, hids _ hgain⟩
    · intro f hf
      dsimp only at hf
      rw [hpc] at hf
      exact ⟨hel f hf, hready.cancelled f hf⟩
    · intro f hf g hg hfid hgid b hb q hq
      dsimp only at hf hg hfid hgid hb hq hexact
      rw [hpc] at hf hg
      rw [hid f hf] at hfid
      rw [hid g hg] at hgid
      rw [(hexact f hf).adjusted, ← hertz_field hslot.wellFormed (by omega), hfid] at hb
      rw [(hexact g hg).adjusted, ← hertz_field hslot.wellFormed (by omega), hgid] at hq
      exact (haccepted f (by omega)).narrow hfid q hq b hb

/-- All settings of a radio were committed as they should be. -/
def CommitsAllowed (w : Engine σ) : Prop :=
  ∀ d, .dispatched d ∈ w.log → d.batch → CommitAllowed d

/-- A move logs a batch only by a commit. -/
theorem Act.commit_allowed {i : ℕ} {d : Dispatch} (hb : Base c p w) (h : Act c i p w p' w')
    (hsdr : c.profile = .sdrRadio) (hlog : w'.log = w.log ++ [.dispatched d]) (hbatch : d.batch)
    (hsends : Sends c i w p d) : CommitAllowed d := by
  have hgrown : w'.log ≠ w.log := by
    rw [hlog]
    simp
  cases hsends with
  | field => cases hbatch
  | batch =>
    cases h with
    | boundary | single | unready => exact absurd rfl hgrown
    | recheck =>
      obtain ⟨-, hslot, -⟩ := hb.turn rfl
      obtain ⟨s, env, new, heq, -, -, hnew, -⟩ := revalidateBatch_spec (c := c) _ hslot.count_le
      rw [heq] at hlog
      have hlog := List.append_cancel_left hlog
      rcases hnew with ⟨-, rfl⟩ | ⟨-, rfl⟩ <;> simp at hlog
    | commit hready hvalid heligible =>
      exact Engine.commit_allowed hsdr hb hready hvalid heligible hlog

/-- Every act keeps the commits to what is allowed. -/
theorem commitsAllowed_act {i : ℕ} (hb : Base c p w) (hsdr : c.profile = .sdrRadio)
    (hw : CommitsAllowed w) (h : Act c i p w p' w') : CommitsAllowed w' := by
  intro d hd hbatch
  rcases h.sends hb with ⟨new, hlog, hnone⟩ | ⟨d', hlog, hsends⟩
  · rw [hlog] at hd
    exact hw d ((List.mem_append.mp hd).resolve_right (hnone d)) hbatch
  · rw [hlog] at hd
    rcases List.mem_append.mp hd with hd | hd
    · exact hw d hd hbatch
    · obtain rfl := Event.dispatched.inj (List.mem_singleton.mp hd)
      exact h.commit_allowed hb hsdr hlog hbatch hsends

/-! ## Turns with a commit -/

/-- The events that the effect sink was given. -/
def effects (log : List Event) : List EffectiveEvent :=
  log.filterMap fun e => match e with
    | .effect _ event => some event
    | _ => none

/-- What a step of a turn before its commit leaves as it is. -/
structure Keeps (i : ℕ) (w w' : Engine σ) : Prop where
  state : w'.state = w.state
  request : (w'.slots i).request = (w.slots i).request
  credits : (w'.slots i).credits = (w.slots i).credits
  count : (w'.slots i).execution.count = (w.slots i).execution.count
  log : ∃ new, w'.log = w.log ++ new ∧ (∀ d, .dispatched d ∉ new) ∧ effects new = []

theorem Keeps.refl {i : ℕ} : Keeps i w w := 
  ⟨rfl, rfl, rfl, rfl, [], (List.append_nil _).symm, by simp, rfl⟩

/-- What is kept twice is kept. -/
theorem Keeps.trans {i : ℕ} {w'' : Engine σ} (h : Keeps i w w') (h' : Keeps i w' w'') :
    Keeps i w w'' := by
  obtain ⟨new, hlog, hnone, heffects⟩ := h.log
  obtain ⟨new', hlog', hnone', heffects'⟩ := h'.log
  refine ⟨h'.state.trans h.state, h'.request.trans h.request, h'.credits.trans h.credits,
    h'.count.trans h.count, new ++ new', ?_, ?_, ?_⟩
  · rw [hlog', hlog, List.append_assoc]
  · intro d hd
    exact (List.mem_append.mp hd).elim (hnone d) (hnone' d)
  · rw [effects, List.filterMap_append]
    exact List.append_eq_nil_iff.mpr ⟨heffects, heffects'⟩

/-- The log goes on without settings of a radio. -/
def Uncommitted (w w' : Engine σ) : Prop :=
  ∃ new, w'.log = w.log ++ new ∧ ∀ d, .dispatched d ∈ new → ¬d.batch

theorem Uncommitted.refl : Uncommitted w w := ⟨[], (List.append_nil _).symm, by simp⟩

theorem Uncommitted.trans {w'' : Engine σ} (h : Uncommitted w w') (h' : Uncommitted w' w'') :
    Uncommitted w w'' := by
  obtain ⟨new, hlog, hnone⟩ := h
  obtain ⟨new', hlog', hnone'⟩ := h'
  refine ⟨new ++ new', by rw [hlog', hlog, List.append_assoc], fun d hd => ?_⟩
  exact (List.mem_append.mp hd).elim (hnone d) (hnone' d)

theorem Keeps.uncommitted {i : ℕ} (h : Keeps i w w') : Uncommitted w w' := by
  obtain ⟨new, hlog, hnone, -⟩ := h.log
  exact ⟨new, hlog, fun d hd => absurd hd (hnone d)⟩

theorem Uncommitted.of_log (h : w'.log = w.log) : Uncommitted w w' := ⟨[], by simp [h], by simp⟩

theorem finish_uncommitted (i : ℕ) (now : OperationContext) (w : Engine σ) :
    Uncommitted w (finish c i now w) := by
  obtain ⟨s, env, -, -, h⟩ := finish_spec (c := c) i now w
  exact ⟨_, by rw [h], by simp⟩

theorem applyOutcome_uncommitted (publish : Bool) (i field : ℕ) (reported : FieldOutcome)
    (w : Engine σ) : Uncommitted w (applyOutcome c publish i field reported w) := by
  obtain ⟨told, hlog, htold, -⟩ := (applyOutcome_applied (c := c) publish i field reported w).log
  refine ⟨_, by rw [hlog, List.append_assoc], fun d hd => ?_⟩
  rcases List.mem_append.mp hd with hd | hd
  · cases htold _ hd
  · simp at hd

/-- A field that is begun commits nothing yet. -/
theorem beginField_uncommitted (start : PlannedField → Boundary → AsyncResult → σ → Reply σ Bool)
    (now : OperationContext) (i field : ℕ) (w : Engine σ) :
    Uncommitted w (beginField c start now i field w) := by
  have hrefused : ∀ (cap : AsyncResult) (id : FieldId) (begun : Bool) (v : Engine σ),
      (completeRefused cap id begun v).log = v.log := by
    intro cap id begun v
    unfold completeRefused
    split <;> rfl
  have hlog : (beginField c start now i field w).log = (dispatchField c now i field w).log :=
    hrefused ..
  rw [Uncommitted, hlog]
  exact ⟨[_], rfl, by simp⟩

/-- The fields are begun one at a time. -/
theorem walk_uncommitted (now : OperationContext) (i n : ℕ) (w : Engine σ) :
    Uncommitted w (walk c now i n w).2 := by
  induction n generalizing w with
  | zero => exact finish_uncommitted i now w
  | succ n ih =>
    simp only [walk]
    split
    · exact (Uncommitted.of_log (by rfl)).trans (ih _)
    · have hblock : Uncommitted w (blockField i ((w.slots i).execution.order (w.slots i).step) w) := by
        rcases blockField_cases i ((w.slots i).execution.order (w.slots i).step) w with h | h <;> rw [h]
        · exact .refl
        · refine ⟨_, rfl, ?_⟩
          split <;> simp
      refine hblock.trans ?_
      generalize blockField i ((w.slots i).execution.order (w.slots i).step) w = v
      split
      · exact (Uncommitted.of_log (by rfl)).trans (ih _)
      · split
        · split
          · exact .refl
          · exact (applyOutcome_uncommitted true i _ _ (v.call _).2).trans (ih _)
        · split
          · exact .refl
          · split
            · exact .refl
            · exact beginField_uncommitted _ now i _ v

theorem Keeps.setSlot {i : ℕ} {s : Slot} (hrequest : s.request = (w.slots i).request)
    (hcredits : s.credits = (w.slots i).credits)
    (hcount : s.execution.count = (w.slots i).execution.count) : Keeps i w (w.setSlot i s) := by
  refine ⟨rfl, ?_, ?_, ?_, [], (List.append_nil _).symm, by simp, rfl⟩
  all_goals
    rw [setSlot_slots, Function.update_self]
    assumption

theorem Rescheduled.keeps {i : ℕ} {s : Slot} (h : Rescheduled (w.slots i) s) :
    Keeps i w (w.setSlot i s) :=
  .setSlot (by rw [h.slot]) (by rw [h.slot]) h.plan.count

/-- What a validation adds to the log. -/
theorem Keeps.validated {i : ℕ} {s : Slot} {env : Env σ} {new : List Event}
    (hrequest : s.request = (w.slots i).request) (hcredits : s.credits = (w.slots i).credits)
    (hcount : s.execution.count = (w.slots i).execution.count)
    (hnew : new = [] ∨ new = [.disordered (w.slots i).sequence]) :
    Keeps i w { w with slots := Function.update w.slots i s, env, log := w.log ++ new } := by
  refine ⟨rfl, ?_, ?_, ?_, new, rfl, ?_, ?_⟩
  · simpa using hrequest
  · simpa using hcredits
  · simpa using hcount
  · rcases hnew with rfl | rfl <;> simp
  · rcases hnew with rfl | rfl <;> rfl

/-- A second validation keeps the request and its plan. -/
theorem revalidate_keeps (now : OperationContext) {i : ℕ} (hcount : (w.slots i).request.count ≤ 8)
    (hplan : (w.slots i).execution.count = (w.slots i).request.count) :
    Keeps i w (revalidate c now i w) := by
  by_cases h : (w.slots i).revalidated
  · have hsame : revalidate c now i w = w := by
      unfold revalidate
      rw [if_pos h]
    rw [hsame]
    exact .refl
  · obtain ⟨s, env, new, heq, -, hr, hnew⟩ := @revalidate_spec σ c w now i h hcount
    rw [heq]
    refine .validated (by rw [hr.slot]) (by rw [hr.slot]) (hr.count.trans hplan.symm) ?_
    exact hnew.imp And.right id

theorem revalidateBatch_keeps (now : OperationContext) {i : ℕ}
    (hcount : (w.slots i).request.count ≤ 8)
    (hplan : (w.slots i).execution.count = (w.slots i).request.count) :
    Keeps i w (revalidateBatch c now i w).2 := by
  obtain ⟨s, env, new, heq, -, hr, hnew, -⟩ := revalidateBatch_spec (c := c) now hcount
  rw [heq]
  refine .validated (by rw [hr.slot]) (by rw [hr.slot]) (hr.count.trans hplan.symm) ?_
  exact hnew.imp And.right And.right

/-- The turn of the slot `i` commits a radio's settings, with `v` right before it. -/
structure Committing (c : Config σ) (now : OperationContext) (i : ℕ) (w v w' : Engine σ) : Prop where
  kept : Keeps i w v
  batch : (w.slots i).isBatch c
  commits : ∃ commit, w' = finish c i now (commitBatch c commit now i v)

theorem Keeps.isBatch {i : ℕ} (h : Keeps i w w') (hbatch : (w'.slots i).isBatch c) :
    (w.slots i).isBatch c := by
  rw [Slot.isBatch, Slot.action, h.request, h.count] at hbatch
  exact hbatch

theorem Keeps.committing {now : OperationContext} {i : ℕ} {v u : Engine σ} (h : Keeps i w w')
    (hc : Committing c now i w' v u) : Committing c now i w v u :=
  ⟨h.trans hc.kept, h.isBatch hc.batch, hc.commits⟩

/-- A turn that is carried out commits nothing, or one batch. -/
theorem carryOut_cases (now : OperationContext) {i : ℕ} (hcount : (w.slots i).request.count ≤ 8)
    (hplan : (w.slots i).execution.count = (w.slots i).request.count) :
    Uncommitted w (carryOut c now i w).2 ∨ ∃ v, Committing c now i w v (carryOut c now i w).2 := by
  have hrecheck : Keeps i w (recheck c now i w).2 := by
    unfold recheck
    dsimp only
    split
    · exact revalidateBatch_keeps now hcount hplan
    · exact .refl
  unfold carryOut
  dsimp only
  split
  · next hbatch =>
    split
    · next commit v _ heq =>
      rw [heq] at hrecheck
      exact .inr ⟨v, hrecheck, by simpa [Slot.isBatch] using hbatch, commit, rfl⟩
    · next v heq _ =>
      rw [heq] at hrecheck
      exact .inl (hrecheck.uncommitted.trans ((Uncommitted.of_log (by rfl)).trans
        (walk_uncommitted now i _ _)))
  · exact .inl (walk_uncommitted now i _ w)

/-- A turn commits the settings of a radio, or it does not and begins at most one field. -/
theorem turn_cases {now : OperationContext} {running : Bool} {i : ℕ} (hb : Base c .idle w) :
    Uncommitted w (turn c now running i w).2 ∨
      (w.slots i).live ∧ ∃ v, Committing c now i w v (turn c now running i w).2 := by
  have hattempt : ∀ v : Engine σ, Keeps i w v → (w.slots i).request.count ≤ 8 →
      (w.slots i).execution.count = (w.slots i).request.count →
      Uncommitted w (attempt c now i v).2 ∨ ∃ u, Committing c now i w u (attempt c now i v).2 := by
    intro v hv hcount hplan
    have hkeeps := hv.trans (validateBoundaryState_rescheduled (c := c) v.timeline (v.slots i)).keeps
    rw [← hkeeps.request] at hcount hplan
    rw [← hkeeps.count] at hplan
    rcases carryOut_cases (c := c) now hcount hplan with h | ⟨u, h⟩
    · exact .inl (hkeeps.uncommitted.trans h)
    · exact .inr ⟨u, hkeeps.committing h⟩
  unfold turn
  dsimp only
  split
  · exact .inl .refl
  · next hlive =>
    have hlive : (w.slots i).live := by simpa using hlive
    obtain ⟨hactive, -⟩ := live_iff.mp hlive
    have hslot := hb.slot i hactive
    split
    · exact .inl ((Uncommitted.of_log (by rfl)).trans (finish_uncommitted i now _))
    · split
      · exact .inl .refl
      · split
        · exact .inl .refl
        · split
          · exact .inl (finish_uncommitted i now w)
          · have hkeeps := revalidate_keeps (c := c) now hslot.count_le hslot.count
            generalize revalidate c now i w = v at hkeeps ⊢
            unfold execute
            dsimp only
            have hr := reschedule_rescheduled (c := c) now (v.slots i)
            split
            · split
              · refine .inl (hkeeps.uncommitted.trans ⟨[_], rfl, ?_⟩)
                simp
              · refine (hattempt _ (hkeeps.trans (hr.trans (checkWindow_rescheduled now _)).keeps)
                  hslot.count_le hslot.count).imp_right fun h => ⟨hlive, h⟩
            · exact (hattempt v hkeeps hslot.count_le hslot.count).imp_right fun h => ⟨hlive, h⟩

/-- The state after at most `n` changes. -/
def Changed (n : ℕ) (state state' : StateSnapshot) : Prop :=
  state' = state ∨ ∃ k, 0 < k ∧ k ≤ n ∧ state'.version = (state.version + k) % 2 ^ 64

theorem Changed.trans {n m : ℕ} {state state' state'' : StateSnapshot} (h : Changed n state state')
    (h' : Changed m state' state'') : Changed (n + m) state state'' := by
  rcases h' with rfl | ⟨k', hpos', hle', hversion'⟩
  · rcases h with rfl | ⟨k, hpos, hle, hversion⟩
    · exact .inl rfl
    · exact .inr ⟨k, hpos, by omega, hversion⟩
  · rcases h with rfl | ⟨k, hpos, hle, hversion⟩
    · exact .inr ⟨k', hpos', by omega, hversion'⟩
    · refine .inr ⟨k + k', by omega, by omega, ?_⟩
      rw [hversion', hversion, Nat.mod_add_mod, Nat.add_assoc]

/-- A few changes never lead back to the same version. -/
theorem Changed.version_ne {n : ℕ} {state state' : StateSnapshot} (h : Changed n state state')
    (hn : n ≤ 4) (hne : state' ≠ state) : state'.version ≠ state.version := by
  rcases h with h | ⟨k, hpos, hle, hversion⟩
  · exact absurd h hne
  · rw [hversion]
    omega

theorem changedState_changed {state state' : StateSnapshot} {planned : PlannedField} {o : FieldOutcome}
    {k : Fin 8} (h : changedState state planned o k = some state') : Changed 1 state state' := by
  simp only [changedState, Option.ite_none_right_eq_some, Option.some.injEq] at h
  obtain ⟨-, rfl⟩ := h
  exact .inr ⟨1, by decide, le_refl 1, rfl⟩

/-- What `n` outcomes of a batch change, of which the effect sink is not told. -/
structure Muted (n i : ℕ) (w w' : Engine σ) : Prop where
  state : Changed n w.state w'.state
  credits : (w'.slots i).credits = (w.slots i).credits
  log : ∃ new, w'.log = w.log ++ new ∧ effects new = []

theorem Muted.trans {n m i : ℕ} {w'' : Engine σ} (h : Muted n i w w') (h' : Muted m i w' w'') :
    Muted (n + m) i w w'' := by
  obtain ⟨new, hlog, heffects⟩ := h.log
  obtain ⟨new', hlog', heffects'⟩ := h'.log
  refine ⟨h.state.trans h'.state, h'.credits.trans h.credits, new ++ new',
    by rw [hlog', hlog, List.append_assoc], ?_⟩
  rw [effects, List.filterMap_append]
  exact List.append_eq_nil_iff.mpr ⟨heffects, heffects'⟩

/-- An outcome that is stored without publication raises the version by one at most. -/
theorem storeOutcome_muted (i : ℕ) (planned : PlannedField) (o : FieldOutcome) (w : Engine σ) :
    Muted 1 i w (storeOutcome c false i planned o w) := by
  unfold storeOutcome
  dsimp only
  generalize hf : (if o.status = .unknownEffect then { w with faulted := true } else w) = v
  have hv : v.slots = w.slots ∧ v.state = w.state ∧ v.log = w.log := by
    rw [← hf]
    split <;> exact ⟨rfl, rfl, rfl⟩
  obtain ⟨hslots, hstate, hlog⟩ := hv
  have hnone : Muted 1 i w v :=
    ⟨.inl hstate, by rw [hslots], [], by rw [hlog, List.append_nil], rfl⟩
  split
  · exact hnone
  · split
    · exact hnone
    · next state hchanged =>
      rw [if_neg Bool.false_ne_true]
      refine ⟨?_, by rw [emit_slots, hslots], [_], by rw [emit_log, hlog], rfl⟩
      rw [← hstate]
      exact changedState_changed hchanged

/-- So does one that is applied without publication. -/
theorem applyOutcome_muted (i field : ℕ) (reported : FieldOutcome) (w : Engine σ) :
    Muted 1 i w (applyOutcome c false i field reported w) := by
  unfold applyOutcome
  dsimp only
  generalize settledOutcome c w.quiescing (w.slots i) ((w.slots i).execution.fields field)
    reported = o
  have hrecord : ∀ v : Engine σ, Muted 1 i w v →
      Muted 1 i w ((v.setSlot i (recordOutcome (v.slots i) field o)).emit
        (.recorded (w.slots i).sequence (w.slots i).request.cam o)) := by
    intro v hv
    obtain ⟨new, hlog, heffects⟩ := hv.log
    refine ⟨hv.state, ?_, new ++ [.recorded (w.slots i).sequence (w.slots i).request.cam o], ?_, ?_⟩
    · rw [emit_slots, setSlot_slots, Function.update_self, recordOutcome_eq]
      exact hv.credits
    · rw [emit_log, ← List.append_assoc, ← hlog]
      rfl
    · rw [effects, List.filterMap_append]
      exact List.append_eq_nil_iff.mpr ⟨heffects, rfl⟩
  refine hrecord _ ?_
  split
  · split
    · exact ⟨.inl rfl, rfl, [], (List.append_nil _).symm, rfl⟩
    · exact ⟨.inl rfl, by rw [setSlot_slots, Function.update_self], [], (List.append_nil _).symm, rfl⟩
  · exact storeOutcome_muted i _ o w

theorem applyBatch_muted (i : ℕ) (status : FieldStatus) (batch : BatchOutcome) (w : Engine σ) :
    Muted 4 i w (applyBatch c i status batch w) :=
  (((applyOutcome_muted i 0 _ w).trans (applyOutcome_muted i 1 _ _)).trans
    (applyOutcome_muted i 2 _ _)).trans (applyOutcome_muted i 3 _ _)

/-- A bundle with credits of a revision and its publication can hand them over. -/
theorem transfer_one {b : AdmissionBundle} (hrevision : 0 < b.held .revision)
    (hpublication : 0 < b.held .contextPublication) : ∃ credits rest,
    b.transfer ((AdmissionRequest.none.need .revision 1).need .contextPublication 1) =
      .ok (credits, rest) := by
  cases b with
  | none => exact absurd hrevision (Nat.lt_irrefl 0)
  | some held =>
    have hallowed : ¬∃ r ∈ Resource.all,
        (AdmissionRequest.none.need .revision 1).need .contextPublication 1 r > held r := by
      rintro ⟨r, -, hr⟩
      refine absurd hr (Nat.not_lt.mpr ?_)
      cases r <;> simp [AdmissionRequest.none, AdmissionRequest.need]
      · exact hrevision
      · exact hpublication
    exact ⟨_, _, by simp only [AdmissionBundle.transfer, rejectIf_of_not hallowed]; rfl⟩

/-- An event is recorded as long as there are credits for it. -/
theorem recordEvent_told {i : ℕ} {event : EffectiveEvent} (hsink : c.effects.record.isSome)
    (hrevision : 0 < (w.slots i).credits.held .revision)
    (hpublication : 0 < (w.slots i).credits.held .contextPublication) :
    (recordEvent c i event w).log = w.log ++ [.effect (w.slots i).sequence event] := by
  obtain ⟨record, hrecord⟩ := Option.isSome_iff_exists.mp hsink
  unfold recordEvent
  dsimp only
  obtain ⟨credits, rest, htransfer⟩ := transfer_one hrevision hpublication
  rw [hrecord, htransfer]
  rfl

/-- What was logged between two states of a run. -/
def since (w w' : Engine σ) : List Event := w'.log.drop w.log.length

theorem since_eq {new : List Event} (h : w'.log = w.log ++ new) : since w w' = new := by
  rw [since, h, List.drop_left]

/-- A radio's settings were committed. -/
def Event.isCommit : Event → Bool
  | .dispatched d => d.batch
  | _ => false

def Commits (w w' : Engine σ) : Prop := ∃ e ∈ since w w', Event.isCommit e

theorem Uncommitted.not_commits (h : Uncommitted w w') : ¬Commits w w' := by
  obtain ⟨new, hlog, hnone⟩ := h
  rintro ⟨e, he, hcommit⟩
  rw [since_eq hlog] at he
  cases e with
  | dispatched d => exact hnone d he hcommit
  | _ => cases hcommit

/-- What is expected of a commit that changes the state. -/
structure ChangedOnce (c : Config σ) (w w' : Engine σ) : Prop where
  version : w'.state.version = w.state.version + 1
  effect : c.effects.record.isSome → ∃ event, effects (since w w') = [event] ∧ event.state = w'.state

/-- A commit that changes the state is one change of its version, and one event. -/
theorem commitBatch_changed {commit : ExecutionPlan → Boundary → σ → Reply σ BatchOutcome}
    {now : OperationContext} {i : ℕ}
    (hrevision : 0 < (w.slots i).credits.held .revision)
    (hpublication : 0 < (w.slots i).credits.held .contextPublication)
    (hchanged : (commitBatch c commit now i w).state ≠ w.state) :
    (commitBatch c commit now i w).state.version = (w.state.version + 1) % 2 ^ 64 ∧
      ∃ new, (commitBatch c commit now i w).log = w.log ++ new ∧
        (c.effects.record.isSome → ∃ event, effects new = [event] ∧
          event.state = (commitBatch c commit now i w).state) := by
  unfold commitBatch at hchanged ⊢
  dsimp only at hchanged ⊢
  have hcall : (callCommit c commit now i w).2.slots = w.slots ∧
      (callCommit c commit now i w).2.state = w.state ∧
      ∃ d, (callCommit c commit now i w).2.log = w.log ++ [.dispatched d] :=
    ⟨rfl, rfl, _, rfl⟩
  generalize (callCommit c commit now i w).1 = batch at hchanged ⊢
  generalize (callCommit c commit now i w).2 = v at hcall hchanged ⊢
  obtain ⟨hslots, hstate, d, hdispatched⟩ := hcall
  have hmuted := applyBatch_muted (c := c) i (batchStatus batch) batch v
  generalize applyBatch c i (batchStatus batch) batch v = u at hmuted hchanged ⊢
  obtain ⟨new, hlog, heffects⟩ := hmuted.log
  have hcredits := hmuted.credits
  rw [hslots] at hcredits
  unfold publishBatch at hchanged ⊢
  dsimp only at hchanged ⊢
  split at hchanged
  · next hne =>
    rw [if_pos hne]
    generalize hevent : ({ state := { u.state with version := (v.state.version + 1) % 2 ^ 64 }
                           actualTime := batch.actualTime, sampleOrdinal := 0
                           sourceOperation := (w.slots i).execution.operation
                           associationGeneration := (w.slots i).execution.associationGeneration
                           changedMask := 0x72, timeKnown := batch.timeKnown, ordinalKnown := false
                           outcome := (u.slots i).outcomes 0 } : EffectiveEvent) = event
    have hrecorded : ∀ x : Engine σ, (recordEvent c i event x).state = x.state := by
      intro x
      rcases recordEvent_cases (c := c) i event x with h | ⟨_, _, _, -, h⟩ <;> rw [h]
    rw [hrecorded]
    refine ⟨by rw [hstate], ?_⟩
    by_cases hsink : c.effects.record.isSome
    · refine ⟨.dispatched d :: new ++ [.effect (u.slots i).sequence event], ?_, fun _ => ⟨event, ?_, ?_⟩⟩
      · rw [recordEvent_told hsink (by rw [hcredits]; exact hrevision)
          (by rw [hcredits]; exact hpublication)]
        simp only [hlog, hdispatched, List.append_assoc, List.cons_append, List.nil_append]
      · rw [List.cons_append, effects, List.filterMap_cons, List.filterMap_append]
        rw [effects] at heffects
        rw [heffects]
        rfl
      · rw [← hevent]
    · rcases recordEvent_cases (c := c) i event { u with state := { u.state with
        version := (v.state.version + 1) % 2 ^ 64 } } with h | ⟨_, _, _, -, h⟩
      · exact ⟨.dispatched d :: new, by rw [h, hlog, hdispatched]; simp, fun h => absurd h hsink⟩
      · exact ⟨.dispatched d :: new ++ [_], by rw [h, hlog, hdispatched]; simp; rfl,
          fun h => absurd h hsink⟩
  · next heq =>
    have hne := hmuted.state.version_ne (le_refl 4) (by rwa [hstate])
    exact absurd hne heq

/-- A turn that commits settings and changes the state with it. -/
theorem turn_commits {now : OperationContext} {running : Bool} {i : ℕ} (hb : Base c .idle w)
    (hunspent : (w.slots i).active → (w.slots i).isBatch c → Unspent .idle i (w.slots i))
    (hcommits : Commits w (turn c now running i w).2)
    (hchanged : (turn c now running i w).2.state ≠ w.state) :
    ChangedOnce c w (turn c now running i w).2 ↔ w.state.version < uint64Max := by
  rcases @turn_cases σ c w now running i hb with
    h | ⟨hlive, v, hkept, hisBatch, commit, hcommit⟩
  · exact absurd hcommits h.not_commits
  obtain ⟨hactive, hnot⟩ := live_iff.mp hlive
  obtain ⟨hrevision, hpublication⟩ :=
    (hunspent hactive hisBatch).credits (by simpa using hnot) (by simp [Phase.before, Phase.slot])
  rw [← hkept.credits] at hrevision hpublication
  rw [hcommit] at hchanged ⊢
  obtain ⟨s, env, -, -, hfinish⟩ := finish_spec (c := c) i now (commitBatch c commit now i v)
  rw [hfinish] at hchanged ⊢
  dsimp only at hchanged
  obtain ⟨hversion, committed, hcommitted, heffect⟩ := @commitBatch_changed σ c v commit now i
    (by omega) (by omega) (by rwa [hkept.state])
  obtain ⟨kept, hkeptLog, -, hkeptEffects⟩ := hkept.log
  generalize commitBatch c commit now i v = u at hversion hcommitted heffect hchanged ⊢
  have heffects : effects (kept ++ (committed ++ [.completed (u.slots i).sequence])) =
      effects committed := by
    rw [effects] at hkeptEffects
    rw [effects, List.filterMap_append, List.filterMap_append, hkeptEffects, List.nil_append]
    exact List.append_nil _
  have hnew : u.log ++ [.completed (u.slots i).sequence] =
      w.log ++ (kept ++ (committed ++ [.completed (u.slots i).sequence])) := by
    rw [hcommitted, hkeptLog, List.append_assoc, List.append_assoc]
  rw [hkept.state] at hversion
  have hmax : uint64Max + 1 = 2 ^ 64 := rfl
  constructor
  · intro h
    have hraised := h.version
    rw [hversion] at hraised
    have := Nat.mod_lt (w.state.version + 1) (Nat.two_pow_pos 64)
    omega
  · intro hlt
    refine ⟨?_, fun hsink => ?_⟩
    · rw [hversion]
      exact Nat.mod_eq_of_lt (by omega)
    · rw [since_eq hnew, heffects]
      exact heffect hsink

/-! ## Runs -/

/-- What holds throughout a run of a radio. -/
structure Lifecycle (c : Config σ) (p : Phase) (w : Engine σ) : Prop where
  one : OneArmed c w
  commits : CommitsAllowed w
  unspent : ∀ j, (w.slots j).active → (w.slots j).isBatch c → Unspent p j (w.slots j)

theorem lifecycle_initial (ext : σ) (pool : AdmissionPool) (state : StateSnapshot)
    (timeline : Option SampleTimeline) : Lifecycle c .idle (initial ext pool state timeline) := by
  refine ⟨fun i _ j _ hi => ?_, fun d hd => ?_, fun j hj => ?_⟩
  · exact absurd (armedStart_iff.mp hi).1 (by simp [initial])
  · simp [initial] at hd
  · simp [initial] at hj

/-- Every act keeps the lifecycle. -/
theorem lifecycle_act {i : ℕ} (hb : Base c p w) (hsdr : c.profile = .sdrRadio)
    (hw : Lifecycle c p w) (h : Act c i p w p' w') : Lifecycle c p' w' := by
  refine ⟨oneArmed_act hb hsdr hw.one h, commitsAllowed_act hb hsdr hw.commits h,
    fun j hactive hbatch => ?_⟩
  by_cases hj : j = i
  · subst hj
    exact h.unspent hb (hw.unspent j) hactive hbatch
  · have hframe := h.frame hb
    rw [hframe.slots j hj] at hactive hbatch ⊢
    have hu := hw.unspent j hactive hbatch
    exact ⟨hu.idle, fun hnot _ => hu.credits hnot fun hp => absurd (hframe.before j hp) hj⟩

theorem lifecycle_still (hw : Lifecycle c p w) (h : Still p w w') : Lifecycle c p w' := by
  refine ⟨fun i hi j hj hiarmed hjarmed => ?_, ?_, fun j hactive hbatch => ?_⟩
  · exact hw.one i hi j hj (h.armedStart hiarmed) (h.armedStart hjarmed)
  · rw [CommitsAllowed, h.log]
    exact hw.commits
  · rw [h.slots j] at hactive hbatch ⊢
    have hu := hw.unspent j hactive hbatch
    exact ⟨hu.idle, hu.credits⟩

/-- The lifecycle of a radio: at most one start is armed, settings are committed only when and as they
may be, and a commit that changes the state raises the version by one and records one event as long as
the version is not the last one. -/
theorem radio_lifecycle (hsdr : c.profile = .sdrRadio) :
    (∀ w, Reachable c w → OneArmed c w ∧ CommitsAllowed w) ∧
      ∀ now running i w, AtTurn c now running i w → OneArmed c w ∧ CommitsAllowed w ∧
        (Commits w (turn c now running i w).2 → (turn c now running i w).2.state ≠ w.state →
          (ChangedOnce c w (turn c now running i w).2 ↔ w.state.version < uint64Max)) := by
  have hact : ∀ p w i p' w', Base c p w → Lifecycle c p w → Act c i p w p' w' → Lifecycle c p' w' :=
    fun p w i p' w' hb hw h => lifecycle_act hb hsdr hw h
  have hstill : ∀ p w w', Base c p w → Lifecycle c p w → Still p w w' → Lifecycle c p w' :=
    fun p w w' _ hw h => lifecycle_still hw h
  refine ⟨fun w hw => ?_, fun now running i w hw => ?_⟩
  · obtain ⟨-, h⟩ := base_invariant lifecycle_initial hact hstill hw
    exact ⟨h.one, h.commits⟩
  · obtain ⟨hb, h⟩ := turn_invariant lifecycle_initial hact hstill hw
    exact ⟨h.one, h.commits, turn_commits hb (h.unspent i)⟩

/-! ### Five settings at the last versions -/

namespace Bench

/-- A command with all settings of a radio. -/
def settings (messageId : UInt32) (rate : UInt8) : PacketView :=
  { envelope := { envelope :=
      { type := .command, streamId := some 1, timestamp := utc 1
        command := some { cam := immediate, messageId } } }
    fields := [(Field.sampleRate, [0, 0, 0, 0xf4, rate, 0, 0, 0]),
      (Field.rfReferenceFrequency, [0, 0, 0x5f, 0x5e, 0x10, 0, 0, 0]),
      (Field.bandwidth, [0, 0, 0, 0x10, 0, 0, 0, 0]), (Field.gain, [0, 0, 0, 0])].map fun f =>
        { id := f.1, attr := .current, kind := .values, bytes := f.2 } }

/-- A radio that takes all settings. -/
def radio : Config Unit where
  transactions := 5
  profile := .sdrRadio
  backend := { start := some fun _ _ _ s => { value := false, next := s }
               commit := some fun _ _ s => { value := { status := .executed }, next := s } }
  effects := { reserve := some fun _ s => { value := .ok 0, next := s }
               record := some fun _ revisions _ s => { value := revisions, next := s } }

def submit (messageId : UInt32) : Input Unit :=
  .accept (settings messageId messageId.toUInt8) (now 1 [])

/-- Five commands are admitted at the last version that admits any, and the first `n` are executed. -/
def configured (n : ℕ) : Engine Unit :=
  run radio (initial () { capacities := fun _ => 100000 }
    { version := uint64Max - 4, profile := .sdrRadio } none)
    ([1, 2, 3, 4, 5].map submit ++ List.replicate n (.progress (now 2 [])))

/-- Before the turns of the next call of `progress`. -/
def called (n : ℕ) : Engine Unit :=
  chooseOwner radio (now 2 []) (scan radio (observeBackendFaults radio (configured n)))

theorem configured_reachable (n : ℕ) : Reachable radio (configured n) := ⟨(), _, _, none, _, rfl⟩

theorem turn_idle {now : OperationContext} {running : Bool} {i : ℕ} (h : ¬(w.slots i).live) :
    turn c now running i w = (.next, w) := by
  unfold turn
  exact if_pos h

/-- The slots before `n` have nothing to do any more. -/
theorem called_atTurn {n : ℕ} (hn : n < 5) (hidle : ∀ j < n, ¬((called n).slots j).live)
    (hrunning : ¬anyRunning radio (scan radio (observeBackendFaults radio (configured n)))) :
    AtTurn radio (now 2 []) false n (called n) := by
  refine ⟨configured n, _, List.range n, (List.range' (n + 1) (4 - n)), .inl (configured_reachable n),
    rfl, (Bool.not_eq_true _ ▸ hrunning).symm, ?_, ?_⟩
  · have hsplit : ∀ n < 5, List.range 5 = List.range n ++ n :: List.range' (n + 1) (4 - n) := by decide
    exact hsplit n hn
  · have hturned : ∀ l : List ℕ, (∀ j ∈ l, j < n) →
        Turned radio (now 2 []) false l (called n) (called n) := by
      intro l
      induction l with
      | nil => exact fun _ => .nil
      | cons j l ih =>
        intro hl
        exact .cons (turn_idle (hidle j (hl j (List.mem_cons_self ..))))
          (ih fun k hk => hl k (List.mem_cons_of_mem j hk))
    exact hturned _ fun j hj => List.mem_range.mp hj

end Bench

open Bench in
/-- The first commit of the radio is one change and one event. -/
theorem radio_lifecycle_first : CommitsAllowed (configured 5) ∧
    ChangedOnce radio (called 0) (turn radio (now 2 []) false 0 (called 0)).2 := by
  obtain ⟨hruns, hturns⟩ := radio_lifecycle (c := radio) rfl
  obtain ⟨-, -, hchanges⟩ := hturns (now 2 []) false 0 (called 0)
    (called_atTurn (by decide) (by decide) (by decide +kernel))
  refine ⟨(hruns _ (configured_reachable 5)).2, (hchanges ?_ fun hstate => ?_).mpr ?_⟩
  · unfold Commits
    decide +kernel
  · have hversion := congrArg StateSnapshot.version hstate
    revert hversion
    decide +kernel
  · decide +kernel

open Bench in
/-- The fifth commit changes the state at the last version, and the version starts again from zero. -/
theorem radio_commit_wraps : AtTurn radio (now 2 []) false 4 (called 4) ∧
    Commits (called 4) (turn radio (now 2 []) false 4 (called 4)).2 ∧
    (turn radio (now 2 []) false 4 (called 4)).2.state.version = 0 ∧
    (turn radio (now 2 []) false 4 (called 4)).2.state ≠ (called 4).state ∧
    ¬ChangedOnce radio (called 4) (turn radio (now 2 []) false 4 (called 4)).2 := by
  have hversion : (turn radio (now 2 []) false 4 (called 4)).2.state.version = 0 ∧
      (called 4).state.version = uint64Max := by decide +kernel
  refine ⟨called_atTurn (by decide) (by decide +kernel) (by decide +kernel), ?_, hversion.1,
    fun hstate => ?_, fun h => ?_⟩
  · unfold Commits
    decide +kernel
  · have hsame := congrArg StateSnapshot.version hstate
    rw [hversion.1, hversion.2] at hsame
    exact absurd hsame (by decide)
  · have hraised := h.version
    rw [hversion.1, hversion.2] at hraised
    exact absurd hraised (by decide)

end Vita.Transaction.Engine
