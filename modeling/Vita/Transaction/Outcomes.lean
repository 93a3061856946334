import Vita.Transaction.Moves

/-!
# What an outcome changes

`Engine.applyOutcome` settles a reported outcome, changes the live or the hypothetical state, tells the
effect sink and records the outcome in the slot.

Main lemmas:
- `applyOutcome_applied`: all that an outcome changes;
- `recordOutcome_narrowed`, `recordOutcome_blocked`: the plan after it.
-/

namespace Vita.Transaction.Engine

open Checked Timing State Codec

variable {σ : Type} {c : Config σ} {w : Engine σ}

/-! ## Settled outcomes -/

section Settled

variable (c) (quiescing : Bool) (s : Slot) (planned : PlannedField) (reported : FieldOutcome)

theorem settledOutcome_id : (settledOutcome c quiescing s planned reported).id = planned.id := by
  simp only [settledOutcome, apply_ite FieldOutcome.id, ite_self]
  by_cases h : malformed planned reported
  · rw [if_pos h]
    rfl
  · rw [if_neg h]
    by_contra hne
    simp [malformed, hne] at h

theorem settledOutcome_simulated :
    (settledOutcome c quiescing s planned reported).simulated = decide (s.action = 1) := by
  simp only [settledOutcome, apply_ite FieldOutcome.simulated, ite_self]

/-- The status is that reported, or the effect is not known. -/
theorem settledOutcome_status :
    (settledOutcome c quiescing s planned reported).status = .unknownEffect ∨
      (settledOutcome c quiescing s planned reported).status = reported.status ∧
        reported.status ≠ .pending := by
  simp only [settledOutcome, apply_ite FieldOutcome.status, ite_self]
  by_cases h : malformed planned reported
  · simp [h, unknownOutcome]
  · have hp : reported.status ≠ .pending := by
      intro hp
      simp [malformed, hp] at h
    simp only [h, if_false, Bool.false_eq_true]
    split
    · exact .inl rfl
    · exact .inr ⟨rfl, hp⟩

theorem settledOutcome_ne_pending :
    (settledOutcome c quiescing s planned reported).status ≠ .pending := by
  rcases settledOutcome_status c quiescing s planned reported with h | ⟨h, hp⟩
  · simp [h]
  · rwa [h]

end Settled

/-! ## The plan after an outcome -/

/-- The loop that withdraws the rest, field by field. -/
theorem blockRest_fold (l : List ℕ) (fields : ℕ → PlannedField) (i : ℕ) :
    let after := l.foldl
      (fun fields f => Function.update fields f (PlannedField.withdraw (fields f) notExecuted)) fields
    (after i).id = (fields i).id ∧ ((after i).eligible → (fields i).eligible) ∧
      (i ∈ l → ¬(after i).eligible) := by
  induction l generalizing fields with
  | nil => simp
  | cons f l ih =>
    obtain ⟨hid, hle, hmem⟩ :=
      ih (Function.update fields f (PlannedField.withdraw (fields f) notExecuted))
    have hstep : (Function.update fields f (PlannedField.withdraw (fields f) notExecuted) i).id =
        (fields i).id ∧
        ((Function.update fields f (PlannedField.withdraw (fields f) notExecuted) i).eligible →
          (fields i).eligible ∧ i ≠ f) := by
      by_cases h : i = f
      · subst h
        simp [PlannedField.withdraw]
      · simp [h]
    refine ⟨hid.trans hstep.1, fun h => (hstep.2 (hle h)).1, fun h => ?_⟩
    rcases List.mem_cons.mp h with rfl | h
    · exact fun hel => (hstep.2 (hle hel)).2 rfl
    · exact hmem h

theorem blockRest_narrows (s : Slot) : Narrows s.execution (blockRest s).execution :=
  ⟨rfl, rfl, rfl, fun f => (blockRest_fold _ _ f).1, fun f => (blockRest_fold _ _ f).2.1⟩

theorem blockRest_not_eligible (s : Slot) {q : ℕ} (hstep : s.step ≤ q)
    (hq : q < s.execution.count) : ¬(blockRest s).eligible (s.execution.order q) := by
  refine (blockRest_fold _ _ _).2.2 (List.mem_map.mpr ⟨q, ?_, rfl⟩)
  rw [List.mem_iff_getElem?]
  exact ⟨q - s.step, by rw [List.getElem?_drop, Nat.add_sub_cancel' hstep, List.getElem?_range hq]⟩

/-- The slot after an outcome, without its plan. -/
theorem recordOutcome_eq (s : Slot) (field : ℕ) (o : FieldOutcome) :
    recordOutcome s field o =
      { s with
        outcomes := Function.update s.outcomes field o, running := false, step := s.step + 1
        execution := (recordOutcome s field o).execution } := by
  unfold recordOutcome
  dsimp only
  split <;> rfl

theorem recordOutcome_narrows (s : Slot) (field : ℕ) (o : FieldOutcome) :
    Narrows s.execution (recordOutcome s field o).execution := by
  unfold recordOutcome
  dsimp only
  split
  · exact blockRest_narrows { s with outcomes := Function.update s.outcomes field o, running := false
                                     step := s.step + 1 }
  · exact .refl _

/-- Without partial execution nothing follows an outcome other than executed. -/
theorem recordOutcome_blocked {s : Slot} {field q : ℕ} {o : FieldOutcome}
    (hstatus : o.status ≠ .executed) (hwhole : ¬s.request.cam.partialAllowed)
    (hstep : s.step < q) (hq : q < s.execution.count) :
    ¬(recordOutcome s field o).eligible (s.execution.order q) := by
  unfold recordOutcome
  dsimp only
  rw [if_pos ⟨hstatus, hwhole⟩]
  exact blockRest_not_eligible _ hstep hq

/-! ## The state after an outcome -/

/-- What an outcome adds to the log before it is recorded. -/
inductive Told (s : Slot) (planned : PlannedField) (o : FieldOutcome) : Event → Prop
  | stored {k : Fin 8} {v : Validity} (hk : fieldIndex planned.id = some k)
      (hv : v = .known → o.status = .executed) : Told s planned o (.stored s.sequence k v)
  | effect (event : EffectiveEvent) : Told s planned o (.effect s.sequence event)

theorem recordEvent_cases (i : ℕ) (event : EffectiveEvent) (w : Engine σ) :
    recordEvent c i event w = w ∨ ∃ env credits revisions, w.env.Follows env ∧
      recordEvent c i event w = { w with
        slots := Function.update w.slots i { w.slots i with credits, revisions }, env
        log := w.log ++ [.effect (w.slots i).sequence event] } := by
  unfold recordEvent
  dsimp only
  split
  · exact .inr ⟨_, _, _, Env.Follows.call w.env _, rfl⟩
  · exact .inl rfl

/-- All that an outcome changes. -/
structure Applied (i field : ℕ) (o : FieldOutcome) (w w' : Engine σ) : Prop where
  slots : ∃ hypothetical credits revisions, w'.slots = Function.update w.slots i
    (recordOutcome { w.slots i with hypothetical, credits, revisions } field o)
  env : w.env.Follows w'.env
  owner : w'.effectOwner = w.effectOwner
  sequence : w'.nextSequence = w.nextSequence
  tickets : w'.nextTicketOperation = w.nextTicketOperation
  log : ∃ told, w'.log = w.log ++ told ++ [.recorded (w.slots i).sequence (w.slots i).request.cam o] ∧
    (∀ e ∈ told, Told (w.slots i) ((w.slots i).execution.fields field) o e) ∧
    (o.simulated → told = [])

/-- What an outcome changes before it is recorded. -/
structure Stored (i : ℕ) (planned : PlannedField) (o : FieldOutcome) (w w' : Engine σ) : Prop where
  slots : ∃ credits revisions,
    w'.slots = Function.update w.slots i { w.slots i with credits, revisions }
  env : w.env.Follows w'.env
  owner : w'.effectOwner = w.effectOwner
  sequence : w'.nextSequence = w.nextSequence
  tickets : w'.nextTicketOperation = w.nextTicketOperation
  log : ∃ told, w'.log = w.log ++ told ∧ ∀ e ∈ told, Told (w.slots i) planned o e

theorem changedState_validity {state state' : StateSnapshot} {planned : PlannedField}
    {o : FieldOutcome} {k : Fin 8} (h : changedState state planned o k = some state') :
    (state'.fields k).validity = .known → o.status = .executed := by
  intro hknown
  by_contra hne
  simp only [changedState, Option.ite_none_right_eq_some, Option.some.injEq] at h
  obtain ⟨-, rfl⟩ := h
  simp only [Function.update_self] at hknown
  cases hknown

/-- An outcome is stored with its event, and the state with its new version. -/
theorem storeOutcome_stored (publish : Bool) (i : ℕ) (planned : PlannedField) (o : FieldOutcome)
    (w : Engine σ) : Stored i planned o w (storeOutcome c publish i planned o w) := by
  have hself : ∀ w' : Engine σ, w'.slots = w.slots → ∃ credits revisions,
      w'.slots = Function.update w.slots i { w.slots i with credits, revisions } := by
    intro w' h
    exact ⟨(w.slots i).credits, (w.slots i).revisions, by rw [h]; exact (Function.update_eq_self i _).symm⟩
  unfold storeOutcome
  dsimp only
  generalize hf : (if o.status = .unknownEffect then { w with faulted := true } else w) = w₁
  have hw₁ : w₁.slots = w.slots ∧ w₁.env = w.env ∧ w₁.effectOwner = w.effectOwner ∧
      w₁.nextSequence = w.nextSequence ∧ w₁.nextTicketOperation = w.nextTicketOperation ∧
      w₁.log = w.log := by
    rw [← hf]
    split <;> exact ⟨rfl, rfl, rfl, rfl, rfl, rfl⟩
  obtain ⟨hs, he, ho, hq, ht, hl⟩ := hw₁
  have hnone : Stored i planned o w w₁ :=
    ⟨hself w₁ hs, he ▸ .refl _, ho, hq, ht, [], by simp [hl], by simp⟩
  split
  · exact hnone
  · next k hk =>
    split
    · exact hnone
    · next state hstate =>
      have htold : Told (w.slots i) planned o
          (.stored (w.slots i).sequence k (state.fields k).validity) :=
        .stored hk (changedState_validity hstate)
      generalize hw₂ : ({ w₁ with state }.emit
        (.stored (w.slots i).sequence k (state.fields k).validity) : Engine σ) = w₂
      have hs₂ : w₂.slots = w.slots := by rw [← hw₂]; exact hs
      have he₂ : w₂.env = w.env := by rw [← hw₂]; exact he
      have ho₂ : w₂.effectOwner = w.effectOwner := by rw [← hw₂]; exact ho
      have hq₂ : w₂.nextSequence = w.nextSequence := by rw [← hw₂]; exact hq
      have ht₂ : w₂.nextTicketOperation = w.nextTicketOperation := by rw [← hw₂]; exact ht
      have hl₂ : w₂.log = w.log ++ [.stored (w.slots i).sequence k (state.fields k).validity] := by
        rw [← hw₂, ← hl]
        rfl
      have honce : Stored i planned o w w₂ :=
        ⟨hself w₂ hs₂, he₂ ▸ .refl _, ho₂, hq₂, ht₂, _, hl₂, by simpa using htold⟩
      split
      · rcases recordEvent_cases (c := c) i (effectiveEvent (w.slots i) state planned o k) w₂ with
          h | ⟨env, credits, revisions, hfollows, h⟩
        · rw [h]
          exact honce
        · rw [h]
          refine ⟨⟨credits, revisions, by simp [hs₂]⟩, he₂ ▸ hfollows, ho₂, hq₂, ht₂,
            [.stored (w.slots i).sequence k (state.fields k).validity,
              .effect (w.slots i).sequence (effectiveEvent (w.slots i) state planned o k)], ?_, ?_⟩
          · simp [hl₂, hs₂]
          · intro e he
            rcases List.mem_cons.mp he with rfl | he
            · exact htold
            · obtain rfl := List.mem_singleton.mp he
              exact .effect _
      · exact honce

/-- An outcome is applied to its field and to the state. -/
theorem applyOutcome_applied (publish : Bool) (i field : ℕ) (reported : FieldOutcome)
    (w : Engine σ) :
    Applied i field (settledOutcome c w.quiescing (w.slots i) ((w.slots i).execution.fields field)
      reported) w (applyOutcome c publish i field reported w) := by
  unfold applyOutcome
  dsimp only
  generalize settledOutcome c w.quiescing (w.slots i) ((w.slots i).execution.fields field)
    reported = o
  split
  · next hsim =>
    -- only the hypothetical state of the slot may change
    split
    · refine ⟨⟨(w.slots i).hypothetical, (w.slots i).credits, (w.slots i).revisions, rfl⟩,
        .refl _, rfl, rfl, rfl, [], ?_, by simp, fun _ => rfl⟩
      simp [setSlot]
    · next hypothetical _ =>
      refine ⟨⟨hypothetical, (w.slots i).credits, (w.slots i).revisions, ?_⟩,
        .refl _, rfl, rfl, rfl, [], ?_, by simp, fun _ => rfl⟩
      · simp
      · simp [setSlot]
  · next hsim =>
    obtain ⟨⟨credits, revisions, hs⟩, he, ho, hq, ht, told, hl, htold⟩ :=
      storeOutcome_stored (c := c) publish i ((w.slots i).execution.fields field) o w
    refine ⟨⟨(w.slots i).hypothetical, credits, revisions, ?_⟩, he, ho, hq, ht, told, ?_, htold,
      fun h => absurd h hsim⟩
    · simp [hs]
    · rw [emit_log]
      simp [setSlot, hl]

/-- The live state is not changed by a simulated outcome. -/
theorem applyOutcome_simulated (publish : Bool) {i : ℕ} (field : ℕ) (reported : FieldOutcome)
    (h : (w.slots i).action = 1) :
    (applyOutcome c publish i field reported w).state = w.state ∧
      (applyOutcome c publish i field reported w).faulted = w.faulted := by
  have hsim := settledOutcome_simulated c w.quiescing (w.slots i)
    ((w.slots i).execution.fields field) reported
  unfold applyOutcome
  dsimp only
  rw [if_pos (by rw [hsim, h]; rfl)]
  split <;> exact ⟨rfl, rfl⟩

end Vita.Transaction.Engine
