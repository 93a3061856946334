import Vita.Transaction.Outcomes

/-!
# Progress as a sequence of moves

`Engine.progress` takes in the completions, chooses an owner of the lane and gives every slot its turn.

Main lemmas:
- `walk_moves`, `execute_moves`, `turn_moves`: the turn of a slot;
- `turn_only`: a turn touches its own slot;
- `progress_moves`: the whole call.
-/

namespace Vita.Transaction.Engine

open Checked Timing State Codec

variable {σ : Type} {c : Config σ} {p : Phase} {w w' w'' : Engine σ}

/-! ## Completions -/

theorem observeBackendFaults_moves (w : Engine σ) :
    Moves c .idle w .idle (observeBackendFaults c w) :=
  .foldl (fun _ r => (Move.fault r).moves) _ w

/-- The scan of a ticket is a sequence of moves. -/
theorem scanTicket_moves (w : Engine σ) (t : ℕ) : Moves c .idle w .idle (scanTicket c w t) := by
  unfold scanTicket
  split
  · exact .refl
  · next record port htake =>
    cases hfind : findRunning c w record.operation with
    | none =>
      have hskip : consume c record (w.setPort port) = w.setPort port := by
        unfold consume
        rw [show findRunning c (w.setPort port) record.operation = none from hfind]
      rw [hskip]
      exact .quiet (.setPort (.consume htake hfind))
    | some i => exact (Act.settle htake hfind).moves

theorem scan_moves (w : Engine σ) : Moves c .idle w .idle (scan c w) :=
  .foldl scanTicket_moves _ w

/-! ## Acknowledgements -/

/-- An acknowledgement changes what the slot reports. -/
theorem queueAck_spec (i : ℕ) (kind : AckKind) (observed : StateSnapshot) (now : OperationContext)
    (w : Engine σ) : ∃ s env, (w.slots i).Ledger s ∧ w.env.Follows env ∧
      queueAck c i kind observed now w = { w with slots := Function.update w.slots i s, env } := by
  have hreport : ∀ (env : Env σ) (ack : AckRecord) (b : Prop) [Decidable b], w.env.Follows env →
      ∃ s env', (w.slots i).Ledger s ∧ w.env.Follows env' ∧
        (if b then ({ w with env } : Engine σ).setSlot i
            { w.slots i with responses := (w.slots i).responses ++ [ack] }
          else { w with env }) = { w with slots := Function.update w.slots i s, env := env' } := by
    intro env ack b _ hfollows
    split
    · exact ⟨{ w.slots i with responses := (w.slots i).responses ++ [ack] }, env, rfl, hfollows, rfl⟩
    · exact ⟨w.slots i, env, .refl _, hfollows, by rw [Function.update_eq_self]⟩
  unfold queueAck
  dsimp only
  split
  · exact hreport _ _ _ (.call w.env _)
  · exact hreport w.env _ _ (.refl _)

theorem queueAck_quiet (i : ℕ) (kind : AckKind) (observed : StateSnapshot) (now : OperationContext)
    (w : Engine σ) : Quiet c w (queueAck c i kind observed now w) := by
  obtain ⟨s, env, hs, hfollows, heq⟩ := queueAck_spec (c := c) i kind observed now w
  rw [heq]
  obtain ⟨hslots, _, _, _, _, _, -⟩ := Quiet.setSlot (c := c) hs
  exact ⟨hslots, rfl, rfl, rfl, le_rfl, rfl, (Quiet.env (c := c) w hfollows).port⟩

/-- The end of a transaction. -/
theorem finish_spec (i : ℕ) (now : OperationContext) (w : Engine σ) :
    ∃ s env, (w.slots i).Ledger s ∧ w.env.Follows env ∧ finish c i now w = { w with
      slots := Function.update w.slots i { s with complete := true }, env
      effectOwner := if w.effectOwner = some i then none else w.effectOwner
      log := w.log ++ [.completed (w.slots i).sequence] } := by
  unfold finish
  dsimp only
  generalize (if (w.slots i).action = 1 then (w.slots i).hypothetical else w.state) = observed
  obtain ⟨s₁, env₁, hs₁, hf₁, h₁⟩ := queueAck_spec (c := c) i .execution observed now w
  rw [h₁]
  obtain ⟨s₂, env₂, hs₂, hf₂, h₂⟩ := queueAck_spec (c := c) i .state observed now
    { w with slots := Function.update w.slots i s₁, env := env₁ }
  rw [h₂]
  simp only [Function.update_self] at hs₂
  have hs : (w.slots i).Ledger { s₂ with revisions := none } := by
    rw [Slot.Ledger] at hs₁ hs₂ ⊢
    rw [hs₂, hs₁]
  have hseq : s₂.sequence = (w.slots i).sequence := by
    rw [Slot.Ledger] at hs₁ hs₂
    rw [hs₂, hs₁]
  have hrelease : ∀ (v : Engine σ) (r : Option ℕ), ∃ env, v.env.Follows env ∧
      releaseRevisions c v r = { v with env } := by
    intro v r
    cases r with
    | none => exact ⟨v.env, .refl _, rfl⟩
    | some token => exact ⟨_, .call v.env _, rfl⟩
  simp only [setSlot, Function.update_self, Function.update_idem]
  obtain ⟨env₃, hf₃, h₃⟩ := hrelease
    { w with slots := Function.update w.slots i { s₂ with complete := true, revisions := none }
             env := env₂ } s₂.revisions
  rw [h₃]
  refine ⟨{ s₂ with revisions := none }, env₃, hs, hf₁.trans (hf₂.trans hf₃), ?_⟩
  rw [← hseq]
  split <;> rfl

/-! ## Batches -/

theorem applyBatch_moves (i : ℕ) (status : FieldStatus) (batch : BatchOutcome) (w : Engine σ) :
    Moves c (.batch i 0) w (.batch i 4) (applyBatch c i status batch w) := by
  unfold applyBatch
  have hstep : ∀ k < 4, ∀ w : Engine σ, Moves c (.batch i k) w (.batch i (k + 1))
      (applyOutcome c false i k (batchOutcome status batch ((w.slots i).execution.fields k)) w) :=
    fun k hk w => (Act.apply hk _).moves
  exact (hstep 0 (by decide) _).trans ((hstep 1 (by decide) _).trans
    ((hstep 2 (by decide) _).trans (hstep 3 (by decide) _)))

theorem publishBatch_moves (batch : BatchOutcome) (plan : ExecutionPlan) (previous i : ℕ)
    (w : Engine σ) : Moves c (.batch i 4) w (.closing i) (publishBatch c batch plan previous i w) := by
  unfold publishBatch
  split
  · exact (Act.publish _ _).moves
  · exact Act.unchanged.moves

theorem commitBatch_moves {commit : ExecutionPlan → Boundary → σ → Reply σ BatchOutcome}
    {now : OperationContext} {i : ℕ} (hready : Ready c w i) (hvalid : (revalidateBatch c now i w).1)
    (heligible : ∀ f < 4, ((revalidateBatch c now i w).2.slots i).eligible f) :
    Moves c (.checked i now) w (.closing i)
      (commitBatch c commit now i (revalidateBatch c now i w).2) :=
  (Act.commit hready hvalid heligible).moves.trans
    ((applyBatch_moves i _ _ _).trans (publishBatch_moves _ _ _ i _))

/-! ## Fields -/

/-- A field is withdrawn from the plan. -/
theorem narrows_update (p : ExecutionPlan) (field : ℕ) (errors : UInt32) :
    Narrows p { p with
      fields := Function.update p.fields field (PlannedField.withdraw (p.fields field) errors) } := by
  refine ⟨rfl, rfl, rfl, fun f => ?_, fun f hf => ?_⟩
  · by_cases h : f = field
    · subst h
      simp [PlannedField.withdraw]
    · simp [Function.update_of_ne h]
  · by_cases h : f = field
    · subst h
      simp [PlannedField.withdraw] at hf
    · simpa [Function.update_of_ne h] using hf

/-- The slot after a field was refused since one it depends on was not executed. -/
def blockedSlot (s : Slot) (field : ℕ) : Slot :=
  { s with execution := { s.execution with
      fields := Function.update s.execution.fields field
        (PlannedField.withdraw (s.execution.fields field) (dependencyBlocked ||| notExecuted)) } }

theorem blockedSlot_narrowed (s : Slot) (field : ℕ) : s.Narrowed (blockedSlot s field) :=
  ⟨rfl, narrows_update s.execution field _⟩

/-- A field is left as it is, or it is withdrawn. -/
theorem blockField_cases (i field : ℕ) (w : Engine σ) :
    blockField i field w = w ∨
      blockField i field w = { w with
        slots := Function.update w.slots i (blockedSlot (w.slots i) field)
        log := w.log ++ if (w.slots i).eligible field then
          [.blocked (w.slots i).sequence (w.slots i).request.cam] else [] } := by
  unfold blockField
  dsimp only
  split
  · exact .inl rfl
  · refine .inr ?_
    by_cases h : (w.slots i).eligible field
    · have h' : ((w.slots i).execution.fields field).eligible := h
      rw [if_pos h, if_pos h']
      rfl
    · have h' : ¬((w.slots i).execution.fields field).eligible := h
      rw [if_neg h, if_neg h', List.append_nil]
      rfl

theorem blockField_slots (i field : ℕ) (w : Engine σ) :
    ∃ s, (w.slots i).Narrowed s ∧ (blockField i field w).slots = Function.update w.slots i s := by
  rcases blockField_cases i field w with h | h <;> rw [h]
  · exact ⟨w.slots i, ⟨rfl, .refl _⟩, (Function.update_eq_self i w.slots).symm⟩
  · exact ⟨_, blockedSlot_narrowed _ field, rfl⟩

theorem applyOutcome_slot (publish : Bool) (i field : ℕ) (reported : FieldOutcome) (w : Engine σ) :
    ∃ s, (applyOutcome c publish i field reported w).slots = Function.update w.slots i s ∧
      s.request = (w.slots i).request ∧ s.step = (w.slots i).step + 1 ∧
      Narrows (w.slots i).execution s.execution := by
  obtain ⟨hypothetical, credits, revisions, hs⟩ :=
    (applyOutcome_applied (c := c) publish i field reported w).slots
  refine ⟨_, hs, ?_, ?_, ?_⟩
  · rw [recordOutcome_eq]
  · rw [recordOutcome_eq]
  · exact recordOutcome_narrows { w.slots i with hypothetical, credits, revisions } field _

theorem simulate_moves {now : OperationContext} {i field : ℕ} (f : σ → Reply σ FieldOutcome)
    (hstep : (w.slots i).step < (w.slots i).execution.count)
    (hfield : field = (w.slots i).execution.order (w.slots i).step)
    (heligible : (w.slots i).eligible field) (haction : (w.slots i).action = 1) :
    Moves c (.walking i now) w (.walking i now)
      (applyOutcome c true i field (w.call f).1 (w.call f).2) :=
  (Moves.call w f).trans
    (Act.simulate (w := (w.call f).2) (w.call f).1 hstep hfield heligible haction).moves

/-- A field is begun: from then on it is running, whatever the backend does in the call. -/
theorem beginField_moves (start : PlannedField → Boundary → AsyncResult → σ → Reply σ Bool)
    {now : OperationContext} {i field : ℕ} (hstart : c.backend.start.isSome)
    (h : Begun w i field) : Moves c (.walking i now) w .idle (beginField c start now i field w) := by
  unfold beginField
  dsimp only
  refine (Act.start hstart h).moves.trans ?_
  have hslot : ∀ v : Engine σ, v.slots = (dispatchField c now i field w).slots →
      (v.slots i).running ∧ capability i (w.slots i) field =
        capability i (v.slots i) (v.slots i).runningField := by
    intro v hv
    rw [hv]
    simp [dispatchField, capability]
  generalize dispatchField c now i field w = v at hslot ⊢
  generalize (if (w.slots i).timeKnown then
      ({ (w.slots i).execution.boundary with time := now.clock.time } : Boundary)
    else (w.slots i).execution.boundary) = boundary
  generalize capability i (w.slots i) field = cap at hslot ⊢
  have hhold : PortStep c v (v.env.port.hold cap) := by
    obtain ⟨hrunning, hcap⟩ := hslot v rfl
    rw [hcap]
    exact .hold hrunning
  refine (Moves.quiet (.setPort hhold)).trans
    ((Moves.call _ (start ((w.slots i).execution.fields field) boundary cap)).trans ?_)
  generalize hu : (v.setPort (v.env.port.hold cap)).call
    (start ((w.slots i).execution.fields field) boundary cap) = u
  have hslots : u.2.slots = v.slots := by
    rw [← hu]
    rfl
  obtain ⟨hrunning, hcap⟩ := hslot u.2 hslots
  have hrefused : Moves c .idle u.2 .idle
      (completeRefused cap ((w.slots i).execution.fields field).id u.1 u.2) := by
    unfold completeRefused
    split
    · exact .refl
    · refine .quiet (.setPort ?_)
      rw [hcap]
      exact .complete hrunning (by simp)
  exact hrefused.trans (.quiet (.setPort (.act [.drop cap])))

/-- The fields are passed over, simulated or begun until the turn ends. -/
theorem walk_moves {now : OperationContext} {i : ℕ} (n : ℕ)
    (hleft : n = (w.slots i).execution.count - (w.slots i).step) :
    Moves c (.walking i now) w .idle (walk c now i n w).2 := by
  induction n generalizing w with
  | zero =>
    have hdone : (w.slots i).execution.count ≤ (w.slots i).step := by omega
    exact (Act.exhaust hdone).moves.trans (Act.finish now).moves
  | succ n ih =>
    have hstep : (w.slots i).step < (w.slots i).execution.count := by omega
    simp only [walk]
    split
    · next hcancelled =>
      refine (Act.pass ⟨hstep, rfl, .inl hcancelled, rfl, .inl rfl⟩).moves.trans (ih ?_)
      simp only [setSlot_slots, Function.update_self, skip]
      omega
    · next hcancelled =>
      obtain ⟨v, hv⟩ : ∃ v, blockField i ((w.slots i).execution.order (w.slots i).step) w = v :=
        ⟨_, rfl⟩
      have hblock : Moves c (.walking i now) w (.walking i now) v := by
        rw [← hv]
        exact Act.block.moves
      obtain ⟨s, hs, hslots⟩ := blockField_slots i ((w.slots i).execution.order (w.slots i).step) w
      obtain rfl : v.slots i = s := by rw [← hv, hslots, Function.update_self]
      have hsame : (v.slots i).step = (w.slots i).step := by rw [hs.slot]
      have hcount : (v.slots i).execution.count = (w.slots i).execution.count := hs.plan.count
      have horder : (w.slots i).execution.order (w.slots i).step =
          (v.slots i).execution.order (v.slots i).step := by
        rw [hsame, hs.plan.order]
      have hcancel : ¬(v.slots i).cancelled ((v.slots i).execution.order (v.slots i).step) := by
        rw [← horder, hs.slot]
        exact hcancelled
      have hstep' : (v.slots i).step < (v.slots i).execution.count := by
        rw [hcount, hsame]
        exact hstep
      rw [hv, horder]
      refine hblock.trans ?_
      split
      · next hel =>
        refine (Act.pass ⟨hstep', rfl, .inr hel, rfl, .inr rfl⟩).moves.trans (ih ?_)
        simp only [setSlot_slots, Function.update_self, skip]
        omega
      · next hel =>
        have hel' : (v.slots i).eligible ((v.slots i).execution.order (v.slots i).step) := by
          simpa [Slot.eligible] using hel
        split
        · next haction =>
          split
          · exact (Act.stuck hel' (.inr (.inr haction))).moves
          · next simulate _ =>
            refine (simulate_moves _ hstep' rfl hel' haction).trans (ih ?_)
            obtain ⟨s, hslots, -, hnext, hplan⟩ := applyOutcome_slot (c := c) true i
              ((v.slots i).execution.order (v.slots i).step) (v.call _).1 (v.call _).2
            rw [hslots, Function.update_self, hnext, hplan.count, call_slots]
            omega
        · next haction =>
          split
          · next hversion => exact (Act.stuck hel' (.inl hversion)).moves
          · next hversion =>
            split
            · next hstart => exact (Act.stuck hel' (.inr (.inl hstart))).moves
            · next start hstart =>
              exact beginField_moves start (by rw [hstart]; rfl) ⟨hstep', rfl, hcancel, hel', haction,
                Nat.le_of_not_lt hversion⟩

/-! ## Turns -/

/-- What a turn carries out is a sequence of moves. -/
theorem carryOut_moves (now : OperationContext) (i : ℕ) (w : Engine σ) :
    Moves c (.checked i now) w .idle (carryOut c now i w).2 := by
  unfold carryOut
  dsimp only
  split
  · next hbatch =>
    have hb : (w.slots i).isBatch c := by simpa [Slot.isBatch] using hbatch
    have hwalk : ∀ v : Engine σ, Moves c (.walking i now) (v.setSlot i (withdrawFour (v.slots i))) .idle
        (walk c now i ((withdrawFour (v.slots i)).execution.count - (withdrawFour (v.slots i)).step)
          (v.setSlot i (withdrawFour (v.slots i)))).2 := by
      intro v
      refine walk_moves _ ?_
      rw [setSlot_slots, Function.update_self]
    by_cases hready : c.backend.commit.isSome ∧ ∀ f ∈ List.range 4, (w.slots i).eligible f ∧
        ¬(w.slots i).cancelled f
    · have hr : Ready c w i :=
        ⟨hb, fun f hf => (hready.2 f (List.mem_range.mpr hf)).1,
          fun f hf => (hready.2 f (List.mem_range.mpr hf)).2⟩
      have hrecheck : recheck c now i w = (decide ((revalidateBatch c now i w).1 ∧
          ∀ f ∈ List.range 4, ((revalidateBatch c now i w).2.slots i).eligible f),
          (revalidateBatch c now i w).2) := by
        unfold recheck
        dsimp only
        rw [if_pos hready]
        rfl
      rw [hrecheck]
      split
      · next v commit _ heq =>
        obtain ⟨hok, rfl⟩ := Prod.mk.inj heq
        obtain ⟨hvalid, heligible⟩ := of_decide_eq_true hok
        exact (commitBatch_moves hr hvalid fun f hf => heligible f (List.mem_range.mpr hf)).trans
          (Act.finish now).moves
      · next v heq _ =>
        obtain ⟨-, rfl⟩ := Prod.mk.inj heq
        exact (Act.recheck hr).moves.trans (hwalk _)
    · have hrecheck : recheck c now i w = (false, w) := by
        unfold recheck
        dsimp only
        rw [if_neg hready]
      rw [hrecheck]
      split
      · next heq => simp at heq
      · next v heq _ =>
        obtain ⟨-, rfl⟩ := Prod.mk.inj heq
        exact (Act.unready hb).moves.trans (hwalk _)
  · next hbatch =>
    refine (Act.single ?_).moves.trans (walk_moves _ rfl)
    simpa [Slot.isBatch] using hbatch

theorem attempt_moves (now : OperationContext) (i : ℕ) (w : Engine σ) :
    Moves c (.checked i now) w .idle (attempt c now i w).2 :=
  Act.boundary.moves.trans (carryOut_moves now i _)

theorem execute_moves (now : OperationContext) {i : ℕ} (hvalid : (w.slots i).revalidated) :
    Moves c (.planning i now) w .idle (execute c now i w).2 := by
  unfold execute
  dsimp only
  split
  · split
    · next hwaits => exact (Act.defer hvalid hwaits).moves
    · next hwaits => exact (Act.schedule hvalid hwaits).moves.trans (attempt_moves now i _)
  · next hnot => exact (Act.unscheduled hvalid hnot).moves.trans (attempt_moves now i _)

/-- A second validation is made once. -/
theorem revalidate_moves (now : OperationContext) (i : ℕ) (w : Engine σ) :
    Moves c (.planning i now) w (.planning i now) (revalidate c now i w) ∧
      ((revalidate c now i w).slots i).revalidated := by
  by_cases h : (w.slots i).revalidated
  · have hsame : revalidate c now i w = w := by
      unfold revalidate
      rw [if_pos h]
    rw [hsame]
    exact ⟨.refl, h⟩
  · refine ⟨(Act.revalidate h).moves, ?_⟩
    unfold revalidate
    rw [if_neg h, setSlot_slots, Function.update_self]

/-- So is a turn. -/
theorem turn_moves {now : OperationContext} {running : Bool} {i : ℕ} (hlt : i < c.transactions)
    (hrunning : ¬running → (w.slots i).active → ¬(w.slots i).running) :
    Moves c .idle w .idle (turn c now running i w).2 := by
  unfold turn
  dsimp only
  split
  · exact .refl
  · next hlive =>
    have hlive : (w.slots i).live := by simpa using hlive
    split
    · next hq => exact (Act.drain hlive hq.2).moves.trans (Act.finish now).moves
    · split
      · exact .refl
      · next hrun =>
        split
        · exact .refl
        · next howner =>
          split
          · next haction => exact (Act.query hlive haction).moves.trans (Act.finish now).moves
          · next haction =>
            have hactive : (w.slots i).active := by
              simp only [Slot.live, decide_eq_true_eq] at hlive
              exact hlive.1
            have hnot : ¬running := fun h => hrun ⟨h, haction⟩
            have hown : (w.slots i).action = 2 → w.effectOwner = some i := by
              intro h2
              by_contra hne
              exact howner ⟨h2, hne⟩
            obtain ⟨hmoves, hvalid⟩ := revalidate_moves now i w
            exact (Act.enter now hlt hlive haction hown (hrunning hnot hactive)).moves.trans
              (hmoves.trans (execute_moves now hvalid))

/-! ## Other slots -/

/-- Only the slot `i` differs. -/
def Only (i : ℕ) (w w' : Engine σ) : Prop := ∀ j, j ≠ i → w'.slots j = w.slots j

theorem Only.refl {i : ℕ} : Only i w w := fun _ _ => rfl

theorem Only.trans {i : ℕ} (h : Only i w w') (h' : Only i w' w'') : Only i w w'' :=
  fun j hj => (h' j hj).trans (h j hj)

theorem Only.of_slots {i : ℕ} {s : Slot} (h : w'.slots = Function.update w.slots i s) :
    Only i w w' := by
  intro j hj
  rw [h, Function.update_of_ne hj]

theorem Only.setSlot (i : ℕ) (w : Engine σ) (s : Slot) : Only i w (w.setSlot i s) := .of_slots rfl

theorem finish_only (i : ℕ) (now : OperationContext) (w : Engine σ) : Only i w (finish c i now w) := by
  obtain ⟨s, env, -, -, h⟩ := finish_spec (c := c) i now w
  rw [h]
  exact .of_slots rfl

theorem recordEvent_only (i : ℕ) (event : EffectiveEvent) (w : Engine σ) :
    Only i w (recordEvent c i event w) := by
  rcases recordEvent_cases (c := c) i event w with h | ⟨_, _, _, -, h⟩ <;> rw [h]
  · exact .refl
  · exact .of_slots rfl

theorem applyOutcome_only (publish : Bool) (i field : ℕ) (reported : FieldOutcome) (w : Engine σ) :
    Only i w (applyOutcome c publish i field reported w) := by
  obtain ⟨_, hs, -⟩ := applyOutcome_slot (c := c) publish i field reported w
  exact .of_slots hs

theorem validate_only (i : ℕ) (s : Slot) (w : Engine σ) : Only i w (validate c i s w).2 := by
  unfold validate
  dsimp only
  split <;> exact .of_slots rfl

theorem revalidate_only (now : OperationContext) (i : ℕ) (w : Engine σ) :
    Only i w (revalidate c now i w) := by
  unfold revalidate
  dsimp only
  split
  · exact .refl
  · exact (validate_only i _ w).trans (Only.setSlot i _ _)

theorem applyBatch_only (i : ℕ) (status : FieldStatus) (batch : BatchOutcome) (w : Engine σ) :
    Only i w (applyBatch c i status batch w) := by
  have hfold : ∀ (l : List ℕ) (v : Engine σ), Only i v (l.foldl
      (fun w f => applyOutcome c false i f
        (batchOutcome status batch ((w.slots i).execution.fields f)) w) v) := by
    intro l
    induction l with
    | nil => exact fun _ => .refl
    | cons f l ih => exact fun v => (applyOutcome_only false i f _ v).trans (ih _)
  exact hfold (List.range 4) w

/-- A commit touches its own slot only. -/
theorem commitBatch_only (commit : ExecutionPlan → Boundary → σ → Reply σ BatchOutcome)
    (now : OperationContext) (i : ℕ) (w : Engine σ) : Only i w (commitBatch c commit now i w) := by
  have hcall : Only i w (callCommit c commit now i w).2 := fun _ _ => rfl
  have hpublish : ∀ batch plan previous (v : Engine σ),
      Only i v (publishBatch c batch plan previous i v) := by
    intro batch plan previous v
    unfold publishBatch
    split
    · exact recordEvent_only i _ { v with state := _ }
    · exact .refl
  exact hcall.trans ((applyBatch_only i _ _ _).trans (hpublish _ _ _ _))

theorem completeRefused_slots (cap : AsyncResult) (id : FieldId) (begun : Bool) (w : Engine σ) :
    (completeRefused cap id begun w).slots = w.slots := by
  unfold completeRefused
  split <;> rfl

theorem beginField_slots (start : PlannedField → Boundary → AsyncResult → σ → Reply σ Bool)
    (now : OperationContext) (i field : ℕ) (w : Engine σ) :
    (beginField c start now i field w).slots =
      Function.update w.slots i { w.slots i with running := true, runningField := field } := by
  unfold beginField
  rw [setPort_slots, completeRefused_slots]
  rfl

/-- A walk changes its own slot only. -/
theorem walk_only (now : OperationContext) (i n : ℕ) (w : Engine σ) :
    Only i w (walk c now i n w).2 := by
  induction n generalizing w with
  | zero => exact finish_only i now w
  | succ n ih =>
    simp only [walk]
    split
    · exact (Only.setSlot i w _).trans (ih _)
    · obtain ⟨s, -, hslots⟩ := blockField_slots i ((w.slots i).execution.order (w.slots i).step) w
      refine (Only.of_slots hslots).trans ?_
      generalize blockField i ((w.slots i).execution.order (w.slots i).step) w = v
      split
      · exact (Only.setSlot i v _).trans (ih _)
      · split
        · split
          · exact .refl
          · exact (applyOutcome_only true i _ _ (v.call _).2).trans (ih _)
        · split
          · exact .refl
          · split
            · exact .refl
            · exact .of_slots (beginField_slots _ now i _ v)

/-- So does what a turn carries out. -/
theorem carryOut_only (now : OperationContext) (i : ℕ) (w : Engine σ) :
    Only i w (carryOut c now i w).2 := by
  have hrecheck : Only i w (recheck c now i w).2 := by
    unfold recheck
    dsimp only
    split
    · exact validate_only i _ w
    · exact .refl
  unfold carryOut
  dsimp only
  split
  · split
    · next commit v _ heq =>
      rw [heq] at hrecheck
      exact hrecheck.trans ((commitBatch_only commit now i v).trans (finish_only i now _))
    · next v heq _ =>
      rw [heq] at hrecheck
      exact hrecheck.trans ((Only.setSlot i v _).trans (walk_only now i _ _))
  · exact walk_only now i _ w

/-- A turn leaves the other slots alone. -/
theorem turn_only (now : OperationContext) (running : Bool) (i : ℕ) (w : Engine σ) :
    Only i w (turn c now running i w).2 := by
  have hexecute : ∀ v : Engine σ, Only i v (execute c now i v).2 := by
    intro v
    unfold execute attempt
    dsimp only
    split
    · split
      · exact .of_slots rfl
      · exact (Only.setSlot i v _).trans ((Only.setSlot i _ _).trans (carryOut_only now i _))
    · exact (Only.setSlot i v _).trans (carryOut_only now i _)
  unfold turn
  dsimp only
  split
  · exact .refl
  · split
    · exact (Only.setSlot i w _).trans (finish_only i now _)
    · split
      · exact .refl
      · split
        · exact .refl
        · split
          · exact finish_only i now w
          · exact (revalidate_only now i w).trans (hexecute _)

/-! ## The call -/

/-- The turns of all slots are a sequence of moves. -/
theorem turns_moves {now : OperationContext} {running : Bool} {l : List ℕ} (hnodup : l.Nodup)
    (hlt : ∀ i ∈ l, i < c.transactions)
    (hrunning : ∀ i ∈ l, ¬running → (w.slots i).active → ¬(w.slots i).running) :
    Moves c .idle w .idle (turns c now running l w).2 := by
  induction l generalizing w with
  | nil => exact .refl
  | cons i l ih =>
    obtain ⟨hi, hnodup⟩ := List.nodup_cons.mp hnodup
    have hturn : Moves c .idle w .idle (turn c now running i w).2 :=
      turn_moves (hlt i List.mem_cons_self) (hrunning i List.mem_cons_self)
    have honly := turn_only (c := c) now running i w
    simp only [turns]
    split
    · next v heq =>
      rw [heq] at hturn honly
      refine hturn.trans (ih hnodup (fun j hj => hlt j (List.mem_cons_of_mem i hj)) ?_)
      intro j hj
      rw [honly j fun h => hi (h ▸ hj)]
      exact hrunning j (List.mem_cons_of_mem i hj)
    · next heq =>
      rw [heq] at hturn
      exact hturn

/-- The candidate for the lane is a live command that is to be executed. -/
theorem considerOwner_eq_some {now : OperationContext} {best : Option Candidate} {i : ℕ}
    {b : Candidate} (h : considerOwner now w best i = some b) :
    best = some b ∨ (w.slots b.slot).live ∧ (w.slots b.slot).action = 2 := by
  unfold considerOwner at h
  dsimp only at h
  split at h
  · exact .inl h
  · next hnot =>
    simp only [not_or, not_not] at hnot
    generalize (if scheduled (w.slots i) then (w.slots i).execution.boundary.time
      else now.clock.time) = boundary at h
    split at h
    · exact .inl h
    · split at h
      · obtain rfl := Option.some.inj h
        exact .inr ⟨by simpa using hnot.1, hnot.2⟩
      · split at h
        · obtain rfl := Option.some.inj h
          exact .inr ⟨by simpa using hnot.1, hnot.2⟩
        · exact .inl h

/-- The choice of the owner is one move, or none. -/
theorem chooseOwner_moves (now : OperationContext) (w : Engine σ) :
    Moves c .idle w .idle (chooseOwner c now w) := by
  have hfold : ∀ (l : List ℕ) (best : Option Candidate),
      (∀ b, best = some b → (w.slots b.slot).live ∧ (w.slots b.slot).action = 2) →
      ∀ b, l.foldl (considerOwner now w) best = some b →
        (w.slots b.slot).live ∧ (w.slots b.slot).action = 2 := by
    intro l
    induction l with
    | nil => exact fun _ h => h
    | cons i l ih =>
      intro best hbest
      refine ih _ fun b hb => ?_
      rcases considerOwner_eq_some hb with h | h
      · exact hbest b h
      · exact h
  unfold chooseOwner
  split
  · exact .refl
  · next hnone =>
    cases hbest : (List.range c.transactions).foldl (considerOwner now w) none with
    | none =>
      have hsame : ({ w with effectOwner := none } : Engine σ) = w := by rw [← hnone]
      rw [Option.map_none, hsame]
      exact .refl
    | some b =>
      obtain ⟨hlive, haction⟩ := hfold _ none (by simp) b hbest
      exact (Act.own hnone hlive haction).moves

/-- A call of `progress` is a sequence of moves. -/
theorem progress_moves (now : OperationContext) (w : Engine σ) :
    Moves c .idle w .idle (progress c now w).2 := by
  unfold progress
  dsimp only
  refine (observeBackendFaults_moves w).trans ((scan_moves _).trans ?_)
  generalize scan c (observeBackendFaults c w) = v
  refine (chooseOwner_moves now v).trans (turns_moves List.nodup_range
    (fun i hi => List.mem_range.mp hi) ?_)
  intro i hi hnot hactive hrunning
  have hslots : (chooseOwner c now v).slots = v.slots := by
    unfold chooseOwner
    split <;> rfl
  rw [hslots] at hactive hrunning
  simp only [anyRunning, decide_eq_true_eq, not_exists, not_and] at hnot
  exact hnot i hi hactive hrunning

end Vita.Transaction.Engine
