import Vita.Transaction.Invariants

/-!
# Acknowledgements

A transaction is answered when it is admitted and when it is complete, and at no other time: the
validation is queued at admission, execution and state are queued together at completion. In between no
call touches what a slot has queued (`Silent`).

Main results:
- `Answer`: what one call does to the acknowledgements of a slot;
- `acknowledgements_follow_cam`: what has been queued in any run, and what `take_response` returns.
-/

namespace Vita.Transaction.Engine

open Checked Timing State Codec

variable {σ : Type} {c : Config σ} {w w' w'' : Engine σ}

/-! ## Acknowledgements that are due -/

/-- The command asks for the acknowledgement; with NACK-only, if there is something to report. -/
def due (ack : AckRecord) : Bool :=
  ack.cam.requests ack.kind ∧ (ack.kind = .state ∨ ¬ack.cam.nack ∨
    ∃ i, (ack.diagnostics i).warnings ≠ 0 ∨ (ack.diagnostics i).errors ≠ 0)

/-- What is queued of an acknowledgement. -/
def given (ack : AckRecord) : List AckRecord := if due ack then [ack] else []

theorem or_eq_zero_iff (a b : UInt32) : a ||| b = 0 ↔ a = 0 ∧ b = 0 := by
  constructor
  · intro h
    have hbits : a.toBitVec ||| b.toBitVec = 0#32 := by
      rw [← UInt32.toBitVec_or, h]
      rfl
    obtain ⟨ha, hb⟩ := BitVec.or_eq_zero_iff.mp hbits
    exact ⟨UInt32.toBitVec_inj.mp ha, UInt32.toBitVec_inj.mp hb⟩
  · rintro ⟨rfl, rfl⟩
    rfl

/-- The summary reports a problem if some field does. -/
theorem summary_eq_zero_iff (ack : AckRecord) :
    ack.summary.warnings = 0 ∧ ack.summary.errors = 0 ↔
      ∀ i, (ack.diagnostics i).warnings = 0 ∧ (ack.diagnostics i).errors = 0 := by
  have hfold : ∀ (l : List (Fin 8)) (d : Diagnostics),
      ((l.foldl (fun (d : Diagnostics) i => { warnings := d.warnings ||| (ack.diagnostics i).warnings
                                              errors := d.errors ||| (ack.diagnostics i).errors }) d).warnings = 0 ∧
        (l.foldl (fun (d : Diagnostics) i => { warnings := d.warnings ||| (ack.diagnostics i).warnings
                                               errors := d.errors ||| (ack.diagnostics i).errors }) d).errors = 0) ↔
      (d.warnings = 0 ∧ d.errors = 0) ∧
        ∀ i ∈ l, (ack.diagnostics i).warnings = 0 ∧ (ack.diagnostics i).errors = 0 := by
    intro l
    induction l with
    | nil => simp
    | cons i l ih =>
      intro d
      rw [List.foldl_cons, ih]
      simp only [or_eq_zero_iff, List.forall_mem_cons]
      tauto
  rw [AckRecord.summary, hfold]
  simp

theorem shouldEmit_eq_due (ack : AckRecord) : shouldEmit ack.cam ack.kind ack.summary = due ack := by
  have hsummary : (ack.summary.warnings ≠ 0 ∨ ack.summary.errors ≠ 0) ↔
      ∃ i, (ack.diagnostics i).warnings ≠ 0 ∨ (ack.diagnostics i).errors ≠ 0 := by
    rw [← not_and_or, summary_eq_zero_iff, not_forall]
    exact exists_congr fun i => not_and_or
  simp only [shouldEmit, due, hsummary]

/-! ## What a slot has said -/

/-- The transaction of a slot and what it has said. -/
structure Account where
  request : Request
  active : Bool
  complete : Bool
  generation : ℕ
  read : ℕ
  responses : List AckRecord

def account (s : Slot) : Account :=
  { request := s.request, active := s.active, complete := s.complete, generation := s.generation
    read := s.responseRead, responses := s.responses }

/-- No slot has said anything. -/
def Silent (w w' : Engine σ) : Prop := ∀ j, account (w'.slots j) = account (w.slots j)

namespace Silent

theorem refl (w : Engine σ) : Silent w w := fun _ => rfl

theorem trans (h : Silent w w') (h' : Silent w' w'') : Silent w w'' :=
  fun j => (h' j).trans (h j)

theorem of_slots (h : w'.slots = w.slots) : Silent w w' := fun _ => by rw [h]

theorem of_update {i : ℕ} {s : Slot} (h : w'.slots = Function.update w.slots i s)
    (hs : account s = account (w.slots i)) : Silent w w' := by
  intro j
  rw [h]
  by_cases hj : j = i
  · subst hj
    rw [Function.update_self, hs]
  · rw [Function.update_of_ne hj]

theorem setSlot {i : ℕ} {s : Slot} (hs : account s = account (w.slots i)) :
    Silent w (w.setSlot i s) :=
  of_update rfl hs

theorem foldl {α : Type} {f : Engine σ → α → Engine σ} (h : ∀ w a, Silent w (f w a)) (l : List α)
    (w : Engine σ) : Silent w (l.foldl f w) := by
  induction l generalizing w with
  | nil => exact refl w
  | cons a l ih => exact (h w a).trans (ih _)

end Silent

theorem releaseRevisions_silent (w : Engine σ) (token : Option ℕ) :
    Silent w (releaseRevisions c w token) := by
  cases token with
  | none => exact .refl w
  | some token => exact .of_slots rfl

theorem recordEvent_silent (i : ℕ) (event : EffectiveEvent) (w : Engine σ) :
    Silent w (recordEvent c i event w) := by
  rcases recordEvent_cases (c := c) i event w with h | ⟨env, credits, revisions, -, h⟩
  · rw [h]
    exact .refl w
  · rw [h]
    exact .of_update rfl rfl

theorem applyOutcome_silent (publish : Bool) (i field : ℕ) (reported : FieldOutcome) (w : Engine σ) :
    Silent w (applyOutcome c publish i field reported w) := by
  obtain ⟨hypothetical, credits, revisions, hs⟩ :=
    (applyOutcome_applied (c := c) publish i field reported w).slots
  refine .of_update hs ?_
  rw [recordOutcome_eq]
  rfl

/-- A scan of the completions queues no acknowledgement. -/
theorem scan_silent (w : Engine σ) : Silent w (scan c w) := by
  refine .foldl (fun w t => ?_) _ w
  unfold scanTicket
  split
  · exact .refl w
  · next record port _ =>
    have hport : Silent w (w.setPort port) := .of_slots rfl
    refine hport.trans ?_
    unfold consume
    split
    · exact .refl _
    · exact applyOutcome_silent true _ _ _ _

theorem validatePlan_account (s : Slot) (state : StateSnapshot) (armed : Bool) (e : Env σ) :
    account (validatePlan c s state armed e).2.1 = account s := by
  rw [validatePlan_eq]
  dsimp only
  split
  · rfl
  · rfl

theorem validate_silent {i : ℕ} {s : Slot} (w : Engine σ) (hs : account s = account (w.slots i)) :
    Silent w (validate c i s w).2 := by
  have haccount := (validatePlan_account (c := c) s w.state (armed c w i) w.env).trans hs
  unfold validate
  dsimp only
  split
  · exact .of_update rfl haccount
  · exact .of_update rfl haccount

theorem revalidate_silent (now : OperationContext) (i : ℕ) (w : Engine σ) :
    Silent w (revalidate c now i w) := by
  unfold revalidate
  dsimp only
  split
  · exact .refl w
  · exact (validate_silent (i := i) w (by rfl)).trans (.setSlot rfl)

theorem Rescheduled.account_eq {s s' : Slot} (h : Rescheduled s s') : account s' = account s := by
  rw [h.slot]
  rfl

theorem recheck_silent (now : OperationContext) (i : ℕ) (w : Engine σ) :
    Silent w (recheck c now i w).2 := by
  unfold recheck
  dsimp only
  split
  · exact validate_silent (i := i) w (by rfl)
  · exact .refl w

/-- A commit queues no acknowledgement. -/
theorem commitBatch_silent (commit : ExecutionPlan → Boundary → σ → Reply σ BatchOutcome)
    (now : OperationContext) (i : ℕ) (w : Engine σ) : Silent w (commitBatch c commit now i w) := by
  have hpublish : ∀ batch plan previous (v : Engine σ),
      Silent v (publishBatch c batch plan previous i v) := by
    intro batch plan previous v
    unfold publishBatch
    dsimp only
    split
    · exact recordEvent_silent i _ { v with state := _ }
    · exact .refl v
  have hcall : Silent w (callCommit c commit now i w).2 := .of_slots rfl
  exact hcall.trans ((Silent.foldl (fun w f => applyOutcome_silent false i f _ w) _ _).trans
    (hpublish _ _ _ _))

theorem blockField_silent (i field : ℕ) (w : Engine σ) : Silent w (blockField i field w) := by
  unfold blockField
  dsimp only
  split
  · exact .refl w
  · split
    · exact .of_update rfl rfl
    · exact .setSlot rfl

theorem beginField_silent (start : PlannedField → Boundary → AsyncResult → σ → Reply σ Bool)
    (now : OperationContext) (i field : ℕ) (w : Engine σ) :
    Silent w (beginField c start now i field w) :=
  .of_update (beginField_slots start now i field w) rfl

/-! ## The end of a transaction -/

/-- `responses.push_back`, after `should_emit`. -/
def push (responses : List AckRecord) (ack : AckRecord) : List AckRecord :=
  if due ack ∧ responses.length < 3 then responses ++ [ack] else responses

theorem push_eq (responses : List AckRecord) (ack : AckRecord) (h : responses.length < 3) :
    push responses ack = responses ++ given ack := by
  unfold push given
  by_cases hdue : due ack
  · simp [hdue, h]
  · simp [hdue]

/-- An acknowledgement is built from the slot and queued in it. -/
theorem queueAck_slots (i : ℕ) (kind : AckKind) (observed : StateSnapshot) (now : OperationContext)
    (w : Engine σ) : ∃ reported, (queueAck c i kind observed now w).slots =
      Function.update w.slots i { w.slots i with
        responses := push (w.slots i).responses
          (buildAck c (w.slots i) kind observed reported now) } := by
  have hreport : ∀ (v : Engine σ) (reported : StateSnapshot), v.slots = w.slots →
      (if shouldEmit (buildAck c (v.slots i) kind observed reported now).cam kind
            (buildAck c (v.slots i) kind observed reported now).summary ∧
          (v.slots i).responses.length < 3 then
          v.setSlot i { v.slots i with
            responses := (v.slots i).responses ++ [buildAck c (v.slots i) kind observed reported now] }
        else v).slots =
      Function.update w.slots i { w.slots i with
        responses := push (w.slots i).responses
          (buildAck c (w.slots i) kind observed reported now) } := by
    intro v reported hv
    rw [hv]
    have hkind : (buildAck c (w.slots i) kind observed reported now).kind = kind := rfl
    have hdue := shouldEmit_eq_due (buildAck c (w.slots i) kind observed reported now)
    rw [hkind] at hdue
    rw [hdue]
    unfold push
    split
    · rw [setSlot_slots, hv]
    · rw [hv]
      exact (Function.update_eq_self i _).symm
  unfold queueAck
  dsimp only
  split
  · exact ⟨_, hreport _ _ rfl⟩
  · exact ⟨_, hreport _ _ rfl⟩

/-- The acknowledgements of a slot when its transaction ends. -/
def closing (c : Config σ) (s : Slot) (observed reported reported' : StateSnapshot)
    (now : OperationContext) (responses : List AckRecord) : List AckRecord :=
  push (push responses (buildAck c s .execution observed reported now))
    (buildAck c s .state observed reported' now)

/-- The end of a turn completes the slot and queues the acknowledgements that close it. -/
theorem finish_slots (i : ℕ) (now : OperationContext) (w : Engine σ) :
    ∃ observed reported reported', (finish c i now w).slots = Function.update w.slots i
      { w.slots i with
        complete := true, revisions := none
        responses := closing c (w.slots i) observed reported reported' now (w.slots i).responses } := by
  unfold finish
  dsimp only
  generalize (if (w.slots i).action = 1 then (w.slots i).hypothetical else w.state) = observed
  obtain ⟨reported, h⟩ := queueAck_slots (c := c) i .execution observed now w
  generalize queueAck c i .execution observed now w = v at h
  obtain ⟨reported', h'⟩ := queueAck_slots (c := c) i .state observed now v
  generalize queueAck c i .state observed now v = u at h'
  rw [h, Function.update_self, Function.update_idem] at h'
  refine ⟨observed, reported, reported', ?_⟩
  have hrelease : ∀ (v : Engine σ) (token : Option ℕ), (releaseRevisions c v token).slots = v.slots := by
    intro v token
    cases token
    · rfl
    · rfl
  have howner : ∀ v : Engine σ,
      (if v.effectOwner = some i then { v with effectOwner := none } else v).slots = v.slots := by
    intro v
    split
    · rfl
    · rfl
  rw [emit_slots, howner, hrelease, setSlot_slots, h', Function.update_self, Function.update_idem]
  rfl

/-- A call is silent, or it ends silently but for the end of a transaction. -/
def Ends (c : Config σ) (i : ℕ) (now : OperationContext) (w w' : Engine σ) : Prop :=
  ∃ v, Silent w v ∧ (w' = v ∨ w' = finish c i now v)

theorem Ends.silent {i : ℕ} {now : OperationContext} (h : Silent w w') : Ends c i now w w' :=
  ⟨w', h, .inl rfl⟩

theorem Ends.finish {i : ℕ} {now : OperationContext} (h : Silent w w') :
    Ends c i now w (finish c i now w') :=
  ⟨w', h, .inr rfl⟩

theorem Silent.ends {i : ℕ} {now : OperationContext} (h : Silent w w') (h' : Ends c i now w' w'') :
    Ends c i now w w'' := by
  obtain ⟨v, hv, hend⟩ := h'
  exact ⟨v, h.trans hv, hend⟩

/-- A walk through the fields is silent, but for the end of the transaction. -/
theorem walk_ends (now : OperationContext) (i n : ℕ) (w : Engine σ) :
    Ends c i now w (walk c now i n w).2 := by
  induction n generalizing w with
  | zero => exact .finish (.refl w)
  | succ n ih =>
    simp only [walk]
    split
    · refine Silent.ends ?_ (ih _)
      exact .setSlot rfl
    · refine (blockField_silent i ((w.slots i).execution.order (w.slots i).step) w).ends ?_
      generalize blockField i ((w.slots i).execution.order (w.slots i).step) w = v
      split
      · refine Silent.ends ?_ (ih _)
        exact .setSlot rfl
      · split
        · split
          · exact .silent (.refl v)
          · next simulate _ =>
            refine Silent.ends ?_ (ih _)
            refine Silent.trans ?_ (applyOutcome_silent true i _ _ _)
            exact .of_slots rfl
        · split
          · exact .silent (.refl v)
          · split
            · exact .silent (.refl v)
            · exact .silent (beginField_silent _ now i _ v)

/-- A turn is silent until the transaction ends. -/
theorem carryOut_ends (now : OperationContext) (i : ℕ) (w : Engine σ) :
    Ends c i now w (carryOut c now i w).2 := by
  have hrecheck := recheck_silent (c := c) now i w
  unfold carryOut
  dsimp only
  split
  · split
    · next commit v _ heq =>
      rw [heq] at hrecheck
      exact .finish (hrecheck.trans (commitBatch_silent commit now i v))
    · next v heq _ =>
      rw [heq] at hrecheck
      refine Silent.ends (hrecheck.trans ?_) (walk_ends now i _ _)
      exact .setSlot rfl
  · exact walk_ends now i _ w

theorem attempt_ends (now : OperationContext) (i : ℕ) (w : Engine σ) :
    Ends c i now w (attempt c now i w).2 := by
  refine Silent.ends ?_ (carryOut_ends now i _)
  exact .setSlot (validateBoundaryState_rescheduled (c := c) w.timeline (w.slots i)).account_eq

/-- An execution is silent until the transaction ends. -/
theorem execute_ends (now : OperationContext) (i : ℕ) (w : Engine σ) :
    Ends c i now w (execute c now i w).2 := by
  have hreschedule := reschedule_rescheduled (c := c) now (w.slots i)
  unfold execute
  dsimp only
  split
  · split
    · exact .silent (.of_update rfl hreschedule.account_eq)
    · refine Silent.ends ?_ (attempt_ends now i _)
      exact .setSlot (hreschedule.trans (checkWindow_rescheduled now _)).account_eq
  · exact attempt_ends now i w

/-- In its turn a transaction that is not complete may end. -/
theorem turn_ends (now : OperationContext) (running : Bool) (i : ℕ) (w : Engine σ) :
    (turn c now running i w).2 = w ∨
      (w.slots i).live ∧ Ends c i now w (turn c now running i w).2 := by
  unfold turn
  dsimp only
  split
  · exact .inl rfl
  · next hlive =>
    rw [not_not] at hlive
    split
    · refine .inr ⟨hlive, .finish ?_⟩
      exact .setSlot rfl
    · split
      · exact .inl rfl
      · split
        · exact .inl rfl
        · split
          · exact .inr ⟨hlive, .finish (.refl w)⟩
          · exact .inr ⟨hlive, (revalidate_silent now i w).ends (execute_ends now i _)⟩

/-! ## One call -/

/-- What a call of `progress` does to a slot. At its end the execution and the state are reported as the
slot has them then. -/
inductive Closes (c : Config σ) (s s' : Slot) : Prop
  | silent (h : account s' = account s)
  | closed (hactive : s.active) (hlive : ¬s.complete) (observed reported reported' : StateSnapshot)
      (now : OperationContext)
      (h : account s' = { account s with
        complete := true, responses := closing c s' observed reported reported' now s.responses })

namespace Closes

theorem refl (s : Slot) : Closes c s s := .silent rfl

/-- What happens in silence before does not matter. -/
theorem after {s s' s'' : Slot} (h' : Closes c s' s'') (h : account s' = account s) : Closes c s s'' := by
  cases h' with
  | silent h' => exact .silent (h'.trans h)
  | closed hactive hlive observed reported reported' now h' =>
    have hactive' : s'.active = s.active := congrArg Account.active h
    have hcomplete : s'.complete = s.complete := congrArg Account.complete h
    have hresponses : s'.responses = s.responses := congrArg Account.responses h
    refine .closed (hactive' ▸ hactive) (hcomplete ▸ hlive) observed reported reported' now ?_
    rw [h', h, hresponses]

/-- Behind the end of a transaction its slot is left alone. -/
theorem trans {s s' s'' : Slot} (h : Closes c s s') (h' : Closes c s' s'') (hend : ¬s'.live → s'' = s') :
    Closes c s s'' := by
  cases h with
  | silent h => exact h'.after h
  | closed hactive hlive observed reported reported' now h =>
    have hcomplete : s'.complete = true := congrArg Account.complete h
    rw [hend (by simp [Slot.live, hcomplete])]
    exact .closed hactive hlive observed reported reported' now h

end Closes

/-- The end of a transaction closes its slot. -/
theorem Ends.closes {i : ℕ} {now : OperationContext} (h : Ends c i now w w') (hlive : (w.slots i).live) :
    Closes c (w.slots i) (w'.slots i) := by
  obtain ⟨v, hv, rfl | rfl⟩ := h
  · exact .silent (hv i)
  · obtain ⟨observed, reported, reported', hslots⟩ := finish_slots (c := c) i now v
    simp only [Slot.live, decide_eq_true_eq] at hlive
    have hresponses : (v.slots i).responses = (w.slots i).responses :=
      congrArg Account.responses (hv i)
    rw [hslots, Function.update_self]
    refine .closed hlive.1 hlive.2 observed reported reported' now ?_
    rw [← hv i, ← hresponses]
    rfl

/-- A turn may end the transaction of its own slot, unless that is complete, and no other one. -/
theorem turn_closes (now : OperationContext) (running : Bool) (i : ℕ) (w : Engine σ) (j : ℕ) :
    Closes c (w.slots j) ((turn c now running i w).2.slots j) ∧
      (¬(w.slots j).live → (turn c now running i w).2.slots j = w.slots j) := by
  rcases turn_ends (c := c) now running i w with h | ⟨hlive, h⟩
  · rw [h]
    exact ⟨.refl _, fun _ => rfl⟩
  · by_cases hj : j = i
    · subst hj
      exact ⟨h.closes hlive, fun hdone => absurd hlive hdone⟩
    · rw [turn_only now running i w j hj]
      exact ⟨.refl _, fun _ => rfl⟩

/-- The turns close some slots, and leave those that were not live. -/
theorem turns_closes (now : OperationContext) (running : Bool) (l : List ℕ) (w : Engine σ) (j : ℕ) :
    Closes c (w.slots j) ((turns c now running l w).2.slots j) ∧
      (¬(w.slots j).live → (turns c now running l w).2.slots j = w.slots j) := by
  induction l generalizing w with
  | nil => exact ⟨.refl _, fun _ => rfl⟩
  | cons i l ih =>
    have hturn := turn_closes (c := c) now running i w j
    unfold turns
    split
    · next v hv =>
      rw [hv] at hturn
      obtain ⟨hclosed, hsame⟩ := hturn
      obtain ⟨hrest, hend⟩ := ih v
      refine ⟨hclosed.trans hrest hend, fun hdone => ?_⟩
      have hv' : v.slots j = w.slots j := hsame hdone
      rw [hend (by rw [hv']; exact hdone), hv']
    · next result v hv =>
      rw [hv] at hturn
      exact hturn

/-- A call of `progress` closes some slots and is silent in the others. -/
theorem progress_closes (now : OperationContext) (w : Engine σ) (j : ℕ) :
    Closes c (w.slots j) ((progress c now w).2.slots j) := by
  have hscan : Silent w (scan c (observeBackendFaults c w)) :=
    (Silent.of_slots (observeBackendFaults_slots w).1).trans (scan_silent _)
  have hchoose : Silent (scan c (observeBackendFaults c w))
      (chooseOwner c now (scan c (observeBackendFaults c w))) := by
    unfold chooseOwner
    split
    · exact .refl _
    · exact .of_slots rfl
  have hturns := turns_closes (c := c) now (anyRunning c (scan c (observeBackendFaults c w)))
    (List.range c.transactions) (chooseOwner c now (scan c (observeBackendFaults c w))) j
  exact hturns.1.after ((hscan.trans hchoose) j)

/-! ## Calls that say nothing -/

/-- An effect that was disarmed leaves the slots. -/
theorem completeDisarmed_slots (cap : AsyncResult) (id : FieldId) (timing : UInt32)
    (disarmed : DisarmResult) (w : Engine σ) :
    (completeDisarmed cap id timing disarmed w).2.slots = w.slots := by
  unfold completeDisarmed
  split
  · dsimp only
    split
    · rfl
    · rfl
  · rfl
  · rfl

/-- Disarming leaves the slots. -/
theorem disarmField_slots (i field : ℕ) (id : FieldId) (timing : UInt32) (w : Engine σ) :
    (disarmField c i field id timing w).2.2.slots = w.slots := by
  have hcall : ∀ (cap : AsyncResult) (v : Engine σ), (callDisarm c i cap v).2.slots = v.slots := by
    intro cap v
    unfold callDisarm
    split
    · rfl
    · rfl
  unfold disarmField
  dsimp only
  rw [setPort_slots, completeDisarmed_slots, hcall, setPort_slots]

/-- The cancellation of a field queues no acknowledgement in a slot. -/
theorem cancelField_silent (i : ℕ) (p : CancelProgress σ) (k : Fin 8) :
    Silent p.engine (cancelField c i p k).engine := by
  unfold cancelField
  dsimp only
  split
  · exact .refl _
  · next field _ =>
    have hdisarm := disarmField_slots (c := c) i field (stateField k) 0 p.engine
    split
    · split
      · split
        · next v hv =>
          rw [hv] at hdisarm
          exact .of_slots hdisarm
        · next v hv =>
          rw [hv] at hdisarm
          exact .of_slots hdisarm
        · next v _ hv =>
          rw [hv] at hdisarm
          exact .of_slots hdisarm
      · exact .of_update rfl rfl
    · exact .refl _

/-- Neither does that of a whole command. -/
theorem cancel_silent (handle : Handle) (packet : PacketView) (now : OperationContext)
    (reserved : AdmissionBundle) (w : Engine σ) : Silent w (cancel c handle packet now reserved w).2 := by
  have hfields : ∀ (l : List (Fin 8)) (p : CancelProgress σ),
      Silent p.engine (l.foldl (cancelField c handle.slot) p).engine := by
    intro l
    induction l with
    | nil => exact fun p => .refl _
    | cons k l ih => exact fun p => (cancelField_silent handle.slot p k).trans (ih _)
  unfold cancel
  split
  · exact .of_slots rfl
  · next cam selected _ =>
    obtain ⟨pool, hpool⟩ := cancelCredits_spec cam reserved w
    have hcredits : Silent w (cancelCredits cam reserved w).2 := .of_slots (by rw [hpool])
    split
    · next v hv =>
      rw [hv] at hcredits
      exact hcredits
    · next credits v hv =>
      rw [hv] at hcredits
      dsimp only
      split
      · exact hcredits
      · exact hcredits.trans ((scan_silent v).trans ((hfields _ _).trans (scan_silent _)))

/-- A slot is made quiet silently. -/
theorem quiesceSlot_silent (w : Engine σ) (i : ℕ) : Silent w (quiesceSlot c w i) := by
  have hfield : ∀ (v : Engine σ) (field : ℕ), Silent v (quiesceField c i v field) := by
    intro v field
    unfold quiesceField
    dsimp only
    split
    · exact .refl v
    · have hmark : Silent v (v.setSlot i { v.slots i with
          cancelled := Function.update (v.slots i).cancelled field true }) := .setSlot rfl
      split
      · split
        · exact .refl v
        · exact hmark.trans (.of_slots (disarmField_slots i field _ _ _))
      · exact hmark
  unfold quiesceSlot
  split
  · exact .foldl hfield _ w
  · exact .refl w

theorem requestQuiesce_closes (now : OperationContext) (w : Engine σ) (j : ℕ) :
    Closes c (w.slots j) ((requestQuiesce c now w).2.slots j) := by
  unfold requestQuiesce
  split
  · exact .refl _
  · have hquiescing : Silent w { w with quiescing := true } := .of_slots rfl
    have hscan : Silent w (scan c { w with quiescing := true }) := hquiescing.trans (scan_silent _)
    have hquiet := hscan.trans (.foldl (quiesceSlot_silent (c := c)) (List.range c.transactions) _)
    exact (progress_closes now _ j).after (hquiet j)

/-- A reset queues no acknowledgement. -/
theorem resetState_silent (confirmed : StateSnapshot) (generation : ℕ) (w : Engine σ) :
    Silent w (resetState c confirmed generation w).2 := by
  have hsafe : (safeToReset c w).2.slots = w.slots := by
    unfold safeToReset
    dsimp only
    split
    · rfl
    · rfl
  unfold resetState
  split
  · exact .refl w
  · split
    · next v hv =>
      rw [hv] at hsafe
      exact .of_slots hsafe
    · next v hv =>
      rw [hv] at hsafe
      exact .of_slots hsafe

/-! ## Admission -/

/-- What a call does to the acknowledgements of a slot, and what it returns of them. -/
inductive Answer (c : Config σ) (s s' : Slot) : List AckRecord → Prop
  /-- Nothing. -/
  | silent (h : account s' = account s) : Answer c s s' []
  /-- A slot without a transaction stays one. -/
  | idle (hs : s.active = false) (hs' : s'.active = false) (hgeneration : s'.generation = s.generation) :
      Answer c s s' []
  /-- A transaction is admitted, and the validation of its plan is queued, as it is now in the slot. -/
  | admitted (hs : s.active = false) (observed reported : StateSnapshot) (now : OperationContext)
      (h : account s' =
        { request := s'.request, active := true, complete := false, generation := s.generation
          read := 0, responses := given (buildAck c s' .validation observed reported now) }) :
      Answer c s s' []
  /-- A transaction is complete, and its outcomes and its state are queued, as they are now in the slot. -/
  | closed (hactive : s.active) (hlive : ¬s.complete) (observed reported reported' : StateSnapshot)
      (now : OperationContext)
      (h : account s' = { account s with
        complete := true
        responses := s.responses ++ given (buildAck c s' .execution observed reported now) ++
          given (buildAck c s' .state observed reported' now) }) : Answer c s s' []
  /-- The next acknowledgement is taken. -/
  | taken (hs : s.active) (ack : AckRecord) (hack : s.responses[s.responseRead]? = some ack)
      (h : account s' = { account s with read := s.responseRead + 1 }) : Answer c s s' [ack]
  /-- A complete transaction whose acknowledgements were all taken is released. -/
  | released (hs : s.active) (hcomplete : s.complete) (hread : s.responseRead = s.responses.length)
      (hs' : s'.active = false) (hgeneration : s'.generation = s.generation + 1) : Answer c s s' []

theorem Silent.answer (h : Silent w w') (j : ℕ) : Answer c (w.slots j) (w'.slots j) [] := .silent (h j)

/-- The slot of an admission before it is active. -/
structure Prepared (i : ℕ) (r : Request) (w v : Engine σ) : Prop where
  other : ∀ j, j ≠ i → account (v.slots j) = account (w.slots j)
  slot : account (v.slots i) =
    { request := r, active := false, complete := false, generation := (w.slots i).generation
      read := 0, responses := [] }

namespace Prepared

variable {i : ℕ} {r r' : Request} {v v' : Engine σ}

theorem silent (h : Prepared i r w v) (hs : Silent v v') : Prepared i r w v' :=
  ⟨fun j hj => (hs j).trans (h.other j hj), (hs i).trans h.slot⟩

theorem setSlot (h : Prepared i r w v) {s : Slot}
    (hs : account s = { account (v.slots i) with request := r' }) :
    Prepared i r' w (v.setSlot i s) := by
  refine ⟨fun j hj => ?_, ?_⟩
  · rw [setSlot_slots, Function.update_of_ne hj]
    exact h.other j hj
  · rw [setSlot_slots, Function.update_self, hs, h.slot]

/-- An admission that fails leaves a slot without a transaction. -/
theorem answer (h : Prepared i r w v) (hidle : (w.slots i).active = false) (j : ℕ) :
    Answer c (w.slots j) (v.slots j) [] := by
  by_cases hj : j = i
  · subst hj
    exact .idle hidle (congrArg Account.active h.slot) (congrArg Account.generation h.slot)
  · exact .silent (h.other j hj)

end Prepared

theorem abandonAdmission_silent (i : ℕ) (credits : AdmissionBundle) (w : Engine σ) :
    Silent w (abandonAdmission c i credits w) := by
  have hslot : Silent w (w.setSlot i { w.slots i with revisions := none }) := .setSlot rfl
  exact hslot.trans ((releaseRevisions_silent _ _).trans (.of_slots rfl))

theorem dropTokens_silent (i : ℕ) (w : Engine σ) : Silent w (dropTokens c i w) := .of_update rfl rfl

/-- Neither does the reservation of tickets. -/
theorem reserveTickets_silent (i : ℕ) (now : OperationContext) (l : List ℕ) (w : Engine σ) :
    Silent w (reserveTickets c i now l w).2 := by
  induction l generalizing w with
  | nil => exact .refl w
  | cons f l ih =>
    have hticket : Silent w (reserveTicket c i f now w).2 := by
      unfold reserveTicket
      dsimp only
      split
      · exact .of_slots rfl
      · exact .of_update rfl rfl
    unfold reserveTickets
    split
    · next e v hv =>
      rw [hv] at hticket
      exact hticket
    · next v hv =>
      rw [hv] at hticket
      exact hticket.trans (ih v)

theorem disarmStarts_silent (i : ℕ) (s : Slot) (w : Engine σ) : Silent w (disarmStarts c i s w) := by
  obtain ⟨slots, h, hmarked, -⟩ := disarmStarts_spec (c := c) i s w
  intro j
  rw [h]
  change account (slots j) = _
  rw [(hmarked j).slot]
  rfl

theorem reserveRevisions_silent (r : Request) (w : Engine σ) : Silent w (reserveRevisions c r w).2 := by
  unfold reserveRevisions
  split
  · exact .refl w
  · split
    · split
      · next heq => exact .of_slots (congrArg (fun x => x.2.slots) heq).symm
      · next heq => exact .of_slots (congrArg (fun x => x.2.slots) heq).symm
    · exact .refl w

/-- The transaction is admitted. -/
theorem activate_answer {i : ℕ} {r : Request} {v : Engine σ} (h : Prepared i r w v)
    (hidle : (w.slots i).active = false) (credits : AdmissionBundle) (now : OperationContext) (j : ℕ) :
    Answer c (w.slots j) ((activate c i credits now v).slots j) [] := by
  have hqueue : ∃ (u : Engine σ) (observed : StateSnapshot),
      activate c i credits now v = queueAck c i .validation observed now u ∧
        u.slots = Function.update v.slots i
          { v.slots i with credits, active := true, sequence := v.nextSequence } := ⟨_, _, rfl, rfl⟩
  obtain ⟨u, observed, hactivate, hslots⟩ := hqueue
  obtain ⟨reported, hqueue⟩ := queueAck_slots (c := c) i .validation observed now u
  rw [hactivate, hqueue, hslots, Function.update_self, Function.update_idem]
  by_cases hj : j = i
  · subst hj
    rw [Function.update_self]
    have hresponses : (v.slots j).responses = [] := congrArg Account.responses h.slot
    refine .admitted hidle observed reported now ?_
    rw [push_eq _ _ (by rw [hresponses]; decide), hresponses, List.nil_append]
    have hcomplete : (v.slots j).complete = false := congrArg Account.complete h.slot
    have hgeneration : (v.slots j).generation = (w.slots j).generation :=
      congrArg Account.generation h.slot
    have hread : (v.slots j).responseRead = 0 := congrArg Account.read h.slot
    simp only [account, hcomplete, hgeneration, hread]
    rfl
  · rw [Function.update_of_ne hj]
    exact .silent (h.other j hj)

/-- An admission starts a slot with the acknowledgement of its validation. -/
theorem admitRequest_answer {i : ℕ} (hidle : (w.slots i).active = false) (r : Request)
    (credits : AdmissionBundle) (now : OperationContext) (j : ℕ) :
    Answer c (w.slots j) ((admitRequest c i r credits now w).2.slots j) [] := by
  have hclear : Prepared i {} w (w.setSlot i (clearedSlot (w.slots i) w.state)) := by
    refine ⟨fun k hk => ?_, ?_⟩
    · rw [setSlot_slots, Function.update_of_ne hk]
    · rw [setSlot_slots, Function.update_self]
      simp only [account, clearedSlot, hidle]
  have hreserve := hclear.silent (reserveRevisions_silent (c := c) r _)
  unfold admitRequest
  split
  · next e v hv =>
    rw [hv] at hreserve
    exact (hreserve.silent (abandonAdmission_silent i credits v)).answer hidle j
  · next revisions v hv =>
    rw [hv] at hreserve
    have hplan := validatePlan_account (c := c) (newSlot c (v.slots i) r revisions now) v.state
      (armed c v i) v.env
    split
    · next s env hs =>
      rw [hs] at hplan
      have hset : Prepared i r w { v.setSlot i s with env } :=
        (hreserve.setSlot hplan).silent (.of_slots rfl)
      exact (hset.silent (abandonAdmission_silent i credits _)).answer hidle j
    · next s env hs =>
      rw [hs] at hplan
      have hahead : account (checkAhead c now (chooseFirst c now s)) = account s :=
        ((chooseFirst_rescheduled now s).trans (checkAhead_rescheduled now _)).account_eq
      dsimp only
      generalize checkAhead c now (chooseFirst c now s) = s' at hahead
      have hdisarm : Prepared i {} w (disarmStarts c i s' { v with env }) :=
        (hreserve.silent (.of_slots rfl)).silent (disarmStarts_silent i s' { v with env })
      have hslot : account ((disarmStarts c i s' { v with env }).slots i) = account (v.slots i) :=
        hdisarm.slot.trans hreserve.slot.symm
      generalize disarmStarts c i s' { v with env } = u at hdisarm hslot
      have hset : Prepared i r w (u.setSlot i (validateBoundaryState c u.timeline s')) := by
        refine hdisarm.setSlot ?_
        rw [(validateBoundaryState_rescheduled u.timeline s').account_eq, hahead, hslot]
        exact hplan
      have htickets := hset.silent (reserveTickets_silent (c := c) i now (List.range 4) _)
      split
      · next e x hx =>
        rw [hx] at htickets
        exact ((htickets.silent (dropTokens_silent (c := c) i x)).silent
          (abandonAdmission_silent i credits _)).answer hidle j
      · next x hx =>
        rw [hx] at htickets
        exact activate_answer htickets hidle credits now j

/-- A packet that is accepted changes the slots as an admission does. -/
theorem accept_answer (packet : PacketView) (now : OperationContext) (w : Engine σ) (j : ℕ) :
    Answer c (w.slots j) ((accept c packet now w).2.slots j) [] := by
  have hfaults : ∀ v : Engine σ, (observeBackendFaults c v).slots = v.slots := fun v =>
    (observeBackendFaults_slots v).1
  unfold accept
  dsimp only
  split
  · exact .silent (by rw [hfaults])
  · next r _ =>
    have hslots : (observeBackendFaults c (observeBackendFaults c w)).slots = w.slots := by
      rw [hfaults, hfaults]
    split
    · exact .silent (by rw [hslots])
    · split
      · exact .silent (by rw [hslots])
      · next i hi =>
        obtain ⟨-, hidle, -⟩ := freeSlot_eq_some hi
        rw [hfaults] at hidle
        generalize observeBackendFaults c (observeBackendFaults c w) = v at hslots
        split
        · exact .silent (by rw [hslots])
        · split
          · exact .silent (by rw [hslots])
          · next credits pool _ =>
            have hanswer := admitRequest_answer (c := c) (w := { v with pool }) (i := i)
              (by rw [← hslots] at hidle; exact hidle) r credits now j
            rw [← hslots]
            exact hanswer

/-! ## Taking and releasing -/

/-- What a call returns of the acknowledgements of a slot. -/
def returned (c : Config σ) (j : ℕ) (w : Engine σ) : Input σ → List AckRecord
  | .takeResponse handle =>
    if handle.slot = j then
      match (takeResponse c handle w).1 with
      | .ok (some ack) => [ack]
      | _ => []
    else []
  | _ => []

/-- The first response that is left is taken from its slot. -/
theorem takeResponse_answer (handle : Handle) (w : Engine σ) (j : ℕ) :
    Answer c (w.slots j) ((takeResponse c handle w).2.slots j)
      (returned c j w (.takeResponse handle)) := by
  unfold returned takeResponse
  dsimp only
  split
  · simpa using Answer.silent rfl
  · split
    · simpa using Answer.silent rfl
    · next hactive =>
      simp only [not_or, not_not, Bool.not_eq_true, Bool.not_eq_false] at hactive
      split
      · simpa using Answer.silent rfl
      · next ack hack =>
        dsimp only
        by_cases hj : handle.slot = j
        · subst hj
          rw [setSlot_slots, Function.update_self, if_pos rfl]
          exact .taken hactive.1 ack hack rfl
        · rw [setSlot_slots, Function.update_of_ne (Ne.symm hj), if_neg hj]
          exact .silent rfl

/-- A released slot is of the next generation. -/
theorem release_answer (handle : Handle) (w : Engine σ) (j : ℕ) :
    Answer c (w.slots j) ((release c handle w).2.slots j) [] := by
  unfold release dropTokens
  dsimp only
  split
  · exact .silent rfl
  · split
    · exact .silent rfl
    · next hcond =>
      simp only [not_or, not_not, Bool.not_eq_true, Bool.not_eq_false] at hcond
      simp only [setSlot, setPort, Function.update_self, Function.update_idem]
      by_cases hj : j = handle.slot
      · subst hj
        rw [Function.update_self]
        exact .released hcond.1 hcond.2.2.1 hcond.2.2.2 rfl rfl
      · rw [Function.update_of_ne hj]
        exact .silent rfl

/-! ## Runs -/

/-- The slot `j` as it is right after the call that admitted its transaction. -/
def Admits (c : Config σ) (start : Engine σ) (inputs : List (Input σ)) (j : ℕ) (x : Slot) : Prop :=
  ∃ before input after, inputs = before ++ input :: after ∧
    ((run c start before).slots j).active = false ∧
    x = (run c start (before ++ [input])).slots j ∧ x.active

/-- The slot `j` as it is right after the call that completed its transaction. -/
def Completes (c : Config σ) (start : Engine σ) (inputs : List (Input σ)) (j : ℕ) (y : Slot) : Prop :=
  ∃ before input after, inputs = before ++ input :: after ∧ ((run c start before).slots j).live ∧
    y = (run c start (before ++ [input])).slots j ∧ y.active ∧ y.complete

/-- The validation of the transaction with the generation `g`, for the plan that it was admitted with. -/
def Validated (c : Config σ) (P : Slot → Prop) (g : ℕ) (r : Request) (acks : List AckRecord) : Prop :=
  ∃ x observed reported now, P x ∧ x.generation = g ∧ x.request = r ∧
    acks = given (buildAck c x .validation observed reported now)

/-- All acknowledgements of that transaction, the others for the outcomes that it was completed with. -/
def Concluded (c : Config σ) (P Q : Slot → Prop) (g : ℕ) (r : Request) (acks : List AckRecord) : Prop :=
  ∃ v y observed reported reported' now, Validated c P g r v ∧ Q y ∧ y.generation = g ∧ y.request = r ∧
    acks = v ++ given (buildAck c y .execution observed reported now) ++
      given (buildAck c y .state observed reported' now)

/-- The acknowledgements of a transaction so far. -/
structure Acknowledged (c : Config σ) (P Q : Slot → Prop) (s : Slot) : Prop where
  admitted : s.active → ¬s.complete → Validated c P s.generation s.request s.responses
  closed : s.active → s.complete → Concluded c P Q s.generation s.request s.responses
  read : s.active → s.responseRead ≤ s.responses.length

section Queued

variable {P P' Q Q' : Slot → Prop} {g : ℕ} {r : Request} {acks : List AckRecord}

theorem Validated.mono (h : Validated c P g r acks) (hP : ∀ x, P x → P' x) : Validated c P' g r acks := by
  obtain ⟨x, observed, reported, now, hx, hg, hr, hacks⟩ := h
  exact ⟨x, observed, reported, now, hP x hx, hg, hr, hacks⟩

theorem Concluded.mono (h : Concluded c P Q g r acks) (hP : ∀ x, P x → P' x) (hQ : ∀ y, Q y → Q' y) :
    Concluded c P' Q' g r acks := by
  obtain ⟨v, y, observed, reported, reported', now, hv, hy, hg, hr, hacks⟩ := h
  exact ⟨v, y, observed, reported, reported', now, hv.mono hP, hQ y hy, hg, hr, hacks⟩

theorem length_given (ack : AckRecord) : (given ack).length ≤ 1 := by
  unfold given
  split
  · exact le_rfl
  · exact Nat.zero_le 1

theorem kinds_given (s : Slot) (kind : AckKind) (observed reported : StateSnapshot)
    (now : OperationContext) :
    ((given (buildAck c s kind observed reported now)).map AckRecord.kind).Sublist [kind] := by
  unfold given
  split
  · exact List.Sublist.refl _
  · exact List.nil_sublist _

theorem Validated.kinds (h : Validated c P g r acks) : (acks.map AckRecord.kind).Sublist [.validation] := by
  obtain ⟨x, observed, reported, now, -, -, -, rfl⟩ := h
  exact kinds_given x .validation observed reported now

theorem Validated.length_le (h : Validated c P g r acks) : acks.length ≤ 1 := by
  simpa using h.kinds.length_le

theorem Concluded.kinds (h : Concluded c P Q g r acks) :
    (acks.map AckRecord.kind).Sublist [.validation, .execution, .state] := by
  obtain ⟨v, y, observed, reported, reported', now, hv, -, -, -, rfl⟩ := h
  rw [List.map_append, List.map_append]
  exact (hv.kinds.append (kinds_given y .execution observed reported now)).append
    (kinds_given y .state observed reported' now)

theorem Acknowledged.kinds {s : Slot} (h : Acknowledged c P Q s) (hactive : s.active) :
    (s.responses.map AckRecord.kind).Sublist [.validation, .execution, .state] := by
  by_cases hcomplete : s.complete
  · exact (h.closed hactive hcomplete).kinds
  · exact (h.admitted hactive hcomplete).kinds.trans (List.singleton_sublist.mpr (List.mem_cons_self ..))

end Queued

/-- The buffer of three responses has room for the end of a transaction. -/
theorem closing_eq {s x : Slot} (h : s.responses.length ≤ 1)
    (observed reported reported' : StateSnapshot) (now : OperationContext) :
    closing c x observed reported reported' now s.responses =
      s.responses ++ given (buildAck c x .execution observed reported now) ++
        given (buildAck c x .state observed reported' now) := by
  have hlength := length_given (buildAck c x .execution observed reported now)
  have hexecution := push_eq s.responses (buildAck c x .execution observed reported now)
    (by omega)
  rw [closing, hexecution, push_eq]
  rw [List.length_append]
  omega

section Steps

variable {P P' Q Q' : Slot → Prop}

theorem Closes.answer {s s' : Slot} (h : Closes c s s') (hs : Acknowledged c P Q s) :
    Answer c s s' [] := by
  cases h with
  | silent h => exact .silent h
  | closed hactive hlive observed reported reported' now h =>
    rw [closing_eq (hs.admitted hactive hlive).length_le] at h
    exact .closed hactive hlive observed reported reported' now h

/-- Every step of a run keeps the answers of a slot in order. -/
theorem step_answer {P Q : ℕ → Slot → Prop} (hw : ∀ j, Acknowledged c (P j) (Q j) (w.slots j))
    (input : Input σ) (j : ℕ) :
    Answer c (w.slots j) ((step c w input).slots j) (returned c j w input) := by
  cases input with
  | accept packet now => exact accept_answer packet now w j
  | progress now => exact (progress_closes now w j).answer (hw j)
  | cancel handle packet now reserved => exact (cancel_silent handle packet now reserved w).answer j
  | requestQuiesce now => exact (requestQuiesce_closes now w j).answer (hw j)
  | takeResponse handle => exact takeResponse_answer handle w j
  | release handle => exact release_answer handle w j
  | resetState confirmed generation => exact (resetState_silent confirmed generation w).answer j
  | backend ext actions => exact .silent rfl
  | credits pool => exact .silent rfl
  | timeline t => exact .silent rfl

/-- A slot behind a call, if what is known of admitted and of completed slots covers this call. -/
theorem Answer.acknowledged {s s' : Slot} {out : List AckRecord} (h : Answer c s s' out)
    (hs : Acknowledged c P Q s) (hP : ∀ x, P x → P' x) (hQ : ∀ y, Q y → Q' y)
    (hadmits : s.active = false → s'.active → P' s') (hcompletes : s.live → s'.active → s'.complete → Q' s') :
    Acknowledged c P' Q' s' := by
  obtain ⟨hadmitted, hclosed, hread⟩ := hs
  cases h with
  | silent h =>
    have hrequest : s'.request = s.request := congrArg Account.request h
    have hactive : s'.active = s.active := congrArg Account.active h
    have hcomplete : s'.complete = s.complete := congrArg Account.complete h
    have hgeneration : s'.generation = s.generation := congrArg Account.generation h
    have hresponses : s'.responses = s.responses := congrArg Account.responses h
    have hreads : s'.responseRead = s.responseRead := congrArg Account.read h
    refine ⟨?_, ?_, ?_⟩
    · rw [hactive, hcomplete, hgeneration, hrequest, hresponses]
      exact fun ha hc => (hadmitted ha hc).mono hP
    · rw [hactive, hcomplete, hgeneration, hrequest, hresponses]
      exact fun ha hc => (hclosed ha hc).mono hP hQ
    · rw [hactive, hreads, hresponses]
      exact hread
  | idle _ hs' =>
    rw [← Bool.not_eq_true] at hs'
    exact ⟨fun h => absurd h hs', fun h => absurd h hs', fun h => absurd h hs'⟩
  | admitted hidle observed reported now h =>
    have hcomplete : s'.complete = false := congrArg Account.complete h
    have hreads : s'.responseRead = 0 := congrArg Account.read h
    have hresponses : s'.responses = given (buildAck c s' .validation observed reported now) :=
      congrArg Account.responses h
    refine ⟨fun ha _ => ⟨s', observed, reported, now, hadmits hidle ha, rfl, rfl, hresponses⟩,
      fun _ hc => ?_, fun _ => ?_⟩
    · rw [hcomplete] at hc
      exact absurd hc Bool.false_ne_true
    · rw [hreads]
      exact Nat.zero_le _
  | closed hactive hlive observed reported reported' now h =>
    have hrequest : s'.request = s.request := congrArg Account.request h
    have hcomplete : s'.complete = true := congrArg Account.complete h
    have hgeneration : s'.generation = s.generation := congrArg Account.generation h
    have hreads : s'.responseRead = s.responseRead := congrArg Account.read h
    have hresponses : s'.responses = s.responses ++
        given (buildAck c s' .execution observed reported now) ++
          given (buildAck c s' .state observed reported' now) := congrArg Account.responses h
    refine ⟨fun _ hc => absurd hcomplete hc, fun ha hc => ?_, fun _ => ?_⟩
    · have hfirst := (hadmitted hactive hlive).mono hP
      rw [← hgeneration, ← hrequest] at hfirst
      exact ⟨s.responses, s', observed, reported, reported', now, hfirst,
        hcompletes (by simp [Slot.live, hactive, hlive]) ha hc, rfl, rfl, hresponses⟩
    · rw [hreads, hresponses, List.length_append, List.length_append]
      exact (hread hactive).trans (by omega)
  | taken hactive ack hack h =>
    have hrequest : s'.request = s.request := congrArg Account.request h
    have hactive' : s'.active = s.active := congrArg Account.active h
    have hcomplete : s'.complete = s.complete := congrArg Account.complete h
    have hgeneration : s'.generation = s.generation := congrArg Account.generation h
    have hresponses : s'.responses = s.responses := congrArg Account.responses h
    have hreads : s'.responseRead = s.responseRead + 1 := congrArg Account.read h
    refine ⟨?_, ?_, fun _ => ?_⟩
    · rw [hactive', hcomplete, hgeneration, hrequest, hresponses]
      exact fun ha hc => (hadmitted ha hc).mono hP
    · rw [hactive', hcomplete, hgeneration, hrequest, hresponses]
      exact fun ha hc => (hclosed ha hc).mono hP hQ
    · rw [hreads, hresponses]
      exact (List.getElem?_eq_some_iff.mp hack).1
  | released _ _ _ hs' =>
    rw [← Bool.not_eq_true] at hs'
    exact ⟨fun h => absurd h hs', fun h => absurd h hs', fun h => absurd h hs'⟩

end Steps

/-! ## What is taken -/

/-- What `take_response` returns for a handle in a run. -/
def answers (c : Config σ) (handle : Handle) : Engine σ → List (Input σ) → List AckRecord
  | _, [] => []
  | w, input :: rest =>
    (match input with
      | .takeResponse h =>
        if h = handle then
          match (takeResponse c handle w).1 with
          | .ok (some ack) => [ack]
          | _ => []
        else []
      | _ => []) ++ answers c handle (step c w input) rest

/-- A stale handle takes nothing. -/
theorem takeResponse_stale {handle : Handle}
    (h : (w.slots handle.slot).generation ≠ handle.generation) :
    ∃ e, (takeResponse c handle w).1 = .error e := by
  unfold takeResponse
  dsimp only
  split
  · exact ⟨_, rfl⟩
  · exact ⟨failure .staleGeneration, by rw [if_pos (.inr h)]⟩

/-- What a handle is answered in a run, from its first input on. -/
theorem answers_cons (handle : Handle) (w : Engine σ) (input : Input σ) (rest : List (Input σ)) :
    answers c handle w (input :: rest) =
      (if (w.slots handle.slot).generation = handle.generation then returned c handle.slot w input
        else []) ++ answers c handle (step c w input) rest := by
  refine congrArg (· ++ answers c handle (step c w input) rest) ?_
  cases input with
  | takeResponse h =>
    dsimp only [returned]
    by_cases hh : h = handle
    · subst hh
      rw [if_pos rfl, if_pos rfl]
      by_cases hgen : (w.slots h.slot).generation = h.generation
      · rw [if_pos hgen]
      · obtain ⟨e, he⟩ := takeResponse_stale (c := c) hgen
        rw [if_neg hgen, he]
    · rw [if_neg hh]
      by_cases hgen : (w.slots handle.slot).generation = handle.generation
      · rw [if_pos hgen]
        by_cases hslot : h.slot = handle.slot
        · have hstale : (w.slots h.slot).generation ≠ h.generation := by
            intro heq
            rw [hslot, hgen] at heq
            exact hh (by cases h; cases handle; simp_all)
          obtain ⟨e, he⟩ := takeResponse_stale (c := c) hstale
          rw [if_pos hslot, he]
        · rw [if_neg hslot]
      · rw [if_neg hgen]
  | _ => simp [returned]

theorem answers_append (handle : Handle) (w : Engine σ) (inputs inputs' : List (Input σ)) :
    answers c handle w (inputs ++ inputs') =
      answers c handle w inputs ++ answers c handle (run c w inputs) inputs' := by
  induction inputs generalizing w with
  | nil => rfl
  | cons input rest ih =>
    rw [List.cons_append, answers_cons, answers_cons, ih, List.append_assoc]
    rfl

/-- What was taken so far of the transaction with the generation `g`. -/
structure Taken (c : Config σ) (P Q : Slot → Prop) (g : ℕ) (acks : List AckRecord) (s : Slot) : Prop where
  present : s.active → s.generation = g → acks = s.responses.take s.responseRead
  before : s.generation ≤ g → (s.active → s.generation ≠ g) → acks = []
  after : g < s.generation → acks = [] ∨ ∃ r, Concluded c P Q g r acks

/-- What was taken and what is left stay the acknowledgements of the transaction. -/
theorem Answer.taken_of {P P' Q Q' : Slot → Prop} {s s' : Slot} {out acks : List AckRecord} {g : ℕ}
    (h : Answer c s s' out) (hs : Acknowledged c P Q s) (hP : ∀ x, P x → P' x) (hQ : ∀ y, Q y → Q' y)
    (hacks : Taken c P Q g acks s) : Taken c P' Q' g (acks ++ if s.generation = g then out else []) s' := by
  obtain ⟨hpresent, hbefore, hafter⟩ := hacks
  replace hafter : g < s.generation → acks = [] ∨ ∃ r, Concluded c P' Q' g r acks := fun hlt =>
    (hafter hlt).imp id fun hc => hc.imp fun r hr => hr.mono hP hQ
  cases h with
  | silent h =>
    have hactive : s'.active = s.active := congrArg Account.active h
    have hgeneration : s'.generation = s.generation := congrArg Account.generation h
    have hresponses : s'.responses = s.responses := congrArg Account.responses h
    have hreads : s'.responseRead = s.responseRead := congrArg Account.read h
    rw [ite_self, List.append_nil]
    refine ⟨?_, ?_, ?_⟩
    · rwa [hactive, hgeneration, hresponses, hreads]
    · rwa [hactive, hgeneration]
    · rwa [hgeneration]
  | idle hs₁ hs' hgeneration =>
    rw [ite_self, List.append_nil]
    refine ⟨fun hact => ?_, fun hle _ => ?_, ?_⟩
    · rw [hs'] at hact
      cases hact
    · refine hbefore (hgeneration ▸ hle) fun hact => ?_
      rw [hs₁] at hact
      cases hact
    · rwa [hgeneration]
  | admitted hs₁ observed reported now h =>
    have hactive : s'.active = true := congrArg Account.active h
    have hgeneration : s'.generation = s.generation := congrArg Account.generation h
    have hreads : s'.responseRead = 0 := congrArg Account.read h
    have hnone : s.generation ≤ g → acks = [] := fun hle => hbefore hle fun hact => by
      rw [hs₁] at hact
      cases hact
    rw [ite_self, List.append_nil]
    refine ⟨fun _ hg => ?_, fun hle _ => hnone (hgeneration ▸ hle), ?_⟩
    · rw [hreads, List.take_zero]
      exact hnone (hgeneration ▸ hg.le)
    · rwa [hgeneration]
  | closed hact hlive observed reported reported' now h =>
    have hactive : s'.active = s.active := congrArg Account.active h
    have hgeneration : s'.generation = s.generation := congrArg Account.generation h
    have hreads : s'.responseRead = s.responseRead := congrArg Account.read h
    have hresponses : s'.responses = s.responses ++
        given (buildAck c s' .execution observed reported now) ++
          given (buildAck c s' .state observed reported' now) := congrArg Account.responses h
    rw [ite_self, List.append_nil]
    refine ⟨fun _ hg => ?_, ?_, ?_⟩
    · rw [hresponses, hreads, List.append_assoc, List.take_append_of_le_length (hs.read hact)]
      exact hpresent hact (hgeneration ▸ hg)
    · rwa [hactive, hgeneration]
    · rwa [hgeneration]
  | taken hact ack hack h =>
    have hactive : s'.active = s.active := congrArg Account.active h
    have hgeneration : s'.generation = s.generation := congrArg Account.generation h
    have hresponses : s'.responses = s.responses := congrArg Account.responses h
    have hreads : s'.responseRead = s.responseRead + 1 := congrArg Account.read h
    by_cases hg : s.generation = g
    · rw [if_pos hg]
      refine ⟨fun _ _ => ?_, fun _ hne => ?_, fun hlt => ?_⟩
      · rw [hresponses, hreads, List.take_add_one, hack, hpresent hact hg]
        rfl
      · exact absurd (hgeneration.trans hg) (hne (hactive.trans hact))
      · rw [hgeneration, hg] at hlt
        exact absurd hlt (lt_irrefl g)
    · rw [if_neg hg, List.append_nil]
      refine ⟨fun _ hg' => absurd (hgeneration ▸ hg') hg, ?_, ?_⟩
      · rwa [hactive, hgeneration]
      · rwa [hgeneration]
  | released hact hcomplete hread hs' hgeneration =>
    rw [ite_self, List.append_nil]
    refine ⟨fun hact' => ?_, fun hle _ => ?_, fun hlt => ?_⟩
    · rw [hs'] at hact'
      cases hact'
    · rw [hgeneration] at hle
      exact hbefore (by omega) fun _ => by omega
    · rw [hgeneration] at hlt
      rcases Nat.lt_succ_iff_lt_or_eq.mp hlt with hlt | hg
      · exact hafter hlt
      · have hall := (hs.closed hact hcomplete).mono hP hQ
        rw [hpresent hact hg.symm, hread, List.take_length, hg]
        exact .inr ⟨s.request, hall⟩

section Histories

variable {start : Engine σ} {inputs : List (Input σ)} {j : ℕ} {x : Slot}

theorem run_concat (start : Engine σ) (inputs : List (Input σ)) (input : Input σ) :
    run c start (inputs ++ [input]) = step c (run c start inputs) input := by
  rw [run, List.foldl_append]
  rfl

theorem Admits.concat (h : Admits c start inputs j x) (input : Input σ) :
    Admits c start (inputs ++ [input]) j x := by
  obtain ⟨before, first, after, rfl, hx⟩ := h
  exact ⟨before, first, after ++ [input], by simp, hx⟩

theorem Completes.concat (h : Completes c start inputs j x) (input : Input σ) :
    Completes c start (inputs ++ [input]) j x := by
  obtain ⟨before, last, after, rfl, hx⟩ := h
  exact ⟨before, last, after ++ [input], by simp, hx⟩

theorem Admits.slot (h : Admits c start inputs j x) :
    ∃ before, x = (run c start before).slots j ∧ x.active := by
  obtain ⟨before, input, -, -, -, hx, hactive⟩ := h
  exact ⟨before ++ [input], hx, hactive⟩

theorem Completes.slot (h : Completes c start inputs j x) :
    ∃ before, x = (run c start before).slots j ∧ x.active := by
  obtain ⟨before, input, -, -, -, hx, hactive, -⟩ := h
  exact ⟨before ++ [input], hx, hactive⟩

end Histories

/-- The acknowledgements of all slots in a run, and what was taken for a handle. By induction on the last
call, since the slots of earlier calls are those of the run before. -/
theorem run_acknowledged (ext : σ) (pool : AdmissionPool) (state : StateSnapshot)
    (timeline : Option SampleTimeline) (handle : Handle) (inputs : List (Input σ)) :
    let start := initial ext pool state timeline
    (∀ j, Acknowledged c (Admits c start inputs j) (Completes c start inputs j) ((run c start inputs).slots j)) ∧
      Taken c (Admits c start inputs handle.slot) (Completes c start inputs handle.slot) handle.generation
        (answers c handle start inputs) ((run c start inputs).slots handle.slot) := by
  intro start
  induction inputs using List.reverseRecOn with
  | nil =>
    exact ⟨fun j => ⟨fun h => absurd h Bool.false_ne_true, fun h => absurd h Bool.false_ne_true,
        fun h => absurd h Bool.false_ne_true⟩,
      ⟨fun h => absurd h Bool.false_ne_true, fun _ _ => rfl, fun _ => .inl rfl⟩⟩
  | append_singleton inputs input ih =>
    obtain ⟨hacks, htaken⟩ := ih
    have hstep := fun j => step_answer hacks input j
    refine ⟨fun j => ?_, ?_⟩
    · have hbehind : (run c start (inputs ++ [input])).slots j =
          (step c (run c start inputs) input).slots j := by rw [run_concat]
      rw [hbehind]
      refine (hstep j).acknowledged (hacks j) (fun x hx => hx.concat input) (fun y hy => hy.concat input)
        (fun hidle hactive => ?_) fun hlive hactive hcomplete => ?_
      · exact ⟨inputs, input, [], rfl, hidle, hbehind.symm, hactive⟩
      · exact ⟨inputs, input, [], rfl, hlive, hbehind.symm, hactive, hcomplete⟩
    · rw [answers_append, answers_cons, run_concat]
      have htook := (hstep handle.slot).taken_of (hacks handle.slot) (fun x hx => hx.concat input)
        (fun y hy => hy.concat input) htaken
      simpa [answers] using htook

theorem Reachable.base (h : Reachable c w) : Base c .idle w :=
  (base_invariant (P := fun _ _ => True) (fun _ _ _ _ => trivial) (fun _ _ _ _ _ _ _ _ => trivial)
    (fun _ _ _ _ _ _ => trivial) h).1

/-- The report of an acknowledgement names each field once. -/
theorem due_buildAck_iff (h : Reachable c w) {j : ℕ} (hactive : (w.slots j).active) (kind : AckKind)
    (observed reported : StateSnapshot) (now : OperationContext) :
    due (buildAck c (w.slots j) kind observed reported now) ↔
      (w.slots j).request.cam.requests kind ∧ (kind = .state ∨ ¬(w.slots j).request.cam.nack ∨
        ∃ f < (w.slots j).execution.count, (fieldDiagnostics (w.slots j) kind f).warnings ≠ 0 ∨
          (fieldDiagnostics (w.slots j) kind f).errors ≠ 0) := by
  have hslot := h.base.slot j hactive
  generalize w.slots j = s at hslot
  have hdiagnostics : (∃ i, ((buildAck c s kind observed reported now).diagnostics i).warnings ≠ 0 ∨
        ((buildAck c s kind observed reported now).diagnostics i).errors ≠ 0) ↔
      ∃ f < s.execution.count, (fieldDiagnostics s kind f).warnings ≠ 0 ∨
        (fieldDiagnostics s kind f).errors ≠ 0 := by
    constructor
    · rintro ⟨i, hi⟩
      simp only [buildAck] at hi
      cases hfind : (List.range s.execution.count).reverse.find? fun f =>
          fieldIndex (s.execution.fields f).id = some i with
      | none =>
        rw [hfind] at hi
        simp at hi
      | some f =>
        rw [hfind] at hi
        have hmem := List.mem_of_find?_eq_some hfind
        exact ⟨f, by simpa using hmem, hi⟩
    · rintro ⟨f, hf, hreport⟩
      have hstate : (fieldIndex (s.execution.fields f).id).isSome := by
        rw [hslot.id f hf]
        refine hslot.wellFormed.state _ ?_
        have hlt : f < s.request.fields.length := hf.trans_eq hslot.count
        rw [Request.field, List.getD_eq_getElem?_getD, List.getElem?_eq_getElem hlt]
        exact List.getElem_mem hlt
      obtain ⟨i, hi⟩ := Option.isSome_iff_exists.mp hstate
      have hfind : ((List.range s.execution.count).reverse.find? fun f' =>
          fieldIndex (s.execution.fields f').id = some i) = some f := by
        cases hfound : (List.range s.execution.count).reverse.find? fun f' =>
            fieldIndex (s.execution.fields f').id = some i with
        | none =>
          have hnone := List.find?_eq_none.mp hfound f (by simpa using hf)
          simp [hi] at hnone
        | some f' =>
          have hmem := List.mem_of_find?_eq_some hfound
          have hi' := List.find?_some hfound
          rw [decide_eq_true_eq] at hi'
          have hid := (fieldIndex_eq_some.mp hi').trans (fieldIndex_eq_some.mp hi).symm
          rw [hslot.id_injective (by simpa using hmem) hf hid]
      refine ⟨i, ?_⟩
      simp only [buildAck, hfind, Option.map_some, Option.getD_some]
      exact hreport
  rw [due, decide_eq_true_eq, hdiagnostics]
  rfl

/-- Acknowledgements follow the CAM. The validation is queued at admission, and execution and state at
completion, each if it is due for what the transaction's own fields report then; the buffer has room for
them; and what is taken for a transaction is what was queued, in that order and each once. -/
theorem acknowledgements_follow_cam (ext : σ) (pool : AdmissionPool) (state : StateSnapshot)
    (timeline : Option SampleTimeline) (inputs : List (Input σ)) (handle : Handle) :
    let start := initial ext pool state timeline
    let w := run c start inputs
    (∀ j, Acknowledged c (Admits c start inputs j) (Completes c start inputs j) (w.slots j) ∧
      ((w.slots j).active → (w.slots j).responses.length ≤ 3)) ∧
    (∀ j x, Admits c start inputs j x ∨ Completes c start inputs j x → ∀ kind observed reported moment,
      given (buildAck c x kind observed reported moment) =
        if x.request.cam.requests kind ∧ (kind = .state ∨ ¬x.request.cam.nack ∨
            ∃ f < x.execution.count, (fieldDiagnostics x kind f).warnings ≠ 0 ∨
              (fieldDiagnostics x kind f).errors ≠ 0)
        then [buildAck c x kind observed reported moment] else []) ∧
    (∀ input j, Answer c (w.slots j) ((step c w input).slots j) (returned c j w input)) ∧
    ((answers c handle start inputs).map AckRecord.kind).Sublist [.validation, .execution, .state] ∧
    ((w.slots handle.slot).active → (w.slots handle.slot).generation = handle.generation →
      answers c handle start inputs =
        (w.slots handle.slot).responses.take (w.slots handle.slot).responseRead) ∧
    (handle.generation < (w.slots handle.slot).generation → answers c handle start inputs = [] ∨
      ∃ r, Concluded c (Admits c start inputs handle.slot) (Completes c start inputs handle.slot)
        handle.generation r (answers c handle start inputs)) := by
  intro start w
  obtain ⟨hacks, hpresent, hbefore, hafter⟩ := run_acknowledged (c := c) ext pool state timeline handle inputs
  refine ⟨fun j => ⟨hacks j, fun hactive => ?_⟩, fun j x hx kind observed reported now => ?_,
    step_answer hacks, ?_, hpresent, hafter⟩
  · simpa using ((hacks j).kinds hactive).length_le
  · obtain ⟨before, rfl, hactive⟩ := hx.elim Admits.slot Completes.slot
    have hdue := due_buildAck_iff (c := c) ⟨ext, pool, state, timeline, before, rfl⟩ hactive kind observed
      reported now
    exact if_congr hdue rfl rfl
  · rcases lt_or_ge handle.generation (w.slots handle.slot).generation with hlt | hle
    · rcases hafter hlt with hnone | ⟨r, hall⟩
      · rw [hnone]
        exact List.nil_sublist _
      · exact hall.kinds
    · by_cases hopen : (w.slots handle.slot).active ∧
          (w.slots handle.slot).generation = handle.generation
      · rw [hpresent hopen.1 hopen.2]
        exact ((List.take_sublist _ _).map _).trans ((hacks _).kinds hopen.1)
      · rw [hbefore hle fun hactive hg => hopen ⟨hactive, hg⟩]
        exact List.nil_sublist _

end Vita.Transaction.Engine
