import Vita.Transaction.Cancellation
import Vita.Transaction.Radio

/-!
# Queries and simulations

A query reports the state, and a simulation executes its fields on a copy of the state that it takes
when it is validated again. They share validation, scheduling and outcomes with effects, but they change
nothing outside their own slot.

Main definitions:
- `Passive`: nothing but the slot `i` changes, and no effect is logged;
- `Detached`: the rest of a simulation does not depend on the live state.

Main results:
- `turn_passive`, `accept_passive`: the turns and the admission of a query or a simulation;
- `live_events`: every effect in a log is one of a transaction that is executed;
- `turn_detached`: a simulation gives the same results in every live state;
- `no_live_effect`: all of this for the runs of an engine.
-/

namespace Vita.Transaction.Engine

open Checked Timing State Codec Trace

variable {σ : Type} {c : Config σ} {p p' : Phase} {w w' w'' : Engine σ}

/-! ## Passive changes -/

/-- The event is a call of `backend.begin`, `backend.commit`, `backend.disarm` or of the effect sink, or
a change of the state. -/
def Event.isLive : Event → Bool
  | .dispatched _ | .disarmed _ | .stored .. | .effect .. => true
  | _ => false

/-- Nothing but the slot `i` changes, and no effect is logged. -/
structure Passive (i : ℕ) (w w' : Engine σ) : Prop where
  state : w'.state = w.state
  faulted : w'.faulted = w.faulted
  owner : w'.effectOwner = w.effectOwner
  slots : ∀ j, j ≠ i → w'.slots j = w.slots j
  log : ∃ new, w'.log = w.log ++ new ∧ ∀ e ∈ new, ¬Event.isLive e

namespace Passive

variable {i : ℕ}

theorem refl : Passive i w w := ⟨rfl, rfl, rfl, fun _ _ => rfl, [], (List.append_nil _).symm, by simp⟩

theorem trans (h : Passive i w w') (h' : Passive i w' w'') : Passive i w w'' := by
  obtain ⟨new, hlog, hnone⟩ := h.log
  obtain ⟨new', hlog', hnone'⟩ := h'.log
  refine ⟨h'.state.trans h.state, h'.faulted.trans h.faulted, h'.owner.trans h.owner,
    fun j hj => (h'.slots j hj).trans (h.slots j hj), new ++ new',
    by rw [hlog', hlog, List.append_assoc], fun e he => ?_⟩
  exact (List.mem_append.mp he).elim (hnone e) (hnone' e)

/-- The slot changes and one event is logged. -/
theorem emit {s : Slot} {e : Event} (he : ¬Event.isLive e) : Passive i w ((w.setSlot i s).emit e) :=
  ⟨rfl, rfl, rfl, fun _ hj => Function.update_of_ne hj _ _, [e], rfl, by simpa using he⟩

theorem setSlot (s : Slot) : Passive i w (w.setSlot i s) :=
  ⟨rfl, rfl, rfl, fun _ hj => Function.update_of_ne hj _ _, [], (List.append_nil _).symm, by simp⟩

/-- Callbacks, credits and numbers. -/
theorem of_eq {env : Env σ} {pool : AdmissionPool} {n m : ℕ} :
    Passive i w { w with env, pool, nextTicketOperation := n, associationGeneration := m } :=
  ⟨rfl, rfl, rfl, fun _ _ => rfl, [], (List.append_nil _).symm, by simp⟩

end Passive

theorem queueAck_passive (i : ℕ) (kind : AckKind) (observed : StateSnapshot) (now : OperationContext)
    (w : Engine σ) : Passive i w (queueAck c i kind observed now w) := by
  obtain ⟨s, env, -, -, h⟩ := queueAck_spec (c := c) i kind observed now w
  rw [h]
  exact (Passive.setSlot s).trans .of_eq

theorem finish_passive {i : ℕ} (now : OperationContext) (howner : w.effectOwner ≠ some i) :
    Passive i w (finish c i now w) := by
  obtain ⟨s, env, -, -, h⟩ := finish_spec (c := c) i now w
  rw [h, if_neg howner]
  exact (Passive.emit (s := { s with complete := true }) (by simp [Event.isLive])).trans .of_eq

/-! ## Turns -/

theorem validate_passive (i : ℕ) (s : Slot) (w : Engine σ) : Passive i w (validate c i s w).2 := by
  unfold validate
  dsimp only
  split
  · exact (Passive.setSlot _).trans .of_eq
  · exact (Passive.emit (by simp [Event.isLive])).trans .of_eq

theorem revalidate_passive (now : OperationContext) (i : ℕ) (w : Engine σ) :
    Passive i w (revalidate c now i w) := by
  unfold revalidate
  dsimp only
  split
  · exact .refl
  · exact (validate_passive i _ w).trans (.setSlot _)

theorem revalidate_request (now : OperationContext) {i : ℕ} (hcount : (w.slots i).request.count ≤ 8) :
    ((revalidate c now i w).slots i).request = (w.slots i).request := by
  by_cases h : (w.slots i).revalidated
  · unfold revalidate
    rw [if_pos h]
  · obtain ⟨s, env, new, heq, -, hr, -⟩ := @revalidate_spec σ c w now i h hcount
    rw [heq]
    simp only [Function.update_self]
    rw [hr.slot]

theorem blockField_passive (i field : ℕ) (w : Engine σ) : Passive i w (blockField i field w) := by
  rcases blockField_cases i field w with h | h <;> rw [h]
  · exact .refl
  · refine ⟨rfl, rfl, rfl, fun _ hj => Function.update_of_ne hj _ _, _, rfl, fun e he => ?_⟩
    split at he
    · rw [List.mem_singleton.mp he]
      simp [Event.isLive]
    · cases he

/-- A simulated outcome is recorded in the slot only. -/
theorem applyOutcome_passive (publish : Bool) {i : ℕ} (field : ℕ) (reported : FieldOutcome)
    (haction : (w.slots i).action = 1) : Passive i w (applyOutcome c publish i field reported w) := by
  have happlied := applyOutcome_applied (c := c) publish i field reported w
  obtain ⟨hstate, hfaulted⟩ := applyOutcome_simulated (c := c) publish field reported haction
  obtain ⟨told, hlog, -, hnone⟩ := happlied.log
  have hsim := settledOutcome_simulated c w.quiescing (w.slots i) ((w.slots i).execution.fields field)
    reported
  rw [hnone (by rw [hsim, haction]; rfl), List.append_nil] at hlog
  refine ⟨hstate, hfaulted, happlied.owner, fun j hj => ?_, _, hlog, by simp [Event.isLive]⟩
  obtain ⟨hypothetical, credits, revisions, hs⟩ := happlied.slots
  rw [hs, Function.update_of_ne hj]

/-- The fields of a simulation are passed over or simulated. -/
theorem walk_passive (now : OperationContext) {i : ℕ} (n : ℕ) (haction : (w.slots i).action = 1)
    (howner : w.effectOwner ≠ some i) : Passive i w (walk c now i n w).2 := by
  induction n generalizing w with
  | zero => exact finish_passive now howner
  | succ n ih =>
    have hpass : ∀ {v : Engine σ} {field : ℕ} {o : FieldOutcome}, (v.slots i).action = 1 →
        v.effectOwner ≠ some i →
        Passive i v (walk c now i n (v.setSlot i (skip (v.slots i) field o))).2 := by
      intro v field o hv howner
      refine (Passive.setSlot _).trans (ih ?_ howner)
      rw [setSlot_slots, Function.update_self]
      exact hv
    simp only [walk]
    split
    · exact hpass haction howner
    · obtain ⟨s, hs, hslots⟩ := blockField_slots i ((w.slots i).execution.order (w.slots i).step) w
      have hblock := blockField_passive i ((w.slots i).execution.order (w.slots i).step) w
      have haction' : ((blockField i ((w.slots i).execution.order (w.slots i).step) w).slots i).action =
          1 := by
        rw [hslots, Function.update_self, hs.slot]
        exact haction
      refine hblock.trans ?_
      rw [← hblock.owner] at howner
      generalize blockField i ((w.slots i).execution.order (w.slots i).step) w = v at haction' howner ⊢
      split
      · exact hpass haction' howner
      · split
        · exact .refl
        · next simulate _ =>
          generalize hcall : v.call (simulate
            ((v.slots i).execution.fields ((w.slots i).execution.order (w.slots i).step))
            (v.slots i).hypothetical (v.slots i).execution.boundary) = u
          have hu : Passive i v u.2 ∧ u.2.slots = v.slots := by
            rw [← hcall]
            exact ⟨.of_eq, rfl⟩
          rw [← hu.1.owner] at howner
          rw [← hu.2] at haction'
          have happlied := applyOutcome_passive (c := c) true
            ((w.slots i).execution.order (w.slots i).step) u.1 haction'
          obtain ⟨s, hslots, hrequest, -⟩ := applyOutcome_slot (c := c) true i
            ((w.slots i).execution.order (w.slots i).step) u.1 u.2
          refine hu.1.trans (happlied.trans (ih ?_ (by rwa [happlied.owner])))
          rw [hslots, Function.update_self, Slot.action, hrequest]
          exact haction'

/-- A simulation that is attempted leaves the state. -/
theorem attempt_passive (now : OperationContext) {i : ℕ} (haction : (w.slots i).action = 1)
    (howner : w.effectOwner ≠ some i) : Passive i w (attempt c now i w).2 := by
  have hr := validateBoundaryState_rescheduled (c := c) w.timeline (w.slots i)
  have haction' : ((w.setSlot i (validateBoundaryState c w.timeline (w.slots i))).slots i).action = 1 := by
    rw [setSlot_slots, Function.update_self, hr.slot]
    exact haction
  refine (Passive.setSlot (validateBoundaryState c w.timeline (w.slots i))).trans ?_
  unfold attempt carryOut
  dsimp only
  rw [if_neg (by rw [haction']; simp)]
  exact walk_passive now _ haction' howner

/-- A dry run changes its own slot only. -/
theorem execute_passive (now : OperationContext) {i : ℕ} (haction : (w.slots i).action = 1)
    (howner : w.effectOwner ≠ some i) : Passive i w (execute c now i w).2 := by
  have hr := (reschedule_rescheduled (c := c) now (w.slots i))
  have hnot : ¬waits now (reschedule c now (w.slots i)) := by
    have haction' : (reschedule c now (w.slots i)).action = 1 := by
      rw [hr.slot]
      exact haction
    simp [waits, haction']
  unfold execute
  dsimp only
  split
  · refine (Passive.setSlot (checkWindow now (reschedule c now (w.slots i)))).trans
      (attempt_passive now ?_ howner)
    rw [setSlot_slots, Function.update_self, (hr.trans (checkWindow_rescheduled now _)).slot]
    exact haction
  · exact attempt_passive now haction howner

/-- The turn of a query or a simulation. -/
theorem turn_passive {now : OperationContext} {running : Bool} {i : ℕ} (hb : Base c .idle w)
    (haction : (w.slots i).action ≠ 2) : Passive i w (turn c now running i w).2 := by
  have howner : w.effectOwner ≠ some i := fun h =>
    haction ((hb.slot i (hb.owner i h)).lane h).2
  unfold turn
  dsimp only
  split
  · exact .refl
  · next hlive =>
    obtain ⟨hactive, -⟩ := live_iff.mp (by simpa using hlive : (w.slots i).live)
    have hslot := hb.slot i hactive
    split
    · exact (Passive.setSlot _).trans (finish_passive now howner)
    · split
      · exact .refl
      · split
        · exact .refl
        · split
          · exact finish_passive now howner
          · next hnot =>
            have hsim : (w.slots i).action = 1 := by
              have := hslot.action_le
              omega
            have hpassive := revalidate_passive (c := c) now i w
            have hkept : ((revalidate c now i w).slots i).action = 1 := by
              rw [Slot.action, revalidate_request now hslot.count_le]
              exact hsim
            exact hpassive.trans (execute_passive now hkept (by rwa [hpassive.owner]))

/-! ## Admission -/

theorem releaseRevisions_passive (i : ℕ) (w : Engine σ) (token : Option ℕ) :
    Passive i w (releaseRevisions c w token) := by
  cases token with
  | none => exact .refl
  | some token => exact .of_eq

theorem abandonAdmission_passive (i : ℕ) (credits : AdmissionBundle) (w : Engine σ) :
    Passive i w (abandonAdmission c i credits w) :=
  (Passive.setSlot _).trans ((releaseRevisions_passive i _ _).trans .of_eq)

/-- A reservation of revisions leaves the state. -/
theorem reserveRevisions_passive (i : ℕ) (r : Request) (w : Engine σ) :
    Passive i w (reserveRevisions c r w).2 := by
  unfold reserveRevisions
  split
  · exact .refl
  · next reserve _ =>
    split
    · have hcall : Passive i w (w.call (reserve r.count)).2 := .of_eq
      generalize w.call (reserve r.count) = v at hcall
      obtain ⟨res, v⟩ := v
      cases res <;> exact hcall
    · exact .refl

/-- So does the reservation of its tickets. -/
theorem reserveTickets_passive (i : ℕ) (now : OperationContext) (l : List ℕ) (w : Engine σ) :
    Passive i w (reserveTickets c i now l w).2 := by
  induction l generalizing w with
  | nil => exact .refl
  | cons f l ih =>
    have hticket : Passive i w (reserveTicket c i f now w).2 := by
      unfold reserveTicket
      dsimp only
      split
      · exact .of_eq
      · exact Passive.of_eq.trans (.setSlot _)
    simp only [reserveTickets]
    split
    · next heq =>
      rw [heq] at hticket
      exact hticket
    · next v heq =>
      rw [heq] at hticket
      exact hticket.trans (ih v)

theorem dropTokens_passive (i : ℕ) (w : Engine σ) : Passive i w (dropTokens c i w) :=
  Passive.of_eq.trans (.setSlot _)

theorem activate_passive (i : ℕ) (credits : AdmissionBundle) (now : OperationContext) (w : Engine σ) :
    Passive i w (activate c i credits now w) := by
  unfold activate
  dsimp only
  refine Passive.trans ?_ (queueAck_passive i .validation _ now _)
  exact ⟨rfl, rfl, rfl, fun _ hj => Function.update_of_ne hj _ _, [_], rfl, by simp [Event.isLive]⟩

/-- A stop is admitted that may disarm starts. -/
def stops (c : Config σ) (r : Request) : Bool :=
  c.profile = .sdrRadio ∧ r.cam.action = 2 ∧ r.isOnly Field.discreteIO32 2

theorem disarmStarts_eq {i : ℕ} {s : Slot} (h : ¬stops c s.request) : disarmStarts c i s w = w := by
  unfold disarmStarts
  refine if_neg fun hstop => h ?_
  simp only [stops, decide_eq_true_eq]
  exact ⟨hstop.1, hstop.2.1, hstop.2.2.1⟩

/-- An admission other than that of a stop, successful or not. -/
theorem admitRequest_passive {i : ℕ} {r : Request} (credits : AdmissionBundle) (now : OperationContext)
    (hcount : r.count ≤ 8) (hstop : ¬stops c r) :
    Passive i w (admitRequest c i r credits now w).2 := by
  unfold admitRequest
  refine (Passive.setSlot (clearedSlot (w.slots i) w.state)).trans ?_
  generalize w.setSlot i (clearedSlot (w.slots i) w.state) = v
  have hreserve := reserveRevisions_passive (c := c) i r v
  split
  · next v' heq =>
    rw [heq] at hreserve
    exact hreserve.trans (abandonAdmission_passive i credits v')
  · next revisions v' heq =>
    rw [heq] at hreserve
    refine hreserve.trans ?_
    obtain ⟨hplanned, -⟩ := validatePlan_planned (c := c) (s := newSlot c (v'.slots i) r revisions now)
      hcount v'.state (armed c v' i) v'.env
    generalize validatePlan c (newSlot c (v'.slots i) r revisions now) v'.state (armed c v' i)
      v'.env = plan at hplanned ⊢
    obtain ⟨ok, s, env⟩ := plan
    cases ok with
    | false =>
      exact ((Passive.setSlot s).trans .of_eq).trans
        (abandonAdmission_passive i credits { v'.setSlot i s with env })
    | true =>
      have hsched := (chooseFirst_rescheduled (c := c) now s).trans (checkAhead_rescheduled (c := c) now _)
      have hrequest : (checkAhead c now (chooseFirst c now s)).request = r := by
        have hs : s = _ := hplanned.slot
        rw [hsched.slot, hs]
        rfl
      dsimp only
      rw [disarmStarts_eq (by rwa [hrequest])]
      have hprepared : Passive i v' (({ v' with env } : Engine σ).setSlot i
          (validateBoundaryState c v'.timeline (checkAhead c now (chooseFirst c now s)))) :=
        Passive.of_eq.trans (.setSlot _)
      refine hprepared.trans ?_
      generalize ({ v' with env } : Engine σ).setSlot i
        (validateBoundaryState c v'.timeline (checkAhead c now (chooseFirst c now s))) = x
      have htickets := reserveTickets_passive (c := c) i now (List.range 4) x
      split
      · next y heq =>
        rw [heq] at htickets
        exact htickets.trans ((dropTokens_passive i y).trans (abandonAdmission_passive i credits _))
      · next y heq =>
        rw [heq] at htickets
        exact htickets.trans (activate_passive i credits now y)

/-- The engine after faults of the backend were taken in. -/
def Observed (c : Config σ) (w v : Engine σ) : Prop :=
  v = observeBackendFaults c w ∨ v = observeBackendFaults c (observeBackendFaults c w)

/-- A call of `accept` takes in the faults of the backend, and it uses at most one free slot. -/
theorem accept_passive {packet : PacketView} {now : OperationContext}
    (hstop : ∀ r, requestFrom packet c.profile = .ok r → ¬stops c r) :
    ∃ v, Observed c w v ∧ ((accept c packet now w).2 = v ∨
      ∃ i, (w.slots i).active = false ∧ Passive i v (accept c packet now w).2) := by
  unfold accept
  dsimp only
  obtain ⟨hslots, -⟩ := observeBackendFaults_slots (c := c) w
  split
  · exact ⟨_, .inl rfl, .inl rfl⟩
  · next r hadmissible =>
    have hrequest := admissible_request hadmissible
    refine ⟨_, .inr rfl, ?_⟩
    split
    · exact .inl rfl
    · split
      · exact .inl rfl
      · next i hfree =>
        split
        · exact .inl rfl
        · split
          · exact .inl rfl
          · next credits pool _ =>
            obtain ⟨-, hidle, -⟩ := freeSlot_eq_some hfree
            rw [hslots] at hidle
            have hcount : r.count ≤ 8 := by
              refine le_trans (requestFrom_wellFormed hrequest).count_le ?_
              unfold fieldLimit
              split <;> decide
            exact .inr ⟨i, hidle, Passive.of_eq.trans
              (admitRequest_passive credits now hcount (hstop r hrequest))⟩

/-! ## Other calls -/

theorem quiesceField_passive {i : ℕ} (field : ℕ) (hidle : ¬(w.slots i).running) :
    Passive i w (quiesceField c i w field) ∧ ¬((quiesceField c i w field).slots i).running := by
  unfold quiesceField
  dsimp only
  split
  · exact ⟨.refl, hidle⟩
  · split
    · next hrunning => exact absurd hrunning.1 hidle
    · exact ⟨.setSlot _, by rwa [setSlot_slots, Function.update_self]⟩

/-- Shutdown of a query or a simulation. -/
theorem quiesceSlot_passive {i : ℕ} (hb : Base c p w) (haction : (w.slots i).action ≠ 2) :
    Passive i w (quiesceSlot c w i) := by
  unfold quiesceSlot
  split
  · next hlive =>
    obtain ⟨hactive, -⟩ := live_iff.mp hlive
    have hidle : ¬(w.slots i).running := by
      intro hrunning
      have hslot := hb.slot i hactive
      exact haction (hslot.lane (hslot.running hrunning).owner).2
    generalize List.range (w.slots i).execution.count = l
    clear hlive hactive haction hb
    induction l generalizing w with
    | nil => exact .refl
    | cons f l ih =>
      obtain ⟨hpassive, hidle⟩ := quiesceField_passive (c := c) f hidle
      exact hpassive.trans (ih hidle)
  · exact .refl

/-- A call for the handle of a transaction that is not one of the slot's own turns. -/
inductive HandleCall (c : Config σ) (i : ℕ) (w : Engine σ) : Engine σ → Prop
  | cancelled (handle : Handle) (packet : PacketView) (now : OperationContext) (reserved : AdmissionBundle)
      (h : handle.slot = i) : HandleCall c i w (cancel c handle packet now reserved w).2
  | taken (handle : Handle) (h : handle.slot = i) : HandleCall c i w (takeResponse c handle w).2
  | released (handle : Handle) (h : handle.slot = i) : HandleCall c i w (release c handle w).2

/-- The handle of a query or a simulation cannot be used for an effect. -/
theorem HandleCall.passive {i : ℕ} (haction : (w.slots i).action ≠ 2) (h : HandleCall c i w w') :
    Passive i w w' := by
  cases h with
  | cancelled handle packet now reserved h =>
    subst h
    unfold cancel
    split
    · exact .of_eq
    · next hcancellable => exact absurd (cancellable_eq_ok hcancellable).2 haction
  | taken handle h =>
    subst h
    unfold takeResponse
    dsimp only
    split
    · exact .refl
    · split
      · exact .refl
      · split
        · exact .refl
        · exact .setSlot _
  | released handle h =>
    subst h
    unfold release
    dsimp only
    split
    · exact .refl
    · split
      · exact .refl
      · exact (Passive.setSlot _).trans ((dropTokens_passive _ _).trans
          (Passive.of_eq.trans ((Passive.setSlot _).trans .of_eq)))

/-! ## Runs -/

/-- An outcome that nothing was executed for, or only simulated. -/
def Harmless (o : FieldOutcome) : Prop :=
  o.simulated ∨ o.status = .pending ∨ o.status = .cancelled ∨ o.status = .notExecuted

/-- Every effect belongs to a transaction that is executed. -/
structure Attributed (w : Engine σ) : Prop where
  admitted : ∀ j, (w.slots j).active →
    ∃ now, .admitted (w.slots j).sequence (w.slots j).request now ∈ w.log
  request : ∀ j, (w.slots j).active → ∀ r now, .admitted (w.slots j).sequence r now ∈ w.log →
    r = (w.slots j).request
  live : ∀ e ∈ w.log, Event.isLive e → (∃ r now, .admitted e.tx r now ∈ w.log) ∧
    ∀ r now, .admitted e.tx r now ∈ w.log → r.cam.action = 2
  recorded : ∀ tx cam o, .recorded tx cam o ∈ w.log → (o.simulated ↔ cam.action = 1)
  outcomes : ∀ j, (w.slots j).active → (w.slots j).action ≠ 2 → ∀ f, Harmless ((w.slots j).outcomes f)

/-- An effect is written by a move for a transaction that is executed. -/
theorem Emits.live {i : ℕ} {e : Event} (hb : Base c p w) (h : Emits c i w p e) (hlive : Event.isLive e) :
    (w.slots i).active ∧ (w.slots i).action = 2 ∧ e.tx = (w.slots i).sequence := by
  cases h with
  | admitted | deferred | blocked | disordered | recorded | completed => cases hlive
  | dispatched hsends =>
    obtain ⟨hactive, haction, -⟩ := hsends.owner hb
    exact ⟨hactive, haction, hsends.tx⟩
  | disarmed hactive hrunning =>
    have hslot := hb.slot i hactive
    exact ⟨hactive, (hslot.lane (hslot.running hrunning).owner).2, rfl⟩
  | @told _ field o e hsource he hnot =>
    have hslot := hb.slot i (hsource.lt hb).1
    refine ⟨(hsource.lt hb).1, ?_, by cases he <;> rfl⟩
    cases hsource with
    | settled hactive hrunning => exact (hslot.lane (hslot.running hrunning).owner).2
    | batch =>
      obtain ⟨-, -, hin⟩ := hb.turn rfl
      exact (isBatch_count (hin.batch (by simp [Phase.isBatch]))).2
    | simulated _ _ _ _ haction =>
      refine absurd ?_ hnot
      rw [recordedOutcome, settledOutcome_simulated, haction]
      rfl
  | published =>
    obtain ⟨hactive, -, hin⟩ := hb.turn rfl
    exact ⟨hactive, (isBatch_count (hin.batch (by simp [Phase.isBatch]))).2, rfl⟩

/-- The outcomes of a query or a simulation stay harmless. -/
theorem Becomes.harmless {i f : ℕ} {o : FieldOutcome} (hb : Base c p w) (hactive : (w.slots i).active)
    (haction : (w.slots i).action ≠ 2) (hold : Harmless ((w.slots i).outcomes f))
    (h : Becomes c i w p f o) : Harmless o := by
  cases h with
  | same => exact hold
  | passed _ hstatus => exact .inr (.inr hstatus)
  | source h =>
    left
    rw [h.simulated_iff]
    have hslot := hb.slot i hactive
    cases h with
    | settled _ hrunning => exact absurd (hslot.lane (hslot.running hrunning).owner).2 haction
    | batch =>
      obtain ⟨-, -, hin⟩ := hb.turn rfl
      exact absurd (isBatch_count (hin.batch (by simp [Phase.isBatch]))).2 haction
    | simulated _ _ _ _ haction => exact haction

theorem Emits.admission {i tx : ℕ} {r : Request} {now : OperationContext}
    (h : Emits c i w p (.admitted tx r now)) : (w.slots i).active = false ∧ tx = w.nextSequence := by
  cases h with
  | admitted hidle => exact ⟨hidle, rfl⟩
  | told _ he => cases he

/-- Every act keeps the effects with the transactions that are executed. -/
theorem Attributed.act {i : ℕ} (ha : Attributed w) (hports : Ports c w) (hb : Base c p w)
    (h : Act c i p w p' w') : Attributed w' := by
  have hframe := h.frame hb
  obtain ⟨new, hlog, hnew⟩ : ∃ new, w'.log = w.log ++ new ∧ ∀ e ∈ new,
      (∃ tx id, e = .confirmed tx id) ∨ Emits c i w p e := by
    rcases h.events hports hb with ⟨-, -, f, id, -, rfl⟩ | ⟨new, hlog, hnew⟩
    · refine ⟨[_], rfl, fun e he => .inl ⟨_, _, List.mem_singleton.mp he⟩⟩
    · exact ⟨new, hlog, fun e he => .inr (hnew e he)⟩
  have hkeep : ∀ e ∈ w.log, e ∈ w'.log := by
    intro e he
    rw [hlog]
    exact List.mem_append_left _ he
  -- an admission is old, or it is that of a free slot under a new number
  have hadmission : ∀ tx r now, .admitted tx r now ∈ w'.log → .admitted tx r now ∈ w.log ∨
      (w.slots i).active = false ∧ tx = w.nextSequence := by
    intro tx r now hmem
    rw [hlog] at hmem
    refine (List.mem_append.mp hmem).imp_right fun hmem => ?_
    rcases hnew _ hmem with ⟨_, _, he⟩ | he
    · cases he
    · exact he.admission
  constructor
  case admitted =>
    intro j hactive'
    by_cases hj : j = i
    · subst hj
      cases hactive : (w.slots j).active with
      | true =>
        obtain ⟨now, hnow⟩ := ha.admitted j hactive
        rw [hframe.sequence_eq hactive hactive', (h.tenure hb hactive hactive').request]
        exact ⟨now, hkeep _ hnow⟩
      | false =>
        obtain ⟨now, hnow⟩ := h.activated hb hactive hactive'
        obtain ⟨credits, hs⟩ := hnow.slot
        rw [hs, hnow.log]
        exact ⟨now, by simp⟩
    · rw [hframe.slots j hj] at hactive' ⊢
      obtain ⟨now, hnow⟩ := ha.admitted j hactive'
      exact ⟨now, hkeep _ hnow⟩
  case request =>
    intro j hactive' r now hmem
    by_cases hj : j = i
    · subst hj
      cases hactive : (w.slots j).active with
      | true =>
        rw [hframe.sequence_eq hactive hactive'] at hmem
        rw [(h.tenure hb hactive hactive').request]
        refine ha.request j hactive r now ((hadmission _ r now hmem).resolve_right ?_)
        rw [hactive]
        exact fun h => absurd h.1 Bool.noConfusion
      | false =>
        obtain ⟨now', hnow⟩ := h.activated hb hactive hactive'
        obtain ⟨credits, hs⟩ := hnow.slot
        rw [hs, hnow.log] at hmem
        rcases List.mem_append.mp hmem with hmem | hmem
        · exact absurd (hb.log_lt _ hmem) (Nat.lt_irrefl _)
        · rw [hs]
          exact (Event.admitted.inj (List.mem_singleton.mp hmem)).2.1
    · rw [hframe.slots j hj] at hactive' hmem ⊢
      refine ha.request j hactive' r now ((hadmission _ r now hmem).resolve_right fun hne => ?_)
      exact absurd hne.2 (Nat.ne_of_lt (hb.sequence_lt j hactive'))
  case live =>
    intro e he hlive
    have hlt : e.tx < w.nextSequence ∧ ((∃ r now, .admitted e.tx r now ∈ w.log) ∧
        ∀ r now, .admitted e.tx r now ∈ w.log → r.cam.action = 2) := by
      rw [hlog] at he
      rcases List.mem_append.mp he with he | he
      · exact ⟨hb.log_lt e he, ha.live e he hlive⟩
      · rcases hnew e he with ⟨_, _, rfl⟩ | he
        · cases hlive
        · obtain ⟨hactive, haction, htx⟩ := he.live hb hlive
          obtain ⟨now, hnow⟩ := ha.admitted i hactive
          rw [htx]
          refine ⟨hb.sequence_lt i hactive, ⟨_, now, hnow⟩, fun r now hr => ?_⟩
          rw [ha.request i hactive r now hr]
          exact haction
    obtain ⟨hlt, ⟨r, now, hr⟩, haction⟩ := hlt
    refine ⟨⟨r, now, hkeep _ hr⟩, fun r now hr => haction r now ?_⟩
    exact (hadmission _ r now hr).resolve_right fun hne => absurd hne.2 (Nat.ne_of_lt hlt)
  case recorded =>
    intro tx cam o hmem
    rw [hlog] at hmem
    rcases List.mem_append.mp hmem with hmem | hmem
    · exact ha.recorded tx cam o hmem
    · rcases hnew _ hmem with ⟨_, _, he⟩ | he
      · cases he
      · cases he with
        | told _ he => cases he
        | recorded hsource => exact hsource.simulated_iff
  case outcomes =>
    intro j hactive' haction f
    by_cases hj : j = i
    · subst hj
      cases hactive : (w.slots j).active with
      | true =>
        rw [Slot.action, (h.tenure hb hactive hactive').request] at haction
        exact (h.outcome_cases hports hb hactive hactive' f).harmless hb hactive haction
          (ha.outcomes j hactive haction f)
      | false =>
        obtain ⟨now, hnow⟩ := h.activated hb hactive hactive'
        obtain ⟨credits, hs⟩ := hnow.slot
        rw [hs]
        refine .inr (.inl ?_)
        rw [hnow.fresh.outcomes]
    · rw [hframe.slots j hj] at hactive' haction ⊢
      exact ha.outcomes j hactive' haction f

/-- So do the moves that leave the slots as they are. -/
theorem Attributed.still (ha : Attributed w) (h : Still p w w') : Attributed w' := by
  constructor
  case admitted =>
    intro j hactive
    rw [h.log]
    rw [h.slots j] at hactive ⊢
    exact ha.admitted j hactive
  case request =>
    intro j hactive
    rw [h.log]
    rw [h.slots j] at hactive ⊢
    exact ha.request j hactive
  case live =>
    rw [h.log]
    exact ha.live
  case recorded =>
    rw [h.log]
    exact ha.recorded
  case outcomes =>
    intro j hactive haction f
    rw [h.slots j] at hactive haction ⊢
    exact ha.outcomes j hactive haction f

theorem attributed_of_reachable (h : Reachable c w) : Base c .idle w ∧ Attributed w := by
  obtain ⟨hb, -, ha⟩ := ports_invariant (P := fun _ w => Attributed w)
    (fun ext pool state timeline => by constructor <;> simp [initial])
    (fun p w i p' w' hb hports ha hact => ha.act hports hb hact)
    (fun p w w' hb hports ha hrest => ha.still hrest.still) h
  exact ⟨hb, ha⟩

/-! ## The state of a simulation -/

/-- The engine with another live state. -/
def withState (w : Engine σ) (x : StateSnapshot) : Engine σ := { w with state := x }

@[simp] theorem withState_slots (w : Engine σ) (x : StateSnapshot) : (w.withState x).slots = w.slots := rfl

@[simp] theorem withState_setSlot (w : Engine σ) (x : StateSnapshot) (i : ℕ) (s : Slot) :
    (w.withState x).setSlot i s = (w.setSlot i s).withState x := rfl

theorem withState_call {α : Type} (w : Engine σ) (x : StateSnapshot) (f : σ → Reply σ α) :
    (w.withState x).call f = ((w.call f).1, (w.call f).2.withState x) := rfl

theorem withState_ite {b : Prop} [Decidable b] (w w' : Engine σ) (x : StateSnapshot) :
    (if b then w else w').withState x = if b then w.withState x else w'.withState x := by
  split <;> rfl

/-- The step does the same in every live state. -/
def Detached {α : Type} (f : Engine σ → α × Engine σ) (w : Engine σ) : Prop :=
  ∀ x, f (w.withState x) = ((f w).1, (f w).2.withState x)

theorem blockField_withState (i field : ℕ) (w : Engine σ) (x : StateSnapshot) :
    blockField i field (w.withState x) = (blockField i field w).withState x := by
  unfold blockField
  dsimp only [withState_slots]
  split
  · rfl
  · split <;> rfl

theorem queueAck_withState (i : ℕ) (kind : AckKind) (observed : StateSnapshot) (now : OperationContext)
    (w : Engine σ) (x : StateSnapshot) : queueAck c i kind observed now (w.withState x) =
      (queueAck c i kind observed now w).withState x := by
  cases kind <;> cases hobserve : c.observe <;>
    simp only [queueAck, hobserve, withState_call, withState_slots, withState_setSlot,
      withState_ite] <;> rfl

theorem releaseRevisions_withState (w : Engine σ) (token : Option ℕ) (x : StateSnapshot) :
    releaseRevisions c (w.withState x) token = (releaseRevisions c w token).withState x := by
  cases token <;> rfl

def leaveLane (i : ℕ) (w : Engine σ) : Engine σ :=
  if w.effectOwner = some i then { w with effectOwner := none } else w

theorem leaveLane_withState (i : ℕ) (w : Engine σ) (x : StateSnapshot) :
    leaveLane i (w.withState x) = (leaveLane i w).withState x := by
  unfold leaveLane
  by_cases h : w.effectOwner = some i
  · rw [if_pos h]
    exact if_pos h
  · rw [if_neg h]
    exact if_neg h

/-- The transaction is complete and leaves the lane. -/
def leave (c : Config σ) (i : ℕ) (w : Engine σ) : Engine σ :=
  (leaveLane i (releaseRevisions c
    (w.setSlot i { w.slots i with complete := true, revisions := none }) (w.slots i).revisions)).emit
    (.completed (w.slots i).sequence)

theorem leave_withState (i : ℕ) (w : Engine σ) (x : StateSnapshot) :
    leave c i (w.withState x) = (leave c i w).withState x := by
  unfold leave
  rw [withState_slots, withState_setSlot, releaseRevisions_withState, leaveLane_withState]
  rfl

theorem finish_eq {i : ℕ} (now : OperationContext) (haction : (w.slots i).action = 1) :
    finish c i now w = leave c i (queueAck c i .state (w.slots i).hypothetical now
      (queueAck c i .execution (w.slots i).hypothetical now w)) := by
  unfold finish
  dsimp only
  rw [if_pos haction]
  rfl

/-- A simulation reports its own state. -/
theorem finish_withState {i : ℕ} (now : OperationContext) (haction : (w.slots i).action = 1)
    (x : StateSnapshot) : finish c i now (w.withState x) = (finish c i now w).withState x := by
  rw [finish_eq now haction, finish_eq (w := w.withState x) now haction, withState_slots,
    queueAck_withState, queueAck_withState, leave_withState]

/-- A simulated outcome does not read the state. -/
theorem applyOutcome_withState (publish : Bool) {i : ℕ} (field : ℕ) (reported : FieldOutcome)
    (haction : (w.slots i).action = 1) (x : StateSnapshot) :
    applyOutcome c publish i field reported (w.withState x) =
      (applyOutcome c publish i field reported w).withState x := by
  have hsim := settledOutcome_simulated c w.quiescing (w.slots i)
    ((w.slots i).execution.fields field) reported
  rw [haction, decide_eq_true rfl] at hsim
  have hsame : (w.withState x).quiescing = w.quiescing := rfl
  unfold applyOutcome
  dsimp only [withState_slots]
  rw [hsame, if_pos hsim, if_pos hsim]
  split <;> rfl

/-- The outcome of a field that was cancelled before it could begin. -/
def cancelledOutcome (s : Slot) (field : ℕ) : FieldOutcome :=
  { s.outcomes field with
    id := (s.execution.fields field).id, status := .cancelled
    diagnostics := { (s.outcomes field).diagnostics with errors := notExecuted } }

/-- The outcome of a field that is refused. -/
def refusedOutcome (s : Slot) (field : ℕ) : FieldOutcome :=
  { id := (s.execution.fields field).id, status := .notExecuted
    diagnostics := (s.execution.fields field).diagnostics }

theorem walk_cancelled {now : OperationContext} {i n field : ℕ}
    (hfield : field = (w.slots i).execution.order (w.slots i).step) (h : (w.slots i).cancelled field) :
    walk c now i (n + 1) w =
      walk c now i n (w.setSlot i (skip (w.slots i) field (cancelledOutcome (w.slots i) field))) := by
  subst hfield
  exact if_pos h

theorem walk_refused {now : OperationContext} {i n field : ℕ}
    (hfield : field = (w.slots i).execution.order (w.slots i).step) (h : ¬(w.slots i).cancelled field)
    (hv : blockField i field w = w') (hrefused : ¬(w'.slots i).eligible field) :
    walk c now i (n + 1) w =
      walk c now i n (w'.setSlot i (skip (w'.slots i) field (refusedOutcome (w'.slots i) field))) := by
  subst hfield hv
  exact (if_neg h).trans (if_pos hrefused)

/-- One round of a walk that simulates. -/
theorem walk_simulated {now : OperationContext} {i n field : ℕ}
    (hfield : field = (w.slots i).execution.order (w.slots i).step) (h : ¬(w.slots i).cancelled field)
    (hv : blockField i field w = w') (heligible : (w'.slots i).eligible field)
    (haction : (w'.slots i).action = 1) :
    walk c now i (n + 1) w = match c.backend.simulate with
      | none => (.done (.ok ()), w')
      | some simulate =>
        let r := w'.call (simulate ((w'.slots i).execution.fields field) (w'.slots i).hypothetical
          (w'.slots i).execution.boundary)
        walk c now i n (applyOutcome c true i field r.1 r.2) := by
  subst hfield hv
  exact (if_neg h).trans ((if_neg (not_not.mpr heligible)).trans (if_pos haction))

/-- The walk of a dry run does the same in every live state. -/
theorem walk_detached (now : OperationContext) {i : ℕ} (n : ℕ) (haction : (w.slots i).action = 1) :
    Detached (walk c now i n) w := by
  induction n generalizing w with
  | zero => exact fun x => congrArg (Prod.mk Flow.next) (finish_withState now haction x)
  | succ n ih =>
    intro x
    have hpass : ∀ {v : Engine σ} {field : ℕ} {o : FieldOutcome}, (v.slots i).action = 1 →
        Detached (walk c now i n) (v.setSlot i (skip (v.slots i) field o)) := by
      intro v field o hv
      refine ih ?_
      rw [setSlot_slots, Function.update_self]
      exact hv
    generalize hfield : (w.slots i).execution.order (w.slots i).step = field
    by_cases hcancelled : (w.slots i).cancelled field
    · rw [walk_cancelled hfield.symm hcancelled,
        walk_cancelled (w := w.withState x) hfield.symm hcancelled]
      exact hpass haction x
    · obtain ⟨s, hs, hslots⟩ := blockField_slots i field w
      have haction' : ((blockField i field w).slots i).action = 1 := by
        rw [hslots, Function.update_self, hs.slot]
        exact haction
      have hblock := blockField_withState i field w x
      generalize hv : blockField i field w = v at haction' hblock
      by_cases heligible : (v.slots i).eligible field
      · rw [walk_simulated hfield.symm hcancelled hv heligible haction',
          walk_simulated (w := w.withState x) hfield.symm hcancelled hblock heligible haction']
        cases hsimulate : c.backend.simulate with
        | none => rfl
        | some simulate =>
          dsimp only
          rw [withState_slots, withState_call]
          generalize hcall : v.call (simulate ((v.slots i).execution.fields field) (v.slots i).hypothetical
            (v.slots i).execution.boundary) = u
          have hu : (u.2.slots i).action = 1 := by
            rw [← hcall]
            exact haction'
          rw [applyOutcome_withState true field u.1 hu]
          refine ih ?_ x
          obtain ⟨s, hslots, hrequest, -⟩ := applyOutcome_slot (c := c) true i field u.1 u.2
          rw [hslots, Function.update_self, Slot.action, hrequest]
          exact hu
      · rw [walk_refused hfield.symm hcancelled hv heligible,
          walk_refused (w := w.withState x) hfield.symm hcancelled hblock heligible]
        exact hpass haction' x

/-- So does its whole attempt. -/
theorem attempt_detached (now : OperationContext) {i : ℕ} (haction : (w.slots i).action = 1) :
    Detached (attempt c now i) w := by
  intro x
  have hr := validateBoundaryState_rescheduled (c := c) w.timeline (w.slots i)
  have haction' : ((w.setSlot i (validateBoundaryState c w.timeline (w.slots i))).slots i).action = 1 := by
    rw [setSlot_slots, Function.update_self, hr.slot]
    exact haction
  have hwalk : ∀ v : Engine σ, (v.slots i).action = 1 → carryOut c now i v =
      walk c now i ((v.slots i).execution.count - (v.slots i).step) v := by
    intro v hv
    unfold carryOut
    dsimp only
    rw [if_neg (by rw [hv]; simp)]
  have hattempt : attempt c now i (w.withState x) = carryOut c now i
      ((w.setSlot i (validateBoundaryState c w.timeline (w.slots i))).withState x) := rfl
  rw [hattempt]
  unfold attempt
  generalize w.setSlot i (validateBoundaryState c w.timeline (w.slots i)) = v at haction' ⊢
  rw [hwalk v haction', hwalk (v.withState x) haction']
  exact walk_detached now _ haction' x

/-- What a simulation does after it was validated again depends on the live state only by the copy that
it took then. -/
theorem execute_detached (now : OperationContext) {i : ℕ} (haction : (w.slots i).action = 1) :
    Detached (execute c now i) w := by
  intro x
  have hr := reschedule_rescheduled (c := c) now (w.slots i)
  have hnot : ¬waits now (reschedule c now (w.slots i)) := by
    have haction' : (reschedule c now (w.slots i)).action = 1 := by
      rw [hr.slot]
      exact haction
    simp [waits, haction']
  have hexecute : ∀ v : Engine σ, v.slots = w.slots → execute c now i v =
      if scheduled (w.slots i) then
        attempt c now i (v.setSlot i (checkWindow now (reschedule c now (w.slots i))))
      else attempt c now i v := by
    intro v hv
    unfold execute
    dsimp only
    rw [hv, if_neg hnot]
  rw [hexecute _ rfl, hexecute (w.withState x) rfl]
  split
  · rw [withState_setSlot]
    refine attempt_detached now ?_ x
    rw [setSlot_slots, Function.update_self, (hr.trans (checkWindow_rescheduled now _)).slot]
    exact haction
  · exact attempt_detached now haction x

theorem revalidate_hypothetical (now : OperationContext) {i : ℕ} (h : ¬(w.slots i).revalidated) :
    ((revalidate c now i w).slots i).hypothetical = w.state := by
  have hstate := (validate_passive (c := c) i { w.slots i with
    dataRunning := now.dataRunning ∧ ¬immediateStop c (w.slots i).request } w).state
  unfold revalidate
  rw [if_neg h]
  dsimp only
  rw [setSlot_slots, Function.update_self]
  exact hstate

/-! ## All calls -/

/-- When the shutdown comes to the slot `i`. -/
def atShutdown (c : Config σ) (i : ℕ) (w : Engine σ) : Engine σ :=
  (List.range i).foldl (quiesceSlot c) (scan c { w with quiescing := true })

theorem atShutdown_base (h : Reachable c w) (i : ℕ) : Base c .idle (atShutdown c i w) := by
  have hmoves : Moves c .idle w .idle (atShutdown c i w) :=
    (Moves.quiet (.flags w w.pool w.timeline w.faulted true)).trans
      ((scan_moves _).trans (Moves.foldl quiesceSlot_moves _ _))
  exact (moves_invariant (P := fun _ _ => True) (fun _ _ _ _ _ _ _ _ => trivial)
    (fun _ _ _ _ _ _ => trivial) hmoves ⟨(attributed_of_reachable h).1, trivial⟩).1

/-- Queries and simulations have no live effect. Every call of `backend.begin`, `commit` and `disarm`, of
the effect sink, and every change of the state is for a transaction that is executed; the admission, the
turns, the shutdown and the handle of any other transaction change nothing outside its slot; and after its
revalidation a simulation does the same in every live state. -/
theorem no_live_effect :
    (∀ w, Reachable c w →
      (∀ e ∈ w.log, Event.isLive e → (∃ r now, .admitted e.tx r now ∈ w.log) ∧
        ∀ r now, .admitted e.tx r now ∈ w.log → r.cam.action = 2) ∧
      (∀ tx cam o, .recorded tx cam o ∈ w.log → (o.simulated ↔ cam.action = 1)) ∧
      (∀ j, (w.slots j).active → (w.slots j).action ≠ 2 → ∀ f, Harmless ((w.slots j).outcomes f)) ∧
      (∀ packet now, (∀ r, requestFrom packet c.profile = .ok r → r.cam.action ≠ 2) →
        ∃ v, Observed c w v ∧ ((accept c packet now w).2 = v ∨
          ∃ i, (w.slots i).active = false ∧ Passive i v (accept c packet now w).2)) ∧
      (∀ i w', (w.slots i).action ≠ 2 → HandleCall c i w w' → Passive i w w') ∧
      ∀ i, ((atShutdown c i w).slots i).action ≠ 2 →
        Passive i (atShutdown c i w) (quiesceSlot c (atShutdown c i w) i)) ∧
    (∀ now running i w, AtTurn c now running i w → (w.slots i).action ≠ 2 →
      Passive i w (turn c now running i w).2) ∧
    ∀ now i w, (w.slots i).action = 1 → Detached (execute c now i) w ∧
      (¬(w.slots i).revalidated → ((revalidate c now i w).slots i).hypothetical = w.state) := by
  refine ⟨fun w hw => ?_, fun now running i w hw haction => ?_, fun now i w haction => ?_⟩
  · obtain ⟨-, ha⟩ := attributed_of_reachable hw
    refine ⟨ha.live, ha.recorded, ha.outcomes, fun packet now hquery => accept_passive fun r hr hstop => ?_,
      fun i w' haction h => h.passive haction,
      fun i haction => quiesceSlot_passive (atShutdown_base hw i) haction⟩
    simp only [stops, decide_eq_true_eq] at hstop
    exact hquery r hr hstop.2.1
  · obtain ⟨hb, -⟩ := turn_invariant (P := fun _ _ => True) (fun _ _ _ _ => trivial)
      (fun _ _ _ _ _ _ _ _ => trivial) (fun _ _ _ _ _ _ => trivial) hw
    exact turn_passive hb haction
  · exact ⟨execute_detached now haction, revalidate_hypothetical now⟩

/-! ### A simulation of two fields -/

namespace Bench

/-- Simulated at once, also in part. -/
def dry : UInt32 := 0x08800000

/-- Of two fields, the second is always refused. -/
def picky : Config Unit where
  transactions := 1
  profile := .genericVirtualTest
  backend := { validate := some fun id value _ s =>
                 { value := { adjusted := value, resolvable := id = Field.referencePoint }, next := s }
               simulate := some fun planned _ _ s =>
                 { value := { id := planned.id, status := .executed, validity := .known
                              value := planned.adjusted }, next := s } }

def proposed : Engine Unit :=
  run picky start [.accept (command 1 dry {} [(Field.referencePoint, 1), (Field.stateEvent, 2)]) (now 1 [])]

def rehearsal : Engine Unit := run picky proposed [.progress (now 2 [])]

theorem rehearsal_reachable : Reachable picky rehearsal :=
  Reachable.run ⟨(), _, {}, none, _, rfl⟩ [.progress (now 2 [])]

end Bench

open Bench in
/-- The refused field of a simulation has an outcome that is not marked as simulated. -/
theorem unmarked_refused : Reachable picky rehearsal ∧ (rehearsal.slots 0).active ∧
    (rehearsal.slots 0).action = 1 ∧ ((rehearsal.slots 0).outcomes 1).status = .notExecuted ∧
    ¬((rehearsal.slots 0).outcomes 1).simulated := by
  refine ⟨rehearsal_reachable, ?_⟩
  decide +kernel

open Bench in
/-- The same simulation, and its turn. -/
theorem no_live_effect_rehearsal : (∀ f, Harmless ((rehearsal.slots 0).outcomes f)) ∧
    Passive 0 (chooseOwner picky (now 2 []) (scan picky (observeBackendFaults picky proposed)))
      (turn picky (now 2 []) false 0
        (chooseOwner picky (now 2 []) (scan picky (observeBackendFaults picky proposed)))).2 := by
  obtain ⟨hruns, hturns, -⟩ := no_live_effect (c := picky)
  obtain ⟨-, -, hharmless, -⟩ := hruns rehearsal rehearsal_reachable
  refine ⟨hharmless 0 (by decide +kernel) (by decide +kernel),
    hturns (now 2 []) false 0 _ ⟨proposed, _, [], [], .inl ⟨(), _, {}, none, _, rfl⟩, rfl, ?_, rfl, .nil⟩ ?_⟩
  · decide +kernel
  · decide +kernel

end Vita.Transaction.Engine
