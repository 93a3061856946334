import Vita.Transaction.Turns

/-!
# The calls of the engine as sequences of moves

Main lemmas:
- `accept_moves`, `cancel_moves`, `requestQuiesce_moves`: the calls besides `progress`;
- `step_moves`: every step of a run is a sequence of moves;
- `reachable_invariant`: what the moves keep holds in every state of every run.
-/

namespace Vita.Transaction.Engine

open Checked Timing State Codec

variable {σ : Type} {c : Config σ} {w w' : Engine σ}

/-! ## Requests -/

/-- The action and the timing of a request are among those of the standard. -/
theorem requestFrom_cam {packet : PacketView} {profile : Profile} {r : Request}
    (h : requestFrom packet profile = .ok r) : r.cam.action ≤ 2 ∧ r.cam.timing ≤ 4 := by
  have hview : ∀ (r r' : Request) (view : FieldView), addView profile r view = .ok r' →
      r'.cam = r.cam := by
    intro r r' view h
    simp only [addView, addField, bind_eq_ok, rejectIf_eq_ok] at h
    obtain ⟨_, -, r₁, hadd, h⟩ := h
    have hcam : r₁.cam = r.cam := by
      split at hadd
      · obtain rfl := Except.ok.inj hadd
        rfl
      · simp only [bind_eq_ok, pure_eq_ok, Except.ok.injEq] at hadd
        obtain ⟨_, -, rfl⟩ := hadd
        rfl
    split at h
    · simp only [pure_eq_ok, Except.ok.injEq] at h
      rw [← h]
      exact hcam
    · split at h
      · simp only [pure_eq_ok, Except.ok.injEq] at h
        rw [← h]
        exact hcam
      · split at h
        · simp only [bind_eq_ok, pure_eq_ok, Except.ok.injEq] at h
          obtain ⟨_, -, rfl⟩ := h
          exact hcam
        · simp only [pure_eq_ok, Except.ok.injEq] at h
          rw [← h]
          exact hcam
  simp only [requestFrom, bind_eq_ok] at h
  obtain ⟨cam, hparse, _, -, r₁, hfold, _, -, h⟩ := h
  have hr₁ : r₁.cam = cam := by
    refine foldlM_induction (fun _ r => r.cam = cam) rfl ?_ hfold
    intro _ view _ _ _ hr hstep
    exact (hview _ _ _ hstep).trans hr
  have hr : r.cam = cam := by
    split at h
    · simp only [pure_eq_ok, Except.ok.injEq] at h
      rw [← h]
      exact hr₁
    · simp only [pure_eq_ok, Except.ok.injEq] at h
      rw [← h]
      exact hr₁
  rw [hr]
  unfold Cam.parse at hparse
  split at hparse
  · cases hparse
  · next command _ =>
    simp only [bind_eq_ok, rejectIf_eq_ok, pure_eq_ok, Except.ok.injEq] at hparse
    obtain ⟨_, hkind, _, hvalid, _, -, rfl⟩ := hparse
    simp only [validateCam, bind_eq_ok, rejectIf_eq_ok] at hvalid
    obtain ⟨_, -, _, haction, _, htiming, -⟩ := hvalid
    simp only [not_or] at hkind
    have hlt := Words.bits_lt command.cam 23 2
    refine ⟨?_, ?_⟩
    · show Words.bits command.cam 23 2 ≤ 2
      omega
    · show Words.bits command.cam 12 3 ≤ 4
      by_contra hgt
      exact htiming ⟨by omega, fun hack => hkind.2.1 hack.1⟩

/-! ## Admission -/

theorem setBoundary_narrows (s : Slot) (boundary : Boundary) :
    Narrows s.execution (setBoundary s boundary).execution :=
  ⟨rfl, rfl, rfl, fun _ => rfl, fun _ h => h⟩

/-- The slots differ by a narrower plan and by the schedule. Where partial execution is not allowed,
still all fields are eligible or none is. -/
structure Rescheduled (s s' : Slot) : Prop where
  slot : s' = { s with execution := s'.execution, scheduleValid := s'.scheduleValid }
  plan : Narrows s.execution s'.execution
  uniform : ¬s.request.cam.partialAllowed → Sound s.execution → Uniform s.execution →
    Uniform s'.execution

namespace Rescheduled

variable {s s' s'' : Slot}

theorem refl (s : Slot) : Rescheduled s s := ⟨rfl, .refl _, fun _ _ h => h⟩

theorem trans (h : Rescheduled s s') (h' : Rescheduled s' s'') : Rescheduled s s'' := by
  refine ⟨?_, h.plan.trans h'.plan, fun hp hsound hu => h'.uniform ?_ (h.plan.sound hsound)
    (h.uniform hp hsound hu)⟩
  · rw [h'.slot, h.slot]
  · rw [h.slot]
    exact hp

theorem setBoundary (s : Slot) (boundary : Boundary) : Rescheduled s (Engine.setBoundary s boundary) :=
  ⟨rfl, setBoundary_narrows s boundary, fun _ _ h => h⟩

theorem invalid (s : Slot) (valid : Bool) : Rescheduled s { s with scheduleValid := valid } :=
  ⟨rfl, .refl _, fun _ _ h => h⟩

theorem withdraw (s : Slot) (valid : Bool) (errors : UInt32) :
    Rescheduled s { s with scheduleValid := valid, execution := withdrawAll s.execution errors } :=
  ⟨rfl, withdrawAll_narrows _ _, fun _ _ _ => withdrawAll_uniform _ _⟩

theorem ite {b : Prop} [Decidable b] (h : Rescheduled s s') (h' : Rescheduled s s'') :
    Rescheduled s (if b then s' else s'') := by
  split
  · exact h
  · exact h'

end Rescheduled

theorem validateBoundaryState_rescheduled (timeline : Option SampleTimeline) (s : Slot) :
    Rescheduled s (validateBoundaryState c timeline s) := by
  refine ⟨?_, validateBoundaryState_narrows timeline s, fun hp hsound hu =>
    validateBoundaryState_uniform timeline hp hsound hu⟩
  rw [validateBoundaryState_eq]

/-- A first choice only sets the boundary. -/
theorem chooseFirst_rescheduled (now : OperationContext) (s : Slot) :
    Rescheduled s (chooseFirst c now s) := by
  unfold chooseFirst
  dsimp only
  have hfirst := Rescheduled.setBoundary s
    { time := now.clock.time, mappingGeneration := now.clock.mappingGeneration }
  split
  · split
    · exact hfirst.trans (.setBoundary _ _)
    · exact hfirst.trans (.withdraw _ _ _)
  · exact hfirst

theorem checkAhead_rescheduled (now : OperationContext) (s : Slot) :
    Rescheduled s (checkAhead c now s) := by
  unfold checkAhead
  split
  · split
    · exact .ite (.withdraw _ _ _) (.refl _)
    · exact .withdraw _ _ _
  · exact .refl _

/-- A later choice only sets the boundary. -/
theorem Rescheduled.choose {s s₁ : Slot} {p : Prop} [Decidable p] (h : Rescheduled s s₁)
    (choice : Result Boundary) : Rescheduled s (if p then
      match choice with
      | .ok boundary => Engine.setBoundary { s₁ with scheduleValid := true } boundary
      | .error _ => { s₁ with scheduleValid := false }
    else s₁) := by
  split
  · split
    · exact h.trans ((Rescheduled.invalid s₁ true).trans (.setBoundary _ _))
    · exact h.trans (.invalid _ _)
  · exact h

theorem reschedule_rescheduled (now : OperationContext) (s : Slot) :
    Rescheduled s (reschedule c now s) := by
  have hfirst : ∀ s₁, Rescheduled s s₁ → Rescheduled s (if boundaryAvailable c now s₁ then s₁
      else { s₁ with scheduleValid := false }) :=
    fun s₁ h => .ite h (h.trans (.invalid s₁ false))
  have hlast : ∀ s₁, Rescheduled s s₁ → Rescheduled s (if qualified now s₁ then s₁
      else { s₁ with scheduleValid := false }) :=
    fun s₁ h => .ite h (h.trans (.invalid s₁ false))
  exact hlast _ (.choose (hfirst _ (.ite (.setBoundary _ _) (.refl s))) _)

theorem checkWindow_rescheduled (now : OperationContext) (s : Slot) :
    Rescheduled s (checkWindow now s) := by
  have hlast : ∀ s₁, Rescheduled s s₁ → Rescheduled s (if s₁.scheduleValid then s₁
      else { s₁ with execution := withdrawAll s₁.execution (timingError ||| notExecuted) }) :=
    fun s₁ h => .ite h (h.trans (.withdraw s₁ s₁.scheduleValid _))
  exact hlast _ (.ite (.invalid s false) (.refl s))

theorem newSlot_plan (s : Slot) (state : StateSnapshot) (r : Request) (revisions : Option ℕ)
    (now : OperationContext) (f : ℕ) :
    ¬(newSlot c (clearedSlot s state) r revisions now).eligible f := by
  simp [newSlot, Slot.eligible]

/-- A slot that was planned successfully is fresh. -/
theorem fresh_of_planned {s s' : Slot} {state : StateSnapshot} {r : Request} {revisions : Option ℕ}
    {now : OperationContext} {version : ℕ} (hr : r.WellFormed c.profile)
    (hcam : r.cam.action ≤ 2 ∧ r.cam.timing ≤ 4)
    (h : Planned (newSlot c (clearedSlot s state) r revisions now) s' version true) :
    Fresh c now s' := by
  have hsound : Sound s'.execution := by
    intro f hf
    by_cases hlt : f < r.count
    · exact ⟨by rw [h.count]; exact hlt, h.permuted rfl⟩
    · exact absurd (h.outside f (Nat.le_of_not_lt hlt) hf) (newSlot_plan s state r revisions now f)
  have hs := h.slot
  have hcount : s'.execution.count = r.count := h.count
  constructor
  case sound => exact hsound
  case permuted => exact h.permuted rfl
  case uniform =>
    intro hp
    refine h.uniform rfl ?_
    rw [hs] at hp
    exact hp
  case id =>
    intro f hf
    rw [hcount] at hf
    have hid := h.id f hf
    rw [hs]
    exact hid
  case count => rw [hcount, hs]; rfl
  case wellFormed => rw [hs]; exact hr
  case action_le => rw [hs]; exact hcam.1
  case timing_le => rw [hs]; exact hcam.2
  all_goals
    rw [hs]
    rfl

/-- The later checks keep a slot fresh. -/
theorem Fresh.rescheduled {s s' : Slot} {now : OperationContext} (h : Fresh c now s)
    (h' : Rescheduled s s') : Fresh c now s' := by
  have hs := h'.slot
  have hrequest : s'.request = s.request := by rw [hs]
  have haction : s'.action = s.action := by rw [Slot.action, hrequest, Slot.action]
  constructor
  case sound => exact h'.plan.sound h.sound
  case permuted => exact h'.plan.permuted.mpr h.permuted
  case uniform =>
    intro hp
    rw [hrequest] at hp
    exact h'.uniform hp h.sound (h.uniform hp)
  case id =>
    intro f hf
    rw [h'.plan.id, hrequest]
    exact h.id f (by rwa [h'.plan.count] at hf)
  case count => rw [h'.plan.count, hrequest]; exact h.count
  case wellFormed => rw [hrequest]; exact h.wellFormed
  case action_le => rw [haction]; exact h.action_le
  case timing_le => rw [hrequest]; exact h.timing_le
  case complete => rw [hs]; exact h.complete
  case revalidated => rw [hs]; exact h.revalidated
  case running => rw [hs]; exact h.running
  case step => rw [hs]; exact h.step
  case outcomes => rw [hs]; exact h.outcomes
  case cancelled => rw [hs]; exact h.cancelled
  case timing => rw [hs]; exact h.timing
  case requested => rw [hrequest]; rw [hs]; exact h.requested

/-- The credits of an admission. -/
theorem admissionCredits_held {r : Request} {pool pool' : AdmissionPool} {credits : AdmissionBundle}
    (h : pool.acquire (admissionCredits c r) = .ok (credits, pool')) (haction : r.cam.action = 2) :
    credits.held .revision = r.count ∧ credits.held .contextPublication = r.count := by
  simp only [AdmissionPool.acquire, bind_eq_ok, pure_eq_ok, Except.ok.injEq, Prod.mk.injEq] at h
  obtain ⟨_, -, _, -, rfl, -⟩ := h
  have hupdate : ∀ (q : AdmissionRequest) (b : Bool) (a d : Resource) (n : ℕ), d ≠ a →
      q.needIf b a n d = q d := by
    intro q b a d n hne
    unfold AdmissionRequest.needIf AdmissionRequest.need
    split
    · exact Function.update_of_ne hne _ _
    · rfl
  unfold admissionCredits
  simp only [AdmissionBundle.held, Option.elim_some, haction, true_and, decide_true]
  refine ⟨?_, ?_⟩
  · rw [hupdate _ _ _ _ _ (by decide), hupdate _ _ _ _ _ (by decide)]
    simp [AdmissionRequest.needIf, AdmissionRequest.need]
  · rw [hupdate _ _ _ _ _ (by decide)]
    simp [AdmissionRequest.needIf, AdmissionRequest.need]

/-- No capability for the results of a slot is in use. -/
def Unheld (i : ℕ) (port : Port) : Prop := ∀ a ∈ port.held, ∀ f < 4, a.index ≠ i * 4 + f

/-- A backend acts with the capabilities that it holds, and gets no new ones. -/
theorem act_held {port : Port} {action : Port.Action} {a : AsyncResult}
    (h : a ∈ (port.act action).held) : a ∈ port.held := by
  have hclaim : ∀ q : Publisher, (port.tryClaim q).2.held = port.held := by
    intro q
    unfold Port.tryClaim
    split <;> rfl
  cases action with
  | copy b =>
    simp only [Port.act] at h
    split at h
    · next hb =>
      rcases List.mem_cons.mp h with rfl | h
      · exact hb
      · exact h
    · exact h
  | drop b =>
    simp only [Port.act] at h
    split at h
    · exact List.mem_of_mem_erase h
    · exact h
  | claim b outcome =>
    have hheld : (port.claim b outcome).2.held = port.held := by
      rw [← hclaim b.publisher]
      unfold Port.claim
      split <;> next heq => rw [heq]; split <;> rfl
    simp only [Port.act] at h
    split at h
    · split at h
      · next p' heq =>
        rw [heq] at hheld
        exact hheld ▸ h
      · next p' heq =>
        rw [heq] at hheld
        exact hheld ▸ h
    · exact h
  | fail b =>
    have hheld := hclaim b.publisher
    simp only [Port.act] at h
    split at h
    · split at h
      · next p' heq =>
        rw [heq] at hheld
        exact hheld ▸ h
      · next p' heq =>
        rw [heq] at hheld
        exact hheld ▸ h
    · exact h
  | write k =>
    simp only [Port.act] at h
    split at h
    · exact h
    · split at h <;> exact h

theorem follows_held {e e' : Env σ} (h : e.Follows e') {a : AsyncResult} (ha : a ∈ e'.port.held) :
    a ∈ e.port.held := by
  obtain ⟨actions, hactions⟩ := h
  rw [hactions] at ha
  clear hactions
  generalize e.port = port at ha ⊢
  induction actions generalizing port with
  | nil => exact ha
  | cons b actions ih => exact act_held (ih _ ha)

theorem Unheld.follows {i : ℕ} {e e' : Env σ} (h : Unheld i e.port) (hf : e.Follows e') :
    Unheld i e'.port := fun a ha => h a (follows_held hf ha)

theorem releaseRevisions_quiet (w : Engine σ) (token : Option ℕ) :
    Quiet c w (releaseRevisions c w token) := by
  cases token with
  | none => exact .refl w
  | some token => exact .call w _

theorem abandonAdmission_moves (i : ℕ) (credits : AdmissionBundle) (w : Engine σ) :
    Moves c .idle w .idle (abandonAdmission c i credits w) := by
  have hledger : (w.slots i).Ledger { w.slots i with revisions := none } := rfl
  exact (Moves.quiet (.setSlot hledger)).trans ((Moves.quiet (releaseRevisions_quiet _ _)).trans
    (.pool _ _))

/-- The tickets of the fields `l` are reserved, or those before the first that cannot be. -/
theorem reserveTickets_moves {i : ℕ} (now : OperationContext) {l : List ℕ} (hnodup : l.Nodup)
    (hlt : ∀ f ∈ l, f < 4) (hidle : (w.slots i).active = false) (hheld : Unheld i w.env.port)
    (hnew : ∀ f ∈ l, (w.slots i).tokens f = none) {r : Result Unit}
    (h : reserveTickets c i now l w = (r, w')) :
    Moves c .idle w .idle w' ∧ w'.state = w.state ∧ w'.nextSequence = w.nextSequence ∧
      (∀ f, ((w.slots i).tokens f).isSome → ((w'.slots i).tokens f).isSome) ∧
      (r = .ok () → ∀ f ∈ l, ((w'.slots i).tokens f).isSome) ∧
      ∃ tokens ticketOperations, w'.slots = Function.update w.slots i
        { w.slots i with tokens, ticketOperations } := by
  have hself : ∃ tokens ticketOperations, w.slots = Function.update w.slots i
      { w.slots i with tokens, ticketOperations } :=
    ⟨(w.slots i).tokens, (w.slots i).ticketOperations, (Function.update_eq_self i w.slots).symm⟩
  induction l generalizing w with
  | nil =>
    obtain ⟨-, rfl⟩ := Prod.mk.inj h
    exact ⟨.refl, rfl, rfl, fun _ hs => hs, by simp, hself⟩
  | cons f l ih =>
    obtain ⟨hf, hnodup⟩ := List.nodup_cons.mp hnodup
    have hf4 := hlt f List.mem_cons_self
    simp only [reserveTickets] at h
    split at h
    · next e v hticket =>
      obtain ⟨rfl, rfl⟩ := Prod.mk.inj h
      unfold reserveTicket at hticket
      dsimp only at hticket
      split at hticket
      · obtain ⟨-, rfl⟩ := Prod.mk.inj hticket
        exact ⟨.quiet ⟨fun _ => .refl _, rfl, rfl, rfl, Nat.le_succ _, rfl, .refl w⟩, rfl, rfl,
          fun _ hs => hs, by simp, hself⟩
      · exact absurd (congrArg Prod.fst hticket) (by simp)
    · next u v hticket =>
      have hmove : Act c i .idle w .idle v :=
        .reserve hidle hf4 (fun a ha => hheld a ha f hf4) (hnew f List.mem_cons_self) hticket
      unfold reserveTicket at hticket
      dsimp only at hticket
      split at hticket
      · exact absurd (congrArg Prod.fst hticket) (by simp)
      · next publisher port hport =>
        obtain ⟨-, rfl⟩ := Prod.mk.inj hticket
        have hportheld : port.held = w.env.port.held := by
          unfold Port.reserve at hport
          split at hport
          · cases hport
          · obtain ⟨-, rfl⟩ := Prod.mk.inj (Except.ok.inj hport)
            rfl
        obtain ⟨hmoves, hstate, hseq, hkeep, hall, tokens, operations, hslots⟩ := ih hnodup
          (fun f' hf' => hlt f' (List.mem_cons_of_mem f hf')) (by simpa using hidle)
          (fun a ha => hheld a (hportheld ▸ ha))
          (fun f' hf' => by
            have hne : f' ≠ f := fun h => hf (h ▸ hf')
            simpa [Function.update_of_ne hne] using hnew f' (List.mem_cons_of_mem f hf'))
          h ⟨_, _, (Function.update_eq_self i _).symm⟩
        refine ⟨hmove.moves.trans hmoves, hstate, hseq, fun f' hf' => ?_, fun hok f' hf' => ?_, tokens,
          operations, ?_⟩
        · refine hkeep f' ?_
          by_cases hff : f' = f
          · simp [hff]
          · simpa [Function.update_of_ne hff] using hf'
        · rcases List.mem_cons.mp hf' with rfl | hf'
          · exact hkeep f' (by simp)
          · exact hall hok f' hf'
        · rw [hslots]
          simp

/-- A stop marks the starts of other slots as cancelled. -/
theorem disarmStarts_spec (i : ℕ) (s : Slot) (w : Engine σ) :
    ∃ slots, disarmStarts c i s w = { w with slots } ∧ (∀ j, (w.slots j).Marked (slots j)) ∧
      slots i = w.slots i := by
  unfold disarmStarts
  split
  · refine ⟨_, rfl, fun j => ?_, ?_⟩
    · dsimp only
      split
      · refine ⟨rfl, fun f hf => ?_⟩
        by_cases h : f = 0
        · subst h
          simp
        · simpa [Function.update_of_ne h] using hf
      · exact .refl _
    · simp
  · exact ⟨w.slots, rfl, fun j => .refl _, rfl⟩

theorem armedStart_marked {s s' : Slot} (h : s.Marked s') (hs : s'.armedStart) : s.armedStart := by
  rw [h.slot] at hs
  simp only [Slot.armedStart, decide_eq_true_eq] at hs ⊢
  exact ⟨hs.1, hs.2.1, hs.2.2.1, hs.2.2.2.1, fun hc => hs.2.2.2.2 (h.cancelled 0 hc)⟩

/-- A start that is planned as eligible is the only one that is armed. -/
theorem armed_of_start {s : Slot} {state : StateSnapshot} {armed : Bool} {e : Env σ}
    (hsdr : c.profile = .sdrRadio) (honly : s.request.isOnly Field.discreteIO32 3)
    (haction : s.action = 2) (h : (validatePlan c s state armed e).2.1.eligible 0) : ¬armed := by
  simp only [Request.isOnly, decide_eq_true_eq] at honly
  obtain ⟨hlen, hid, hvalue⟩ := honly
  have hcount : 0 < s.request.count := by rw [Request.count, hlen]; exact Nat.one_pos
  have hlife := (validatePlan_accepted hcount h).lifecycle hsdr (by rw [haction]; decide) hid
  intro harmed
  refine hlife ?_
  simp [badLifecycle, hvalue, asWord, harmed]

/-- The reservation of revisions changes nothing but the environment. -/
theorem reserveRevisions_moves {r : Request} {v v' : Engine σ} {res : Result (Option ℕ)}
    (h : reserveRevisions c r v = (res, v')) :
    Moves c .idle v .idle v' ∧ v'.slots = v.slots ∧ v.env.Follows v'.env := by
  unfold reserveRevisions at h
  split at h
  · obtain ⟨-, rfl⟩ := Prod.mk.inj h
    exact ⟨.refl, rfl, .refl _⟩
  · next reserve _ =>
    split at h
    · have hcall : Moves c .idle v .idle (v.call (reserve r.count)).2 := .call v _
      generalize hu : v.call (reserve r.count) = u at h hcall
      have hus : u.2.slots = v.slots := by rw [← hu]; rfl
      have hue : v.env.Follows u.2.env := by rw [← hu]; exact .call v.env _
      obtain ⟨u₁, u₂⟩ := u
      cases u₁ <;>
        · obtain ⟨-, rfl⟩ := Prod.mk.inj h
          exact ⟨hcall, hus, hue⟩
    · obtain ⟨-, rfl⟩ := Prod.mk.inj h
      exact ⟨.refl, rfl, .refl _⟩

/-- A slot whose plan is accepted, with its tickets, becomes active. -/
theorem activate_moves {i : ℕ} {credits : AdmissionBundle} {now : OperationContext}
    (hlt : i < c.transactions) (hidle : (w.slots i).active = false) (hfresh : Fresh c now (w.slots i))
    (harmed : c.profile = .sdrRadio → (w.slots i).request.isOnly Field.discreteIO32 3 →
      (w.slots i).action = 2 → (w.slots i).eligible 0 → ∀ j < c.transactions, j ≠ i →
        ¬(w.slots j).armedStart)
    (hcredits : (w.slots i).action = 2 → credits.held .revision = (w.slots i).execution.count ∧
      credits.held .contextPublication = (w.slots i).execution.count)
    (htokens : ∀ f < 4, ((w.slots i).tokens f).isSome) :
    Moves c .idle w .idle (activate c i credits now w) := by
  unfold activate
  dsimp only
  refine (@Act.activate _ _ _ _ now credits now.associationGeneration hlt hidle hfresh harmed hcredits
    htokens).moves.trans ?_
  simp only [setSlot_slots, Function.update_self]
  exact .quiet (queueAck_quiet i .validation _ now _)

/-- An admission into a free slot. -/
theorem admit_moves {i : ℕ} {r : Request} {credits : AdmissionBundle} {now : OperationContext}
    (hlt : i < c.transactions) (hidle : (w.slots i).active = false) (hheld : Unheld i w.env.port)
    (hr : r.WellFormed c.profile) (hcam : r.cam.action ≤ 2 ∧ r.cam.timing ≤ 4)
    (hcredits : r.cam.action = 2 → credits.held .revision = r.count ∧
      credits.held .contextPublication = r.count) :
    Moves c .idle w .idle (admitRequest c i r credits now w).2 := by
  have hclear : Moves c .idle w .idle (w.setSlot i (clearedSlot (w.slots i) w.state)) :=
    (Act.scratch (s := clearedSlot (w.slots i) w.state) hidle hidle (by simp [clearedSlot]) rfl).moves
  generalize hv : w.setSlot i (clearedSlot (w.slots i) w.state) = v at hclear
  have hvi : v.slots i = clearedSlot (w.slots i) w.state := by
    rw [← hv, setSlot_slots, Function.update_self]
  have hve : v.env = w.env := by rw [← hv]; rfl
  unfold admitRequest
  rw [hv]
  split
  · next e v' hres =>
    exact hclear.trans ((reserveRevisions_moves hres).1.trans (abandonAdmission_moves i credits v'))
  · next revisions v' hres =>
    obtain ⟨hmoves, hslots, hfollows⟩ := reserveRevisions_moves hres
    have hslot : v'.slots i = clearedSlot (w.slots i) w.state := by rw [hslots, hvi]
    have hidle' : (v'.slots i).active = false := by rw [hslot]; exact hidle
    obtain ⟨hplanned, henv⟩ := validatePlan_planned (c := c)
      (s := newSlot c (v'.slots i) r revisions now)
      (le_trans hr.count_le (by unfold fieldLimit; split <;> decide)) v'.state (armed c v' i) v'.env
    have haccept : c.profile = .sdrRadio →
        (newSlot c (v'.slots i) r revisions now).request.isOnly Field.discreteIO32 3 →
        (newSlot c (v'.slots i) r revisions now).action = 2 →
        (validatePlan c (newSlot c (v'.slots i) r revisions now) v'.state (armed c v' i)
          v'.env).2.1.eligible 0 → ¬armed c v' i :=
      fun hsdr honly haction => armed_of_start hsdr honly haction
    generalize hplan : validatePlan c (newSlot c (v'.slots i) r revisions now) v'.state
      (armed c v' i) v'.env = plan at hplanned henv haccept
    obtain ⟨ok, s, env⟩ := plan
    simp only at hplanned henv haccept
    have htokens : ∀ f q, s.tokens f = some q → (v'.slots i).tokens f = some q ∧
        s.ticketOperations f = (v'.slots i).ticketOperations f := by
      intro f q hq
      rw [hplanned.slot, newSlot, hslot, clearedSlot] at hq
      cases hq
    have hactive : s.active = false := by rw [hplanned.slot]; exact hidle'
    have hrunning : s.running = false := by
      rw [hplanned.slot, newSlot, hslot]
      rfl
    have hquiet : Moves c .idle v' .idle { v' with env } := .quiet (.env v' henv)
    refine hclear.trans (hmoves.trans (hquiet.trans ?_))
    cases ok with
    | false =>
      exact (Act.scratch (w := { v' with env }) hidle' hactive htokens hrunning).moves.trans
        (abandonAdmission_moves i credits _)
    | true =>
      have hfresh : Fresh c now s := by
        rw [hslot] at hplanned
        exact fresh_of_planned hr hcam hplanned
      have hsched : Rescheduled s (checkAhead c now (chooseFirst c now s)) :=
        (chooseFirst_rescheduled now s).trans (checkAhead_rescheduled now _)
      dsimp only
      generalize checkAhead c now (chooseFirst c now s) = s' at hsched
      obtain ⟨slots, hdisarm, hmarked, hsame⟩ :=
        disarmStarts_spec (c := c) i s' ({ v' with env } : Engine σ)
      rw [hdisarm]
      have hmark : Moves c .idle { v' with env } .idle { v' with env, slots } :=
        (Move.mark hmarked).moves
      refine hmark.trans ?_
      have hsched' := hsched.trans (validateBoundaryState_rescheduled (c := c) v'.timeline s')
      have hfresh' := hfresh.rescheduled hsched'
      generalize validateBoundaryState c v'.timeline s' = s'' at hsched' hfresh'
      have hidle'' : (slots i).active = false := by rw [hsame]; exact hidle'
      have hactive' : s''.active = false := by rw [hsched'.slot]; exact hactive
      have htokens' : ∀ f q, s''.tokens f = some q → (slots i).tokens f = some q ∧
          s''.ticketOperations f = (slots i).ticketOperations f := by
        intro f q hq
        rw [hsched'.slot] at hq ⊢
        rw [hsame]
        exact htokens f q hq
      have hnone : ∀ f, s''.tokens f = none := by
        intro f
        rw [hsched'.slot, hplanned.slot, newSlot, hslot, clearedSlot]
      refine (Act.scratch (w := { v' with env, slots }) hidle'' hactive' htokens' hfresh'.running).moves.trans ?_
      generalize hx : ({ v' with env, slots } : Engine σ).setSlot i s'' = x
      have hxi : x.slots i = s'' := by rw [← hx, setSlot_slots, Function.update_self]
      have hxj : ∀ j, j ≠ i → x.slots j = slots j := by
        intro j hj
        rw [← hx, setSlot_slots, Function.update_of_ne hj]
      have hxe : x.env = env := by rw [← hx]; rfl
      have hheld' : Unheld i x.env.port := by
        rw [hxe]
        refine (Unheld.follows ?_ (hfollows.trans henv))
        rw [hve]
        exact hheld
      obtain ⟨⟨res, y⟩, htickets⟩ : ∃ z, reserveTickets c i now (List.range 4) x = z := ⟨_, rfl⟩
      obtain ⟨hreserved, -, -, -, hall, tokens, operations, hy⟩ := reserveTickets_moves now List.nodup_range
        (fun f hf => List.mem_range.mp hf) (by rw [hxi]; exact hactive') hheld'
        (fun f _ => by rw [hxi]; exact hnone f) htickets
      rw [htickets]
      refine hreserved.trans ?_
      have hyi : y.slots i = { s'' with tokens, ticketOperations := operations } := by
        rw [hy, Function.update_self, hxi]
      have hyactive : (y.slots i).active = false := by rw [hyi]; exact hactive'
      cases res with
      | error e =>
        exact (Act.drop hyactive).moves.trans (abandonAdmission_moves i credits _)
      | ok u =>
        have hyfresh : Fresh c now (y.slots i) := by
          rw [hyi]
          obtain ⟨h1, h2, h3, h4, h5, h6, h7, h8, h9, h10, h11, h12, h13, h14, h15, h16⟩ := hfresh'
          exact ⟨h1, h2, h3, h4, h5, h6, h7, h8, h9, h10, h11, h12, h13, h14, h15, h16⟩
        have hrequest : (y.slots i).request = r := by
          rw [hyi, hsched'.slot, hplanned.slot]
          rfl
        have hcount : (y.slots i).execution.count = r.count := by rw [hyfresh.count, hrequest]
        have harmed : c.profile = .sdrRadio → (y.slots i).request.isOnly Field.discreteIO32 3 →
            (y.slots i).action = 2 → (y.slots i).eligible 0 → ∀ j < c.transactions, j ≠ i →
              ¬(y.slots j).armedStart := by
          intro hsdr honly haction hel j hj hne harmed
          rw [hy, Function.update_of_ne hne, hxj j hne] at harmed
          have hstart := armedStart_marked (hmarked j) harmed
          rw [hrequest] at honly
          rw [Slot.action, hrequest] at haction
          rw [hyi] at hel
          refine haccept hsdr honly haction (hsched'.plan.eligible 0 hel) ?_
          simp only [armed, decide_eq_true_eq]
          exact ⟨j, List.mem_range.mpr hj, hne, hstart⟩
        exact activate_moves hlt hyactive hyfresh harmed
          (by rw [Slot.action, hrequest, hcount]; exact hcredits)
          fun f hf => hall rfl f (List.mem_range.mpr hf)

/-- A fault that is observed leaves the slots. -/
theorem observeFault_slots (w : Engine σ) (r : ℕ) :
    (observeFault w r).slots = w.slots ∧ (observeFault w r).env.port.held = w.env.port.held := by
  unfold observeFault
  dsimp only
  split
  · split
    · split
      · exact ⟨rfl, rfl⟩
      · split <;> exact ⟨rfl, rfl⟩
    · exact ⟨rfl, rfl⟩
  · exact ⟨rfl, rfl⟩

/-- All faults that are observed leave the slots. -/
theorem observeBackendFaults_slots (w : Engine σ) :
    (observeBackendFaults c w).slots = w.slots ∧
      (observeBackendFaults c w).env.port.held = w.env.port.held := by
  unfold observeBackendFaults
  generalize List.range (c.transactions * 4) = l
  induction l generalizing w with
  | nil => exact ⟨rfl, rfl⟩
  | cons r l ih =>
    obtain ⟨hs, hh⟩ := ih (observeFault w r)
    obtain ⟨hs', hh'⟩ := observeFault_slots w r
    exact ⟨hs.trans hs', hh.trans hh'⟩

theorem freeSlot_eq_some {i : ℕ} (h : freeSlot c w = some i) :
    i < c.transactions ∧ (w.slots i).active = false ∧ Unheld i w.env.port := by
  have hmem := List.mem_range.mp (List.mem_of_find?_eq_some h)
  have hp := List.find?_some h
  simp only [decide_eq_true_eq] at hp
  refine ⟨hmem, by simpa using hp.1, fun a ha f hf hindex => hp.2.2 ?_⟩
  simp only [pinned, decide_eq_true_eq]
  refine ⟨f, List.mem_range.mpr hf, .inl ?_⟩
  exact Nat.pos_iff_ne_zero.mp (List.countP_pos_iff.mpr ⟨a, ha, by simpa using hindex⟩)

theorem admissible_request {packet : PacketView} {now : OperationContext} {r : Request}
    (h : admissible c packet now w = .ok r) : requestFrom packet c.profile = .ok r := by
  simp only [admissible, bind_eq_ok, pure_eq_ok, Except.ok.injEq] at h
  obtain ⟨_, -, _, -, _, -, _, -, _, -, r', hr, _, -, _, -, _, -, rfl⟩ := h
  exact hr

/-- A packet is accepted by moves between the turns. -/
theorem accept_moves (packet : PacketView) (now : OperationContext) (w : Engine σ) :
    Moves c .idle w .idle (accept c packet now w).2 := by
  unfold accept
  refine (observeBackendFaults_moves w).trans ?_
  generalize observeBackendFaults c w = v
  dsimp only
  split
  · exact .refl
  · next r hadmissible =>
    have hrequest := admissible_request hadmissible
    refine (observeBackendFaults_moves v).trans ?_
    obtain ⟨hslots, hheld⟩ := observeBackendFaults_slots (c := c) v
    generalize observeBackendFaults c v = u at hslots hheld
    split
    · exact .refl
    · split
      · exact .refl
      · next i hfree =>
        split
        · exact .refl
        · split
          · exact .refl
          · next credits pool hacquire =>
            obtain ⟨hlt, hidle, hunheld⟩ := freeSlot_eq_some hfree
            refine (Moves.pool u pool).trans (admit_moves hlt (by rw [← hslots] at hidle; exact hidle)
              ?_ (requestFrom_wellFormed hrequest) (requestFrom_cam hrequest)
              (admissionCredits_held hacquire))
            exact fun a ha => hunheld a (hheld ▸ ha)

/-! ## Cancellation -/

/-- The transaction in the slot is the same. -/
structure Slot.Same (s s' : Slot) : Prop where
  request : s'.request = s.request
  active : s'.active = s.active
  sequence : s'.sequence = s.sequence

/-- The transactions in the slots are the same. -/
def SameTx (w w' : Engine σ) : Prop := ∀ j, Slot.Same (w.slots j) (w'.slots j)

theorem SameTx.refl (w : Engine σ) : SameTx w w := fun _ => ⟨rfl, rfl, rfl⟩

theorem SameTx.trans {w'' : Engine σ} (h : SameTx w w') (h' : SameTx w' w'') : SameTx w w'' :=
  fun j => ⟨(h' j).request.trans (h j).request, (h' j).active.trans (h j).active,
    (h' j).sequence.trans (h j).sequence⟩

theorem SameTx.of_slots (h : w'.slots = w.slots) : SameTx w w' :=
  fun _ => by rw [h]; exact ⟨rfl, rfl, rfl⟩

theorem SameTx.setSlot {i : ℕ} {s : Slot} (h : Slot.Same (w.slots i) s) : SameTx w (w.setSlot i s) := by
  intro j
  rw [setSlot_slots]
  by_cases hj : j = i
  · subst hj
    rw [Function.update_self]
    exact h
  · rw [Function.update_of_ne hj]
    exact ⟨rfl, rfl, rfl⟩

/-- The scan for completions leaves the transactions of the slots. -/
theorem scan_sameTx (w : Engine σ) : SameTx w (scan c w) := by
  have hticket : ∀ (w : Engine σ) (t : ℕ), SameTx w (scanTicket c w t) := by
    intro w t
    unfold scanTicket consume
    split
    · exact .refl w
    · next record port _ =>
      split
      · exact .of_slots rfl
      · next i _ =>
        dsimp only
        generalize (if record.result.status = .succeeded ∧ record.result.value =
            i * 4 + ((w.setPort port).slots i).runningField then _ else _ : FieldOutcome) = o
        obtain ⟨_, _, _, hs⟩ := (applyOutcome_applied (c := c) true i
          ((w.setPort port).slots i).runningField o (w.setPort port)).slots
        intro j
        rw [hs]
        by_cases hj : j = i
        · subst hj
          rw [Function.update_self, recordOutcome_eq]
          exact ⟨rfl, rfl, rfl⟩
        · rw [Function.update_of_ne hj]
          exact ⟨rfl, rfl, rfl⟩
  unfold scan
  generalize List.range (c.transactions * 4) = l
  induction l generalizing w with
  | nil => exact .refl w
  | cons t l ih => exact (hticket w t).trans (ih _)

theorem complete_disarmed {port port' : Port} {cap : AsyncResult} {o : FieldOutcome}
    (h : port.complete cap o = (true, port')) (ho : o.status = .cancelled) : Disarmed port' cap := by
  unfold Port.complete Port.claim Port.tryClaim at h
  split at h
  · next p heq =>
    obtain ⟨-, rfl⟩ := Prod.mk.inj h
    constructor <;> simp [Port.deliver, Port.finish, Port.setResult, Port.setTicket, ho]
  · exact absurd (congrArg Prod.fst h) (by simp)

theorem Disarmed.drop {port : Port} {cap : AsyncResult} (h : Disarmed port cap) :
    Disarmed (port.act (.drop cap)) cap := by
  simp only [Port.act]
  split
  · exact ⟨h.generation, h.state, h.payload, h.outcome⟩
  · exact h

theorem callDisarm_moves {i : ℕ} (cap : AsyncResult) (hactive : (w.slots i).active)
    (hrunning : (w.slots i).running) :
    Moves c .idle w .idle (callDisarm c i cap w).2 ∧ (callDisarm c i cap w).2.slots = w.slots := by
  unfold callDisarm
  split
  · exact ⟨.refl, rfl⟩
  · next disarm _ =>
    exact ⟨(Act.disarm hactive hrunning).moves.trans (.call _ (disarm cap)), rfl⟩

theorem setGuard_quiet (w : Engine σ) (r : ℕ) (f : ResultGuard → ResultGuard) :
    Quiet c w (w.setPort (w.env.port.setGuard r f)) := by
  refine .setPort (.guard rfl rfl rfl fun r' => ?_)
  by_cases hr : r' = r
  · subst hr
    simp [Port.setGuard, Port.setResult]
  · simp [Port.setGuard, Port.setResult, Function.update_of_ne hr]

/-- What was disarmed is completed as cancelled, if its ticket is still free to claim. -/
theorem completeDisarmed_moves {i : ℕ} {cap : AsyncResult} (id : FieldId) (timing : UInt32)
    {disarmed : DisarmResult} (hrunning : (w.slots i).running)
    (hcap : cap = capability i (w.slots i) (w.slots i).runningField) {done : Bool}
    (h : completeDisarmed cap id timing disarmed w = (done, w')) :
    Moves c .idle w .idle w' ∧ w'.slots = w.slots ∧ (done → Disarmed w'.env.port cap) := by
  have hcomplete : ∀ (port port' : Port) (o : FieldOutcome) (b : Bool),
      port.complete cap o = (b, port') → o.status ≠ .executed →
      Moves c .idle (w.setPort port) .idle (w.setPort port') := by
    intro port port' o b hport ho
    have hstep : PortStep c (w.setPort port) (port.complete cap o).2 := by
      rw [hcap]
      exact .complete (w := w.setPort port) hrunning ho
    rw [hport] at hstep
    exact .quiet (.setPort hstep)
  cases disarmed with
  | cancelled =>
    have hguard : Moves c .idle w .idle _ :=
      .quiet (setGuard_quiet w cap.index fun g => { g with cancelled := true })
    simp only [completeDisarmed] at h
    split at h
    · next port hport =>
      obtain ⟨rfl, rfl⟩ := Prod.mk.inj h
      exact ⟨hguard.trans (hcomplete _ _ _ _ hport (by simp)), rfl,
        fun _ => complete_disarmed hport rfl⟩
    · next port hport =>
      obtain ⟨rfl, rfl⟩ := Prod.mk.inj h
      exact ⟨hguard.trans ((hcomplete _ _ _ _ hport (by simp)).trans
        ((Moves.quiet (setGuard_quiet _ cap.index _)).trans (.quiet (.flags _ _ _ true _)))), rfl,
          fun hd => absurd hd (by simp)⟩
  | unknownEffect =>
    obtain ⟨rfl, rfl⟩ := Prod.mk.inj h
    exact ⟨hcomplete w.env.port _ _ _ rfl (by simp [unknownOutcome]), rfl,
      fun hd => absurd hd (by simp)⟩
  | notCancelled =>
    obtain ⟨rfl, rfl⟩ := Prod.mk.inj h
    exact ⟨.refl, rfl, fun hd => absurd hd (by simp)⟩

/-- A running field is disarmed by the backend, and then completed by the engine itself. -/
theorem disarmField_moves {i : ℕ} (id : FieldId) (timing : UInt32) (hactive : (w.slots i).active)
    (hrunning : (w.slots i).running) {d : DisarmResult} {done : Bool}
    (h : disarmField c i (w.slots i).runningField id timing w = (d, done, w')) :
    Moves c .idle w .idle w' ∧ w'.slots = w.slots ∧
      (done → Disarmed w'.env.port (capability i (w.slots i) (w.slots i).runningField)) := by
  have hhold : Moves c .idle w .idle (w.setPort (w.env.port.hold
      (capability i (w.slots i) (w.slots i).runningField))) := .quiet (.setPort (.hold hrunning))
  obtain ⟨hcall, hslots⟩ := callDisarm_moves (c := c) (w := w.setPort (w.env.port.hold
    (capability i (w.slots i) (w.slots i).runningField)))
    (capability i (w.slots i) (w.slots i).runningField) hactive hrunning
  unfold disarmField at h
  dsimp only at h
  generalize callDisarm c i _ (w.setPort _) = u at h hcall hslots
  have hslots' : u.2.slots = w.slots := hslots
  obtain ⟨⟨done', v⟩, hv⟩ : ∃ x, completeDisarmed (capability i (w.slots i)
    (w.slots i).runningField) id timing u.1 u.2 = x := ⟨_, rfl⟩
  obtain ⟨hmoves, hvs, hdone⟩ := completeDisarmed_moves (c := c) id timing
    (by rw [hslots']; exact hrunning) (by rw [hslots']) hv
  rw [hv] at h
  obtain ⟨-, h⟩ := Prod.mk.inj h
  obtain ⟨rfl, rfl⟩ := Prod.mk.inj h
  refine ⟨hhold.trans (hcall.trans (hmoves.trans (.quiet (.setPort (.act [.drop _]))))),
    hvs.trans hslots', fun hd => (hdone hd).drop⟩

theorem planField_eq_some {s : Slot} {id : FieldId} {f : ℕ} (h : planField s id = some f) :
    f < s.execution.count ∧ (s.execution.fields f).id = id := by
  have hmem := List.mem_of_find?_eq_some h
  have hp := List.find?_some h
  rw [List.mem_reverse, List.mem_range] at hmem
  exact ⟨hmem, by simpa using hp⟩

theorem marked_field (s : Slot) (f : ℕ) :
    s.Marked { s with cancelled := Function.update s.cancelled f true } := by
  refine ⟨rfl, fun g hg => ?_⟩
  by_cases h : g = f
  · subst h
    simp
  · simpa [Function.update_of_ne h] using hg

theorem mark_moves (i f : ℕ) (w : Engine σ) :
    Moves c .idle w .idle (w.setSlot i
      { w.slots i with cancelled := Function.update (w.slots i).cancelled f true }) := by
  refine (Move.mark fun j => ?_).moves
  by_cases hj : j = i
  · subst hj
    simpa using marked_field (w.slots j) f
  · simpa [Function.update_of_ne hj] using Slot.Marked.refl (w.slots j)

/-- One field is cancelled. -/
theorem cancelField_moves {i : ℕ} (p : CancelProgress σ) (k : Fin 8)
    (hactive : (p.engine.slots i).active) (haction : (p.engine.slots i).action = 2) :
    Moves c .idle p.engine .idle (cancelField c i p k).engine ∧
      SameTx p.engine (cancelField c i p k).engine := by
  unfold cancelField
  dsimp only
  split
  · exact ⟨.refl, .refl _⟩
  · next field hfield =>
    obtain ⟨hlt, hid⟩ := planField_eq_some hfield
    split
    · next hpending =>
      split
      · next hrunning =>
        obtain ⟨hrun, rfl⟩ := hrunning
        split
        · next d v hdisarm =>
          obtain ⟨hmoves, hslots, hdone⟩ := disarmField_moves _ 0 hactive hrun hdisarm
          refine ⟨hmoves.trans ?_, .of_slots hslots⟩
          have hmove : Act c i .idle v .idle (v.emit (.confirmed (v.slots i).sequence (stateField k))) :=
            Act.confirm (f := (p.engine.slots i).runningField) (by rw [hslots]; exact hactive) (by rw [hslots]; exact haction)
            (by rw [hslots]; exact hlt) (by rw [hslots]; exact hid) (by rw [hslots]; exact hpending.2)
            (by rw [hslots, if_pos ⟨hrun, rfl⟩]; exact hdone rfl)
          rw [hslots] at hmove
          exact hmove.moves
        · next v hdisarm =>
          obtain ⟨hmoves, hslots, -⟩ := disarmField_moves _ 0 hactive hrun hdisarm
          exact ⟨hmoves, .of_slots hslots⟩
        · next d v _ hdisarm =>
          obtain ⟨hmoves, hslots, -⟩ := disarmField_moves _ 0 hactive hrun hdisarm
          exact ⟨hmoves, .of_slots hslots⟩
      · next hrunning =>
        have hmark := mark_moves (c := c) i field p.engine
        generalize hv : p.engine.setSlot i { p.engine.slots i with
          cancelled := Function.update (p.engine.slots i).cancelled field true } = v at hmark
        have hvi : v.slots i = { p.engine.slots i with
            cancelled := Function.update (p.engine.slots i).cancelled field true } := by
          rw [← hv, setSlot_slots, Function.update_self]
        refine ⟨hmark.trans ?_, ?_⟩
        · have hmove : Act c i .idle v .idle (v.emit (.confirmed (v.slots i).sequence (stateField k))) :=
            Act.confirm (f := field) (by rw [hvi]; exact hactive) (by rw [hvi]; exact haction) (by rw [hvi]; exact hlt)
            (by rw [hvi]; exact hid) (by rw [hvi]; exact hpending.2)
            (by rw [hvi, if_neg hrunning]; exact Function.update_self _ _ _)
          rw [hvi] at hmove
          exact hmove.moves
        · rw [← hv]
          exact .setSlot (w := p.engine) ⟨rfl, rfl, rfl⟩
    · exact ⟨.refl, .refl _⟩

/-- The cancellation of some fields is a sequence of moves. -/
theorem cancelFields_moves {i : ℕ} (l : List (Fin 8)) (p : CancelProgress σ)
    (hactive : (p.engine.slots i).active) (haction : (p.engine.slots i).action = 2) :
    Moves c .idle p.engine .idle (l.foldl (cancelField c i) p).engine := by
  induction l generalizing p with
  | nil => exact .refl
  | cons k l ih =>
    obtain ⟨hmoves, hsame⟩ := cancelField_moves (c := c) p k hactive haction
    refine hmoves.trans (ih _ ?_ ?_)
    · rw [(hsame i).active]
      exact hactive
    · rw [Slot.action, (hsame i).request]
      exact haction

/-- Only an active execution can be cancelled. -/
theorem cancellable_eq_ok {handle : Handle} {packet : PacketView} {now : OperationContext}
    {x : UInt32 × (Fin 8 → Bool)} (h : cancellable c handle packet now w = .ok x) :
    (w.slots handle.slot).active ∧ (w.slots handle.slot).action = 2 := by
  simp only [cancellable, bind_eq_ok, rejectIf_eq_ok] at h
  obtain ⟨_, -, _, hstale, h⟩ := h
  split at h
  · simp only [bind_eq_ok, rejectIf_eq_ok] at h
    obtain ⟨_, -, _, -, _, -, _, haction, -⟩ := h
    simp only [not_or, not_not] at hstale haction
    exact ⟨by simpa using hstale.1, haction.1⟩
  · cases h

theorem cancelCredits_spec (cam : UInt32) (reserved : AdmissionBundle) (w : Engine σ) :
    ∃ pool, (cancelCredits cam reserved w).2 = { w with pool } := by
  unfold cancelCredits
  dsimp only
  split
  · split
    · exact ⟨_, rfl⟩
    · split <;> exact ⟨_, rfl⟩
  · exact ⟨w.pool, rfl⟩

/-- A cancellation is a sequence of moves. -/
theorem cancel_moves (handle : Handle) (packet : PacketView) (now : OperationContext)
    (reserved : AdmissionBundle) (w : Engine σ) :
    Moves c .idle w .idle (cancel c handle packet now reserved w).2 := by
  unfold cancel
  split
  · exact .pool w _
  · next cam selected hok =>
    obtain ⟨hactive, haction⟩ := cancellable_eq_ok hok
    obtain ⟨pool, hpool⟩ := cancelCredits_spec cam reserved w
    split
    · next e v hcredits =>
      rw [hcredits] at hpool
      obtain rfl : v = { w with pool } := hpool
      exact .pool w pool
    · next credits v hcredits =>
      rw [hcredits] at hpool
      obtain rfl : v = { w with pool } := hpool
      refine (Moves.pool w pool).trans ?_
      dsimp only
      split
      · exact .refl
      · have hscan := scan_sameTx (c := c) ({ w with pool } : Engine σ)
        have hfields := cancelFields_moves (c := c) (i := handle.slot)
          ((List.finRange 8).filter selected) { engine := scan c { w with pool } }
        refine (scan_moves _).trans ((hfields ?_ ?_).trans (scan_moves _))
        · rw [(hscan handle.slot).active]
          exact hactive
        · rw [Slot.action, (hscan handle.slot).request]
          exact haction

/-! ## Shutdown -/

/-- One field is made quiet. -/
theorem quiesceField_moves {i : ℕ} (field : ℕ) (hactive : (w.slots i).active) :
    Moves c .idle w .idle (quiesceField c i w field) ∧ SameTx w (quiesceField c i w field) := by
  have hmark := mark_moves (c := c) i field w
  have hsame : SameTx w (w.setSlot i
      { w.slots i with cancelled := Function.update (w.slots i).cancelled field true }) :=
    .setSlot ⟨rfl, rfl, rfl⟩
  unfold quiesceField
  dsimp only
  split
  · exact ⟨.refl, .refl w⟩
  · split
    · next hrunning =>
      obtain ⟨hrun, rfl⟩ := hrunning
      split
      · exact ⟨.refl, .refl w⟩
      · generalize hv : w.setSlot i { w.slots i with
          cancelled := Function.update (w.slots i).cancelled (w.slots i).runningField true } = v
          at hmark hsame ⊢
        have hvi : v.slots i = { w.slots i with
            cancelled := Function.update (w.slots i).cancelled (w.slots i).runningField true } := by
          rw [← hv, setSlot_slots, Function.update_self]
        have hfield : (v.slots i).runningField = (w.slots i).runningField := by rw [hvi]
        rw [← hfield]
        obtain ⟨⟨d, done, u⟩, hdisarm⟩ : ∃ x, disarmField c i (v.slots i).runningField
          ((w.slots i).execution.fields (v.slots i).runningField).id
          (if (w.slots i).request.cam.timing ≠ 0 then timingError else 0) v = x := ⟨_, rfl⟩
        obtain ⟨hmoves, hslots, -⟩ := disarmField_moves (c := c) _ _ (by rw [hvi]; exact hactive)
          (by rw [hvi]; exact hrun) hdisarm
        rw [hdisarm]
        exact ⟨hmark.trans hmoves, hsame.trans (.of_slots hslots)⟩
    · exact ⟨hmark, hsame⟩

/-- One slot is made quiet. -/
theorem quiesceSlot_moves (w : Engine σ) (i : ℕ) : Moves c .idle w .idle (quiesceSlot c w i) := by
  have hfold : ∀ (l : List ℕ) (w : Engine σ), (w.slots i).active →
      Moves c .idle w .idle (l.foldl (quiesceField c i) w) := by
    intro l
    induction l with
    | nil => exact fun _ _ => .refl
    | cons f l ih =>
      intro w hactive
      obtain ⟨hmoves, hsame⟩ := quiesceField_moves (c := c) f hactive
      exact hmoves.trans (ih _ (by rw [(hsame i).active]; exact hactive))
  unfold quiesceSlot
  split
  · next hlive =>
    simp only [Slot.live, decide_eq_true_eq] at hlive
    exact hfold _ w hlive.1
  · exact .refl

theorem requestQuiesce_moves (now : OperationContext) (w : Engine σ) :
    Moves c .idle w .idle (requestQuiesce c now w).2 := by
  unfold requestQuiesce
  split
  · exact .refl
  · exact (Moves.quiet (.flags w w.pool w.timeline w.faulted true)).trans ((scan_moves _).trans
      ((Moves.foldl quiesceSlot_moves _ _).trans (progress_moves now _)))

/-! ## Results -/

/-- Taking an acknowledgement is a sequence of moves. -/
theorem takeResponse_moves (handle : Handle) (w : Engine σ) :
    Moves c .idle w .idle (takeResponse c handle w).2 := by
  have hledger : (w.slots handle.slot).Ledger
      { w.slots handle.slot with responseRead := (w.slots handle.slot).responseRead + 1 } := rfl
  unfold takeResponse
  dsimp only
  split
  · exact .refl
  · split
    · exact .refl
    · split
      · exact .refl
      · exact .quiet (.setSlot hledger)

/-- A release is one move. -/
theorem release_moves (handle : Handle) (w : Engine σ) :
    Moves c .idle w .idle (release c handle w).2 := by
  obtain ⟨⟨r, w'⟩, h⟩ : ∃ x, release c handle w = x := ⟨_, rfl⟩
  rw [h]
  cases r with
  | ok u => exact (Act.release h).moves
  | error e =>
    unfold release at h
    dsimp only at h
    split at h
    · obtain ⟨-, rfl⟩ := Prod.mk.inj h
      exact .refl
    · split at h
      · obtain ⟨-, rfl⟩ := Prod.mk.inj h
        exact .refl
      · exact absurd (congrArg Prod.fst h) (by simp)

/-- The guards are cleared, and nothing else. -/
theorem clearGuards_spec (l : List ℕ) (port : Port) :
    let port' := l.foldl
      (fun p r => p.setGuard r fun g => { g with cancelled := false, contradiction := false }) port
    port'.tickets = port.tickets ∧ port'.held = port.held ∧ port'.writers = port.writers ∧
      ∀ r, (port'.results r).outcome = (port.results r).outcome := by
  induction l generalizing port with
  | nil => exact ⟨rfl, rfl, rfl, fun _ => rfl⟩
  | cons r l ih =>
    obtain ⟨ht, hh, hw, hr⟩ := ih
      (port.setGuard r fun g => { g with cancelled := false, contradiction := false })
    refine ⟨ht, hh, hw, fun r' => (hr r').trans ?_⟩
    by_cases h : r' = r
    · subst h
      simp [Port.setGuard, Port.setResult]
    · simp [Port.setGuard, Port.setResult, Function.update_of_ne h]

/-- A reset is one move. -/
theorem resetState_moves (confirmed : StateSnapshot) (generation : ℕ) (w : Engine σ) :
    Moves c .idle w .idle (resetState c confirmed generation w).2 := by
  have hsafe : ∀ b v, safeToReset c w = (b, v) → Moves c .idle w .idle v ∧
      (b → ∀ i < c.transactions, (v.slots i).active = false) := by
    intro b v h
    unfold safeToReset at h
    dsimp only at h
    split at h
    · obtain ⟨rfl, rfl⟩ := Prod.mk.inj h
      exact ⟨.refl, fun hb => absurd hb (by simp)⟩
    · next quiescence _ =>
      obtain ⟨hb, rfl⟩ := Prod.mk.inj h
      refine ⟨.call w quiescence, fun hb' i hi => ?_⟩
      rw [← hb] at hb'
      simp only [decide_eq_true_eq, not_exists, not_and] at hb'
      simpa using hb'.1 i (List.mem_range.mpr hi)
  unfold resetState
  split
  · exact .refl
  · split
    · next v h => exact (hsafe _ _ h).1
    · next v h =>
      obtain ⟨hmoves, hidle⟩ := hsafe _ _ h
      obtain ⟨ht, hh, hw, hr⟩ := clearGuards_spec (List.range (c.transactions * 4)) v.env.port
      exact hmoves.trans (Move.reset confirmed generation (hidle rfl) ht hh hw hr).moves

/-! ## Runs -/

/-- Every step of a run is a sequence of moves. -/
theorem step_moves (w : Engine σ) (input : Input σ) : Moves c .idle w .idle (step c w input) := by
  cases input with
  | accept packet now => exact accept_moves packet now w
  | progress now => exact progress_moves now w
  | cancel handle packet now reserved => exact cancel_moves handle packet now reserved w
  | requestQuiesce now => exact requestQuiesce_moves now w
  | takeResponse handle => exact takeResponse_moves handle w
  | release handle => exact release_moves handle w
  | resetState confirmed generation => exact resetState_moves confirmed generation w
  | backend ext actions => exact .quiet (.env w ⟨actions, rfl⟩)
  | credits pool => exact .pool w pool
  | timeline t => exact .quiet (.flags w w.pool _ w.faulted w.quiescing)

theorem run_moves (inputs : List (Input σ)) (w : Engine σ) :
    Moves c .idle w .idle (run c w inputs) :=
  .foldl step_moves inputs w

/-- What holds of a new engine and is kept by every move holds in every state of every run. -/
theorem reachable_invariant {P : Phase → Engine σ → Prop}
    (hinitial : ∀ ext pool state timeline, P .idle (initial ext pool state timeline))
    (hstep : ∀ p w p' w', P p w → Move c p w p' w' → P p' w') (h : Reachable c w) : P .idle w := by
  obtain ⟨ext, pool, state, timeline, inputs, rfl⟩ := h
  exact (run_moves inputs _).invariant hstep (hinitial ext pool state timeline)

/-- A run is continued. -/
theorem Reachable.run (h : Reachable c w) (inputs : List (Input σ)) :
    Reachable c (Engine.run c w inputs) := by
  obtain ⟨ext, pool, state, timeline, before, rfl⟩ := h
  refine ⟨ext, pool, state, timeline, before ++ inputs, ?_⟩
  rw [Engine.run, Engine.run, Engine.run, List.foldl_append]

end Vita.Transaction.Engine
