import Vita.Transaction.Events

/-!
# Confirmed cancellations

A field is cancelled before it is begun, or while it is running: then the backend gave it up and the
engine published the cancelled outcome itself. In both cases nothing of the field is executed later.

Main results:
- `Orderly`: outcomes come in the order of the plan;
- `Withdrawn`: where a cancelled field can be;
- `cancellation_final`: a confirmed cancellation is final.
-/

namespace Vita.Transaction.Engine

open Checked Timing State Codec Trace

variable {σ : Type} {c : Config σ} {p p' : Phase} {w w' : Engine σ}

/-! ## The order of the outcomes -/

/-- A field has its outcome only when it had its turn. The fields of a batch get theirs together. -/
def Orderly (p : Phase) (j : ℕ) (s : Slot) : Prop :=
  ¬s.complete → (p.slot = some j → ¬p.isBatch ∧ ¬p.isClosing) →
    ∀ f, Slot.settled s f → ∃ q < s.step, s.execution.order q = f

theorem Orderly.narrow {j : ℕ} {s s' : Slot} (h : Orderly p j s)
    (hplan : Narrows s.execution s'.execution) (houtcomes : s'.outcomes = s.outcomes)
    (hstep : s'.step = s.step) (hcomplete : s'.complete = s.complete)
    (hopen : p.slot = some j → ¬p.isBatch ∧ ¬p.isClosing) : Orderly p' j s' := by
  intro hlive _ f hf
  rw [hcomplete] at hlive
  rw [Slot.settled, houtcomes] at hf
  rw [hstep, hplan.order]
  exact h hlive hopen f hf

/-- The field whose turn it is gets its outcome. -/
theorem Orderly.record {j field : ℕ} {s s' : Slot} {o : FieldOutcome} (h : Orderly p j s)
    (hplan : Narrows s.execution s'.execution)
    (houtcomes : s'.outcomes = Function.update s.outcomes field o) (hstep : s'.step = s.step + 1)
    (hcomplete : s'.complete = s.complete) (hfield : field = s.execution.order s.step)
    (hopen : p.slot = some j → ¬p.isBatch ∧ ¬p.isClosing) : Orderly p' j s' := by
  intro hlive _ f hf
  rw [hcomplete] at hlive
  rw [hstep, hplan.order]
  by_cases hff : f = field
  · exact ⟨s.step, Nat.lt_succ_self _, by rw [hff, hfield]⟩
  · rw [Slot.settled, houtcomes, Function.update_of_ne hff] at hf
    obtain ⟨q, hq, horder⟩ := h hlive hopen f hf
    exact ⟨q, Nat.lt_succ_of_lt hq, horder⟩

/-- Nothing has an outcome yet. -/
theorem Orderly.none {j : ℕ} {s : Slot} (h : ∀ f, ¬Slot.settled s f) : Orderly p j s :=
  fun _ _ f hf => absurd hf (h f)

theorem Orderly.closing {j : ℕ} {s : Slot} : Orderly (.closing j) j s :=
  fun _ hopen => absurd trivial (hopen rfl).2

theorem Orderly.batch {j k : ℕ} {s : Slot} : Orderly (.batch j k) j s :=
  fun _ hopen => absurd trivial (hopen rfl).1

/-- An outcome keeps the fields in order. -/
theorem Orderly.applied {i field : ℕ} {o : FieldOutcome} (h : Orderly p i (w.slots i))
    (happlied : Applied i field o w w')
    (hfield : field = (w.slots i).execution.order (w.slots i).step)
    (hopen : p.slot = some i → ¬p.isBatch ∧ ¬p.isClosing) : Orderly p' i (w'.slots i) := by
  obtain ⟨hypothetical, credits, revisions, hs⟩ := happlied.slots
  have heq := recordOutcome_eq { w.slots i with hypothetical, credits, revisions } field o
  rw [hs, Function.update_self]
  refine h.record (o := o)
    (recordOutcome_narrows { w.slots i with hypothetical, credits, revisions } field o) ?_ ?_ ?_ hfield hopen
  · rw [heq]
  · rw [heq]
  · rw [heq]

theorem Orderly.rescheduled {i : ℕ} {s : Slot} (h : Orderly p i (w.slots i))
    (hs : Rescheduled (w.slots i) s) (hopen : p.slot = some i → ¬p.isBatch ∧ ¬p.isClosing) :
    Orderly p' i s := by
  refine h.narrow hs.plan ?_ ?_ ?_ hopen <;> rw [hs.slot]

/-- The field whose turn it is has no outcome. -/
theorem Orderly.pending {j : ℕ} {s : Slot} (h : Orderly p j s) (hlive : ¬s.complete)
    (hopen : p.slot = some j → ¬p.isBatch ∧ ¬p.isClosing) (hpermuted : Permuted s.execution)
    (hstep : s.step < s.execution.count) : ¬Slot.settled s (s.execution.order s.step) := by
  intro hsettled
  obtain ⟨q, hq, horder⟩ := h hlive hopen _ hsettled
  have := hpermuted.injective (lt_trans hq hstep) hstep horder
  omega

/-- Every act keeps the outcomes behind the steps that are done. -/
theorem Orderly.act {i : ℕ} (hb : Base c p w) (hbl : AllBlocks c p w)
    (hor : (w.slots i).active → Orderly p i (w.slots i)) (h : Act c i p w p' w')
    (hactive : (w'.slots i).active) : Orderly p' i (w'.slots i) := by
  have hopen : (∀ k, p ≠ .batch i k) → p ≠ .closing i →
      p.slot = some i → ¬p.isBatch ∧ ¬p.isClosing := by
    intro hbatch hclosing hp
    cases p with
    | batch j k =>
      cases hp
      exact absurd rfl (hbatch k)
    | closing j =>
      cases hp
      exact absurd rfl hclosing
    | _ => simp [Phase.isBatch, Phase.isClosing]
  by_cases hbefore : (w.slots i).active
  · have hor := hor hbefore
    cases h with
    | @settle _ t record port htake hfind =>
      obtain ⟨-, hact, hrunning, -⟩ := findRunning_eq_some hfind
      obtain ⟨reported, heq, -⟩ := consume_applied port hfind
      rw [heq]
      exact Orderly.applied (w := w.setPort port) hor (applyOutcome_applied ..)
        ((hb.slot i hact).running hrunning).order (hopen (by simp) (by simp))
    | own | disarm | confirm => exact hor
    | query | drain | unchanged | publish | exhaust => exact .closing
    | commit | apply => exact .batch
    | enter | unscheduled | single | stuck =>
      exact hor.narrow (.refl _) rfl rfl rfl (hopen (by simp) (by simp))
    | start =>
      simp only [dispatchField, emit_slots, setSlot_slots, Function.update_self]
      exact hor.narrow (.refl _) rfl rfl rfl (hopen (by simp) (by simp))
    | revalidate hnot =>
      obtain ⟨-, hslot, hin⟩ := hb.turn rfl
      obtain ⟨s, env, new, heq, -, hr, -⟩ := revalidate_spec (c := c) hnot hslot.count_le
      obtain ⟨-, hpending, -⟩ := hslot.early hin.live hnot (by simp)
      rw [heq]
      dsimp only
      rw [Function.update_self, hr.slot]
      exact .none fun f hf => hf (hpending f)
    | @defer _ now =>
      rw [emit_slots, setSlot_slots, Function.update_self]
      exact hor.rescheduled (reschedule_rescheduled now (w.slots i)) (hopen (by simp) (by simp))
    | schedule =>
      rw [setSlot_slots, Function.update_self]
      exact hor.rescheduled ((reschedule_rescheduled _ _).trans (checkWindow_rescheduled _ _))
        (hopen (by simp) (by simp))
    | boundary =>
      rw [setSlot_slots, Function.update_self]
      exact hor.rescheduled (validateBoundaryState_rescheduled _ _) (hopen (by simp) (by simp))
    | unready =>
      rw [setSlot_slots, Function.update_self]
      exact hor.narrow (withdrawFour_narrows _) rfl rfl rfl (hopen (by simp) (by simp))
    | recheck hready =>
      obtain ⟨-, hslot, hin⟩ := hb.turn rfl
      obtain ⟨s, env, new, heq, -, hr, -⟩ := revalidateBatch_spec (c := c) _ hslot.count_le
      have hstep := (hbl i (live_iff.mpr ⟨hbefore, hin.live⟩)).step hready.batch
        (by simp [Phase.isWalking, Phase.isBatch, Phase.isClosing])
      rw [heq, setSlot_slots]
      dsimp only
      rw [Function.update_self, Function.update_self, withdrawFour, hr.slot]
      refine .none fun f hf => ?_
      obtain ⟨q, hq, -⟩ := hor hin.live (hopen (by simp) (by simp)) f hf
      omega
    | pass hpassed =>
      rw [setSlot_slots, Function.update_self]
      exact hor.record (.refl _) rfl rfl rfl hpassed.order (hopen (by simp) (by simp))
    | @block _ field _ =>
      rcases blockField_cases i field w with heq | heq <;> rw [heq]
      · exact hor
      · dsimp only
        rw [Function.update_self]
        exact hor.narrow (blockedSlot_narrowed _ _).plan rfl rfl rfl (hopen (by simp) (by simp))
    | simulate reported _ hfield =>
      exact hor.applied (applyOutcome_applied ..) hfield (hopen (by simp) (by simp))
    | finish now =>
      obtain ⟨s, env, -, -, heq⟩ := finish_spec (c := c) i now w
      rw [heq]
      dsimp only
      rw [Function.update_self]
      exact fun hlive => absurd rfl hlive
    | scratch hidle | reserve hidle | drop hidle | activate _ hidle =>
      rw [hidle] at hbefore
      cases hbefore
    | release h =>
      obtain ⟨-, -, rfl⟩ := release_spec h
      simp at hactive
  · obtain ⟨now, hnow⟩ := h.activated hb (by simpa using hbefore) hactive
    obtain ⟨credits, hs⟩ := hnow.slot
    rw [hs]
    refine .none fun f hf => hf ?_
    dsimp only
    rw [hnow.fresh.outcomes]

/-! ## Cancelled fields -/

/-- A cancelled field has an outcome without an effect; or it is running and was completed as cancelled;
or it is going to be passed over. -/
structure Withdrawn (port : Port) (j : ℕ) (s : Slot) (f : ℕ) : Prop where
  lt : f < s.execution.count
  outcome : (s.outcomes f).status ≠ .executed
  state : Slot.settled s f ∨ if s.running ∧ s.runningField = f then
      ∃ o, Port.Claimed port (capability j s f) (some o) ∧ o.status = .cancelled
    else s.cancelled f

/-- The confirmed cancellations of a transaction. -/
structure Confirms (p : Phase) (log : List Event) (port : Port) (j : ℕ) (s : Slot) : Prop where
  orderly : Orderly p j s
  withdrawn : ∀ id, .confirmed s.sequence id ∈ log → s.action = 2 ∧ (p.slot = some j → ¬p.isBatch) ∧
    ∃ f, (s.execution.fields f).id = id ∧ Withdrawn port j s f

/-- A field that is not running is settled or passed over. -/
theorem Withdrawn.waiting {port : Port} {j f : ℕ} {s : Slot} (h : Withdrawn port j s f)
    (hidle : ¬(s.running ∧ s.runningField = f)) : Slot.settled s f ∨ s.cancelled f := by
  have hstate := h.state
  rwa [if_neg hidle] at hstate

/-- The field whose turn it is in a batch or alone is not a cancelled one. -/
theorem Confirms.not_withdrawn {j f : ℕ} {s : Slot} {port : Port} {log : List Event}
    (h : Confirms p log port j s) (hlive : ¬s.complete)
    (hopen : p.slot = some j → ¬p.isBatch ∧ ¬p.isClosing) (hpermuted : Permuted s.execution)
    (hstep : s.step < s.execution.count) (hfield : f = s.execution.order s.step)
    (hidle : ¬s.running) (hcancelled : ¬s.cancelled f) : ¬Withdrawn port j s f := by
  intro hw
  rcases hw.waiting fun hr => hidle hr.1 with hsettled | hc
  · rw [hfield] at hsettled
    exact h.orderly.pending hlive hopen hpermuted hstep hsettled
  · exact hcancelled hc

/-- A batch with a cancelled field is not committed. -/
theorem Confirms.not_ready {j : ℕ} {s : Slot} {log : List Event} {port : Port} {f : ℕ}
    (h : Confirms p log port j s) (hbl : Blocks c p log j s) (hlive : ¬s.complete) (hidle : ¬s.running)
    (hphase : p.slot = some j → ¬p.isWalking ∧ ¬p.isBatch ∧ ¬p.isClosing) (hbatch : s.isBatch c)
    (hcancelled : ∀ f < 4, ¬s.cancelled f) : ¬Withdrawn port j s f := by
  intro hw
  rcases hw.waiting fun hr => hidle hr.1 with hsettled | hc
  · obtain ⟨q, hq, -⟩ := h.orderly hlive (fun hp => (hphase hp).2) f hsettled
    rw [hbl.step hbatch hphase] at hq
    exact absurd hq (Nat.not_lt_zero q)
  · have hlt := hw.lt
    rw [(isBatch_count hbatch).1] at hlt
    exact hcancelled f hlt hc

/-- A batch is committed only when it is ready. -/
theorem Act.batch_cases {i k : ℕ} (h : Act c i p w (.batch i k) w') :
    (∃ k', p = .batch i k') ∨ ∃ now, p = .checked i now ∧ Ready c w i := by
  cases h with
  | @commit _ now _ hready => exact .inr ⟨now, rfl, hready⟩
  | apply => exact .inl ⟨_, rfl⟩

/-- The same field is running before and after. -/
theorem running_of_current {i f : ℕ} (hb : Base c p w) (hb' : Base c p' w') (hcur : current w' = current w)
    (hactive : (w.slots i).active) (hrunning : (w.slots i).running) (hfield : (w.slots i).runningField = f) :
    (w'.slots i).running ∧ (w'.slots i).runningField = f := by
  have hlt := runningField_lt hb hactive hrunning
  rw [current_of_running hb hactive hrunning] at hcur
  obtain ⟨j, howner, hrunning', hcap⟩ := current_eq_some.mp hcur
  have hlt' := runningField_lt hb' (hb'.owner j howner) hrunning'
  have hindex := congrArg AsyncResult.index hcap
  simp only [capability] at hindex
  obtain rfl : j = i := by omega
  exact ⟨hrunning', by omega⟩

/-- What holds of a field that was claimed with a cancelled outcome. -/
theorem recorded_cancelled {i field : ℕ} {o : FieldOutcome} (h : o.status = .cancelled) :
    (recordedOutcome c w i field o).status ≠ .executed := by
  rcases settledOutcome_status c w.quiescing (w.slots i) ((w.slots i).execution.fields field) o with
    hstatus | ⟨hstatus, -⟩
  · rw [recordedOutcome, hstatus]
    decide
  · rw [recordedOutcome, hstatus, h]
    decide

/-- A running field that is cancelled was claimed with a cancelled outcome. -/
theorem Confirms.claimed {i : ℕ} (h : Confirms p w.log w.env.port i (w.slots i)) (hb : Base c p w)
    (hactive : (w.slots i).active) (hrunning : (w.slots i).running)
    (hw : Withdrawn w.env.port i (w.slots i) (w.slots i).runningField) :
    ∃ o, Port.Claimed w.env.port (capability i (w.slots i) (w.slots i).runningField) (some o) ∧
      o.status = .cancelled := by
  have hr := (hb.slot i hactive).running hrunning
  have hstate := hw.state
  rw [if_pos ⟨hrunning, rfl⟩] at hstate
  refine hstate.resolve_left fun hsettled => ?_
  rw [hr.order] at hsettled
  exact h.orderly.pending hr.live (fun hp => absurd hp hr.phase) hr.permuted hr.step hsettled

/-- The outcome of a cancelled field stays without an effect. -/
theorem Confirms.outcome {i f : ℕ} {o : FieldOutcome} (h : Confirms p w.log w.env.port i (w.slots i))
    (hports : Ports c w) (hb : Base c p w) (haction : (w.slots i).action = 2)
    (hbatch : p.slot = some i → ¬p.isBatch) (hw : Withdrawn w.env.port i (w.slots i) f)
    (hbecomes : Becomes c i w p f o) :
    o.status ≠ .executed ∧ (Slot.settled (w.slots i) f → o.status ≠ .pending) := by
  cases hbecomes with
  | same => exact ⟨hw.outcome, fun hs => hs⟩
  | source hsource =>
    refine ⟨?_, fun _ => hsource.not_pending⟩
    cases hsource with
    | settled hactive hrunning hclaimed =>
      -- what was claimed for a cancelled field is the cancelled outcome
      obtain ⟨o', hclaimed', hstatus⟩ := h.claimed hb hactive hrunning hw
      rw [hports.port.claimed_unique hclaimed hclaimed']
      exact recorded_cancelled hstatus
    | batch => exact absurd trivial (hbatch rfl)
    | simulated _ _ _ _ hsim => omega
  | passed _ hstatus =>
    rcases hstatus with hstatus | hstatus <;> rw [hstatus] <;> exact ⟨by decide, fun _ => by decide⟩

/-- Where a cancelled field is after a move for its transaction. -/
theorem Confirms.state {i f : ℕ} (h : Confirms p w.log w.env.port i (w.slots i)) (hports : Ports c w)
    (hb : Base c p w) (hact : Act c i p w p' w') (hactive : (w.slots i).active)
    (hactive' : (w'.slots i).active) (haction : (w.slots i).action = 2)
    (hbatch : p.slot = some i → ¬p.isBatch) (hw : Withdrawn w.env.port i (w.slots i) f) :
    Slot.settled (w'.slots i) f ∨ if (w'.slots i).running ∧ (w'.slots i).runningField = f then
        ∃ o, Port.Claimed w'.env.port (capability i (w'.slots i) f) (some o) ∧ o.status = .cancelled
      else (w'.slots i).cancelled f := by
  have hb' := hb.act hact
  have htenure := hact.tenure hb hactive hactive'
  have hsettled : Slot.settled (w.slots i) f → Slot.settled (w'.slots i) f :=
    (h.outcome hports hb haction hbatch hw (hact.outcome_cases hports hb hactive hactive' f)).2
  have hcap : capability i (w'.slots i) f = capability i (w.slots i) f := by
    rw [capability, htenure.tokens]
    rfl
  rcases hact.current_cases hports hb with ⟨hcur, hclaimed⟩ | ⟨-, now, field, rfl, rfl, hbegun, rfl⟩ |
    ⟨rfl, rfl, hrun, hrunning, o, port, -, rfl⟩
  · by_cases hrun : (w.slots i).running ∧ (w.slots i).runningField = f
    · -- the field keeps running
      obtain ⟨hrunning, rfl⟩ := hrun
      obtain ⟨o, hc, hstatus⟩ := h.claimed hb hactive hrunning hw
      rw [if_pos (running_of_current hb hb' hcur hactive hrunning rfl), hcap]
      exact .inr ⟨o, hclaimed _ _ (current_of_running hb hactive hrunning) hc, hstatus⟩
    · have hnot : ¬((w'.slots i).running ∧ (w'.slots i).runningField = f) := fun hrun' =>
        hrun (running_of_current hb' hb hcur.symm hactive' hrun'.1 hrun'.2)
      rw [if_neg hnot, htenure.cancelled]
      exact (hw.waiting hrun).imp_left hsettled
  · -- another field is begun
    obtain ⟨-, hslot, hin⟩ := hb.turn rfl
    have hne : field ≠ f := by
      rintro rfl
      exact h.not_withdrawn hin.live (by simp [Phase.isBatch, Phase.isClosing])
        (hslot.sound _ hbegun.eligible).2 hbegun.step hbegun.order hin.idle hbegun.cancelled hw
    have hnot : ¬(((dispatchField c now i field w).slots i).running ∧
        ((dispatchField c now i field w).slots i).runningField = f) := by
      simp [dispatchField, hne]
    rw [if_neg hnot, htenure.cancelled]
    exact (hw.waiting fun hr => hin.idle hr.1).imp_left hsettled
  · -- the running field gets its outcome
    obtain ⟨hypothetical, credits, revisions, hs⟩ := (applyOutcome_applied (c := c) true i
      (w.slots i).runningField (o.getD (unknownOutcome ((w.slots i).execution.fields
        (w.slots i).runningField).id)) (w.setPort port)).slots
    have hs' := congrFun hs i
    rw [Function.update_self, recordOutcome_eq] at hs'
    by_cases hf : f = (w.slots i).runningField
    · left
      rw [Slot.settled, hs', hf]
      dsimp only
      rw [Function.update_self]
      exact settledOutcome_ne_pending _ _ _ _ _
    · have hnot : ¬((w.slots i).running ∧ (w.slots i).runningField = f) := fun hr => hf hr.2.symm
      have hidle : ((applyOutcome c true i (w.slots i).runningField (o.getD (unknownOutcome
          ((w.slots i).execution.fields (w.slots i).runningField).id)) (w.setPort port)).slots i).running =
          false := by
        rw [hs']
      rw [if_neg (by rw [hidle]; simp), htenure.cancelled]
      exact (hw.waiting hnot).imp_left hsettled

/-- A transaction keeps the fields of its request. -/
theorem Base.fields_eq {i f : ℕ} (hb : Base c p w) (hb' : Base c p' w') (hactive : (w.slots i).active)
    (hactive' : (w'.slots i).active) (hrequest : (w'.slots i).request = (w.slots i).request)
    (hf : f < (w.slots i).execution.count) :
    f < (w'.slots i).execution.count ∧
      ((w'.slots i).execution.fields f).id = ((w.slots i).execution.fields f).id := by
  have hs := hb.slot i hactive
  have hs' := hb'.slot i hactive'
  have hlt : f < (w'.slots i).execution.count := by
    rw [hs'.count, hrequest, ← hs.count]
    exact hf
  exact ⟨hlt, by rw [hs'.id f hlt, hrequest, hs.id f hf]⟩

/-- Every act keeps what was confirmed to be cancelled. -/
theorem Confirms.act {i : ℕ} (hports : Ports c w) (hb : Base c p w) (hbl : AllBlocks c p w)
    (h : (w.slots i).active → Confirms p w.log w.env.port i (w.slots i)) (hact : Act c i p w p' w')
    (hactive' : (w'.slots i).active) : Confirms p' w'.log w'.env.port i (w'.slots i) := by
  refine ⟨Orderly.act hb hbl (fun hactive => (h hactive).orderly) hact hactive', fun id hmem => ?_⟩
  by_cases hactive : (w.slots i).active
  · have h := h hactive
    have hseq := (hact.frame hb).sequence_eq hactive hactive'
    rcases hact.events hports hb with ⟨rfl, rfl, f, id', hconfirm, rfl⟩ | ⟨new, hlog, hnew⟩
    · rcases List.mem_append.mp hmem with hmem | hmem
      · exact h.withdrawn id hmem
      · -- the confirmation itself
        obtain rfl : id = id' := (Event.confirmed.inj (List.mem_singleton.mp hmem)).2
        refine ⟨hconfirm.action, by simp [Phase.slot], f, hconfirm.id, hconfirm.lt, ?_, .inr ?_⟩
        · rw [emit_slots, hconfirm.pending]
          decide
        · have hstate := hconfirm.state
          rw [emit_slots]
          split
          · next hrun =>
            rw [if_pos hrun] at hstate
            exact ⟨_, .succeeded hstate.generation hstate.state hstate.payload, hstate.outcome⟩
          · next hrun =>
            rw [if_neg hrun] at hstate
            exact hstate
    · have hold : .confirmed (w.slots i).sequence id ∈ w.log := by
        rw [hlog, hseq] at hmem
        rcases List.mem_append.mp hmem with hmem | hmem
        · exact hmem
        · exact absurd (hnew _ hmem) Emits.not_confirmed
      obtain ⟨haction, hbatch, f, hid, hw⟩ := h.withdrawn id hold
      have hb' := hb.act hact
      have hrequest := (hact.tenure hb hactive hactive').request
      obtain ⟨hlt, hid'⟩ := hb.fields_eq hb' hactive hactive' hrequest hw.lt
      refine ⟨by rw [Slot.action, hrequest]; exact haction, fun hp => ?_, f, hid'.trans hid, hlt, ?_,
        h.state hports hb hact hactive hactive' haction hbatch hw⟩
      · -- no batch is committed any more
        cases p' with
        | batch j k =>
          cases hp
          rcases hact.batch_cases with ⟨k', rfl⟩ | ⟨now, rfl, hready⟩
          · exact absurd trivial (hbatch rfl)
          · obtain ⟨-, -, hin⟩ := hb.turn rfl
            exact absurd hw (h.not_ready (hbl i (live_iff.mpr ⟨hactive, hin.live⟩)) hin.live hin.idle
              (by simp [Phase.isWalking, Phase.isBatch, Phase.isClosing]) hready.batch hready.cancelled)
        | _ => simp [Phase.isBatch]
      · exact (h.outcome hports hb haction hbatch hw
          (hact.outcome_cases hports hb hactive hactive' f)).1
  · -- nothing of a new transaction is in the log
    obtain ⟨now, hnow⟩ := hact.activated hb (by simpa using hactive) hactive'
    obtain ⟨credits, hs⟩ := hnow.slot
    rw [hs, hnow.log] at hmem
    rcases List.mem_append.mp hmem with hmem | hmem
    · exact absurd rfl (hb.log_lt _ hmem).ne
    · cases List.mem_singleton.mp hmem

/-- The cancelled fields of another transaction. -/
theorem Confirms.other {i j : ℕ} (h : Confirms p w.log w.env.port j (w.slots j)) (hports : Ports c w)
    (hb : Base c p w) (hact : Act c i p w p' w') (hj : j ≠ i) (hactive : (w.slots j).active) :
    Confirms p' w'.log w'.env.port j (w.slots j) := by
  have hframe := hact.frame hb
  obtain ⟨new, hlog, -⟩ := hframe.log
  refine ⟨fun hlive _ => h.orderly hlive fun hp => absurd (hframe.before j hp) hj, fun id hmem => ?_⟩
  have hold : .confirmed (w.slots j).sequence id ∈ w.log := by
    rw [hlog] at hmem
    exact (List.mem_append.mp hmem).resolve_right fun hm => hframe.other_tx hb hlog hj hactive _ hm rfl
  obtain ⟨haction, -, f, hid, hw⟩ := h.withdrawn id hold
  refine ⟨haction, fun hp => absurd (hframe.after j hp) hj, f, hid, hw.lt, hw.outcome, ?_⟩
  refine hw.state.imp_right fun hstate => ?_
  split at hstate
  · next hrun =>
    rw [if_pos hrun]
    obtain ⟨hrunning, rfl⟩ := hrun
    obtain ⟨o, hc, hstatus⟩ := hstate
    have hcur := current_of_running hb hactive hrunning
    refine ⟨o, ?_, hstatus⟩
    rcases hact.current_cases hports hb with ⟨-, hclaimed⟩ | ⟨hnone, -⟩ | ⟨-, -, hsettles⟩
    · exact hclaimed _ _ hcur hc
    · rw [hnone] at hcur
      cases hcur
    · -- at most one field is running
      have hown := ((hb.slot j hactive).running hrunning).owner
      have hown' := ((hb.slot i hsettles.active).running hsettles.running).owner
      exact absurd (Option.some.inj (hown.symm.trans hown')) hj
  · next hrun =>
    rw [if_neg hrun]
    exact hstate

/-- So does a move of no slot. -/
theorem Confirms.rest {j : ℕ} (h : Confirms p w.log w.env.port j (w.slots j)) (hb : Base c p w)
    (hrest : Rest p w w') (hactive : (w.slots j).active) :
    Confirms p w'.log w'.env.port j (w'.slots j) := by
  have hs := hrest.still.slots j
  have hmarks := hrest.still.cancelled j
  rw [hs, hrest.still.log]
  refine ⟨h.orderly, fun id hmem => ?_⟩
  obtain ⟨haction, hbatch, f, hid, hw⟩ := h.withdrawn id hmem
  refine ⟨haction, hbatch, f, hid, hw.lt, hw.outcome, hw.state.imp_right fun hstate => ?_⟩
  split at hstate
  · next hrun =>
    rw [if_pos hrun]
    obtain ⟨hrunning, rfl⟩ := hrun
    obtain ⟨o, hc, hstatus⟩ := hstate
    exact ⟨o, hrest.port.claimed _ (current_of_running hb hactive hrunning) _ hc, hstatus⟩
  · next hrun =>
    rw [if_neg hrun]
    exact hmarks f hstate

/-! ## The log after a cancellation -/

/-- An event that would undo the cancellation of a field. -/
def Event.revives (tx : ℕ) (id : FieldId) : Event → Prop
  | .dispatched d => d.tx = tx ∧ id ∈ d.fields
  | .recorded tx' _ o => tx' = tx ∧ o.id = id ∧ o.status = .executed
  | .stored tx' k v => tx' = tx ∧ stateField k = id ∧ v = .known
  | _ => False

/-- Confirmed cancellations are final. -/
def Final (log : List Event) : Prop :=
  Traced (fun pre e => ∀ tx id, .confirmed tx id ∈ pre → ¬Event.revives tx id e) log

/-- An outcome of a cancelled field is not an execution. -/
theorem Confirms.source {i f field : ℕ} {o : FieldOutcome} (h : Confirms p w.log w.env.port i (w.slots i))
    (hports : Ports c w) (hb : Base c p w) (haction : (w.slots i).action = 2)
    (hbatch : p.slot = some i → ¬p.isBatch) (hw : Withdrawn w.env.port i (w.slots i) f)
    (hsource : Source c i w p field o)
    (hid : ((w.slots i).execution.fields f).id = ((w.slots i).execution.fields field).id) :
    o.status ≠ .executed := by
  obtain ⟨hactive, hlt⟩ := hsource.lt hb
  obtain rfl := (hb.slot i hactive).id_injective hw.lt hlt hid
  exact (h.outcome hports hb haction hbatch hw (.source hsource)).1

/-- No event dispatches, executes or changes what was confirmed to be cancelled. -/
theorem Emits.not_revives {i tx : ℕ} {id : FieldId} {e : Event} (hports : Ports c w) (hb : Base c p w)
    (hbl : AllBlocks c p w) (h : (w.slots i).active → Confirms p w.log w.env.port i (w.slots i))
    (he : Emits c i w p e) (hmem : .confirmed tx id ∈ w.log) : ¬Event.revives tx id e := by
  cases he with
  | admitted | disarmed | deferred | blocked | disordered | published | completed => exact fun h => h
  | dispatched hsends =>
    rintro ⟨rfl, hfield⟩
    obtain ⟨hactive, -, -⟩ := hsends.owner hb
    have h := h hactive
    rw [hsends.tx] at hmem
    obtain ⟨-, -, f, hid, hw⟩ := h.withdrawn id hmem
    have hs := hb.slot i hactive
    cases hsends with
    | field hstart hbegun =>
      obtain ⟨-, -, hin⟩ := hb.turn rfl
      obtain ⟨hlt, hpermuted⟩ := hs.sound _ hbegun.eligible
      obtain rfl := hs.id_injective hw.lt hlt (hid.trans (List.mem_singleton.mp hfield))
      exact h.not_withdrawn hin.live (by simp [Phase.isBatch, Phase.isClosing]) hpermuted hbegun.step
        hbegun.order hin.idle hbegun.cancelled hw
    | batch hready =>
      obtain ⟨-, -, hin⟩ := hb.turn rfl
      exact h.not_ready (hbl i (live_iff.mpr ⟨hactive, hin.live⟩)) hin.live hin.idle
        (by simp [Phase.isWalking, Phase.isBatch, Phase.isClosing]) hready.batch hready.cancelled hw
  | told hsource htold =>
    have h := h (hsource.lt hb).1
    cases htold with
    | stored hk hv =>
      rintro ⟨rfl, rfl, hknown⟩
      obtain ⟨haction, hbatch, f, hid, hw⟩ := h.withdrawn _ hmem
      exact h.source hports hb haction hbatch hw hsource (hid.trans (fieldIndex_eq_some.mp hk).symm)
        (hv hknown)
    | effect => exact fun h => h
  | recorded hsource =>
    have h := h (hsource.lt hb).1
    rintro ⟨rfl, rfl, hexecuted⟩
    obtain ⟨haction, hbatch, f, hid, hw⟩ := h.withdrawn _ hmem
    exact h.source hports hb haction hbatch hw hsource (hid.trans hsource.id) hexecuted

/-- Every act keeps confirmed cancellations final. -/
theorem Final.act {i : ℕ} (hfinal : Final w.log) (hports : Ports c w) (hb : Base c p w)
    (hbl : AllBlocks c p w) (h : (w.slots i).active → Confirms p w.log w.env.port i (w.slots i))
    (hact : Act c i p w p' w') : Final w'.log := by
  rcases hact.events hports hb with ⟨-, -, f, id, -, rfl⟩ | ⟨new, hlog, hnew⟩
  · exact traced_concat.mpr ⟨hfinal, fun _ _ _ h => h⟩
  · rw [hlog]
    refine hfinal.extend fun pre e post hsplit tx id hmem => ?_
    have hmem : .confirmed tx id ∈ w.log := by
      refine (List.mem_append.mp hmem).resolve_right fun hm => ?_
      exact Emits.not_confirmed (hnew _ (by rw [hsplit]; exact List.mem_append_left _ hm))
    exact Emits.not_revives hports hb hbl h (hnew e (by rw [hsplit]; simp)) hmem

/-- What holds of the cancellations of a run. -/
structure Cancels (c : Config σ) (p : Phase) (w : Engine σ) : Prop where
  blocks : AllBlocks c p w
  confirms : ∀ j, (w.slots j).active → Confirms p w.log w.env.port j (w.slots j)
  final : Final w.log

/-- Between the turns of any run the confirmed cancellations stand. -/
theorem cancels_of_reachable (h : Reachable c w) : Base c .idle w ∧ Cancels c .idle w := by
  suffices hall : Base c .idle w ∧ Ports c w ∧ Cancels c .idle w from ⟨hall.1, hall.2.2⟩
  refine ports_invariant (fun ext pool state timeline => ?_)
    (fun p w i p' w' hb hports hc hact => ?_) (fun p w w' hb hports hc hrest => ?_) h
  · refine ⟨allBlocks_initial ext pool state timeline, fun j hj => ?_, traced_nil _⟩
    simp [initial] at hj
  · refine ⟨hc.blocks.act hb hact, fun j hj => ?_, hc.final.act hports hb hc.blocks (hc.confirms i) hact⟩
    by_cases hji : j = i
    · subst hji
      exact Confirms.act hports hb hc.blocks (hc.confirms j) hact hj
    · rw [(hact.frame hb).slots j hji] at hj ⊢
      exact (hc.confirms j hj).other hports hb hact hji hj
  · refine ⟨hc.blocks.still hrest.still, fun j hj => ?_, by rw [hrest.still.log]; exact hc.final⟩
    have hactive : (w.slots j).active := by
      rw [hrest.still.slots j] at hj
      exact hj
    exact (hc.confirms j hactive).rest hb hrest hactive

/-! ## The calls -/

/-- The fields that a cancellation reports as cancelled are confirmed. -/
def Confirmed (tx : ℕ) (p : CancelProgress σ) : Prop :=
  ∀ k, p.cancelled k → .confirmed tx (stateField k) ∈ p.engine.log

/-- A field is cancelled with a confirmation, or not at all. -/
theorem cancelField_cases (i : ℕ) (p : CancelProgress σ) (k : Fin 8) :
    (cancelField c i p k).cancelled = p.cancelled ∨
      (cancelField c i p k).cancelled = Function.update p.cancelled k true ∧
        ∃ v : Engine σ, (cancelField c i p k).engine =
          v.emit (.confirmed (p.engine.slots i).sequence (stateField k)) := by
  unfold cancelField
  dsimp only
  split
  · exact .inl rfl
  · split
    · split
      · split
        · exact .inr ⟨rfl, _, rfl⟩
        · exact .inl rfl
        · exact .inl rfl
      · exact .inr ⟨rfl, _, rfl⟩
    · exact .inl rfl

/-- A field that is reported as cancelled was confirmed. -/
theorem cancelField_confirmed {i : ℕ} {p : CancelProgress σ} (k : Fin 8) (hb : Base c .idle p.engine)
    (hactive : (p.engine.slots i).active) (haction : (p.engine.slots i).action = 2)
    (h : Confirmed (p.engine.slots i).sequence p) :
    Confirmed (p.engine.slots i).sequence (cancelField c i p k) := by
  obtain ⟨-, new, hnew⟩ := (cancelField_moves (c := c) p k hactive haction).1.log_extends hb
  have hkept : ∀ k', p.cancelled k' → .confirmed (p.engine.slots i).sequence (stateField k') ∈
      (cancelField c i p k).engine.log := by
    intro k' hk'
    rw [hnew]
    exact List.mem_append_left _ (h k' hk')
  intro k' hk'
  rcases cancelField_cases (c := c) i p k with heq | ⟨heq, v, hv⟩
  · rw [heq] at hk'
    exact hkept k' hk'
  · rw [heq] at hk'
    by_cases hkk : k' = k
    · rw [hkk, hv]
      simp
    · rw [Function.update_of_ne hkk] at hk'
      exact hkept k' hk'

/-- Every cancellation that is confirmed stands in the log. -/
theorem cancelFields_confirmed {i : ℕ} (l : List (Fin 8)) {p : CancelProgress σ}
    (hb : Base c .idle p.engine) (hactive : (p.engine.slots i).active)
    (haction : (p.engine.slots i).action = 2) (h : Confirmed (p.engine.slots i).sequence p) :
    Confirmed (p.engine.slots i).sequence (l.foldl (cancelField c i) p) := by
  induction l generalizing p with
  | nil => exact h
  | cons k l ih =>
    obtain ⟨hmoves, hsame⟩ := cancelField_moves (c := c) p k hactive haction
    have hstep := cancelField_confirmed (c := c) k hb hactive haction h
    rw [← (hsame i).sequence] at hstep ⊢
    refine ih (hmoves.log_extends hb).1 ?_ ?_ hstep
    · rw [(hsame i).active]
      exact hactive
    · rw [Slot.action, (hsame i).request]
      exact haction

/-- A cancelled field of a result is confirmed. -/
theorem cancel_confirmed {handle : Handle} {packet : PacketView} {now : OperationContext}
    {reserved : AdmissionBundle} {result : CancellationResult} (hb : Base c .idle w)
    (h : cancel c handle packet now reserved w = (.ok result, w')) {k : Fin 8} (hk : result.cancelled k) :
    .confirmed (w.slots handle.slot).sequence (stateField k) ∈ w'.log := by
  unfold cancel at h
  split at h
  · cases (Prod.mk.inj h).1
  · next cam selected hok =>
    obtain ⟨hactive, haction⟩ := cancellable_eq_ok hok
    obtain ⟨pool, hpool⟩ := cancelCredits_spec cam reserved w
    split at h
    · cases (Prod.mk.inj h).1
    · next credits v hcredits =>
      rw [hcredits] at hpool
      obtain rfl : v = { w with pool } := hpool
      dsimp only at h
      split at h
      · -- nothing is cancelled at the wrong time
        obtain ⟨hresult, -⟩ := Prod.mk.inj h
        obtain rfl := Except.ok.inj hresult
        cases hk
      · obtain ⟨hresult, rfl⟩ := Prod.mk.inj h
        obtain rfl := Except.ok.inj hresult
        obtain ⟨hb₀, -⟩ := (Moves.pool (c := c) (p := .idle) w pool).log_extends hb
        obtain ⟨hb₁, -⟩ := (scan_moves (c := c) { w with pool }).log_extends hb₀
        have hsame := scan_sameTx (c := c) ({ w with pool } : Engine σ) handle.slot
        have hactive₁ : ((scan c { w with pool }).slots handle.slot).active := by
          rw [hsame.active]
          exact hactive
        have haction₁ : ((scan c { w with pool }).slots handle.slot).action = 2 := by
          rw [Slot.action, hsame.request]
          exact haction
        have hconfirmed := cancelFields_confirmed ((List.finRange 8).filter selected)
          (p := { engine := scan c { w with pool } }) hb₁ hactive₁ haction₁ (fun _ h => by cases h)
        have hmoves := cancelFields_moves (c := c) (i := handle.slot)
          ((List.finRange 8).filter selected) { engine := scan c { w with pool } } hactive₁ haction₁
        obtain ⟨-, new, hnew⟩ := (scan_moves _).log_extends (hmoves.log_extends hb₁).1
        rw [hnew]
        refine List.mem_append_left _ ?_
        have hseq : ((scan c { w with pool }).slots handle.slot).sequence =
            (w.slots handle.slot).sequence := hsame.sequence
        rw [← hseq]
        exact hconfirmed k hk

/-- A confirmed cancellation is final: the field is not dispatched any more, gets no executed outcome, and
its state is not made known by the transaction. -/
theorem cancellation_final (h : Reachable c w) {handle : Handle} {packet : PacketView}
    {now : OperationContext} {reserved : AdmissionBundle} {result : CancellationResult}
    (hcancel : cancel c handle packet now reserved w = (.ok result, w')) {k : Fin 8}
    (hk : result.cancelled k) (inputs : List (Input σ)) :
    (∃ new, (run c w' inputs).log = w'.log ++ new ∧
      ∀ e ∈ new, ¬Event.revives (w.slots handle.slot).sequence (stateField k) e) ∧
    ∀ j, ((run c w' inputs).slots j).active →
      ((run c w' inputs).slots j).sequence = (w.slots handle.slot).sequence →
      ∀ f < ((run c w' inputs).slots j).execution.count,
        (((run c w' inputs).slots j).execution.fields f).id = stateField k →
        (((run c w' inputs).slots j).outcomes f).status ≠ .executed := by
  obtain ⟨hb, -⟩ := cancels_of_reachable h
  have hconfirmed := cancel_confirmed hb hcancel hk
  have hw' : Reachable c w' := by
    have hrun := h.run [.cancel handle packet now reserved]
    rwa [run, List.foldl_cons, List.foldl_nil, step, hcancel] at hrun
  obtain ⟨hb', -⟩ := cancels_of_reachable hw'
  obtain ⟨-, new, hnew⟩ := (run_moves (c := c) inputs w').log_extends hb'
  obtain ⟨hb₂, hc₂⟩ := cancels_of_reachable (hw'.run inputs)
  refine ⟨⟨new, hnew, fun e he => ?_⟩, fun j hactive hseq f hf hid => ?_⟩
  · obtain ⟨pre, post, rfl⟩ := List.append_of_mem he
    refine hc₂.final (w'.log ++ pre) e post ?_ _ _ (List.mem_append_left _ hconfirmed)
    rw [hnew, List.append_assoc]
  · have hmem : .confirmed ((run c w' inputs).slots j).sequence (stateField k) ∈
        (run c w' inputs).log := by
      rw [hseq, hnew]
      exact List.mem_append_left _ hconfirmed
    obtain ⟨-, -, f', hid', hw⟩ := (hc₂.confirms j hactive).withdrawn _ hmem
    obtain rfl := (hb₂.slot j hactive).id_injective hf hw.lt (hid.trans hid'.symm)
    exact hw.outcome

namespace Bench

/-- A device that gives up what it has begun. -/
def yielding : Config Unit :=
  { config with backend := { config.backend with
      disarm := some fun _ s => { value := .cancelled, next := s } } }

/-- One field is running. -/
def begun : Engine Unit :=
  run yielding start
    [.accept (command 1 immediate {} [(Field.referencePoint, 1)]) (now 1 []), .progress (now 2 [])]

def first : Handle := { slot := 0, generation := 1 }

/-- The running field is cancelled. -/
def withdrawal : Result CancellationResult × Engine Unit :=
  cancel yielding first (cancellation 1 [Field.referencePoint]) (now 3 []) none begun

/-- The device completes the field all the same. -/
def late : List (Input Unit) := [execute 0 Field.referencePoint 1, .progress (now 4 [])]

theorem withdrawal_cancelled : withdrawal.1.toOption.map (fun r => r.cancelled 0) = some true := by
  decide +kernel

end Bench

open Bench in
/-- A field that is cancelled while it is running, and executed later by its device. -/
theorem cancellation_final_running : ∃ result w', withdrawal = (.ok result, w') ∧ result.cancelled 0 ∧
    ∃ new, (run yielding w' late).log = w'.log ++ new ∧
      ∀ e ∈ new, ¬Event.revives (begun.slots first.slot).sequence (stateField 0) e := by
  have hreachable : Reachable yielding begun := ⟨(), _, {}, none, _, rfl⟩
  have hcancelled := withdrawal_cancelled
  obtain ⟨⟨r, w'⟩, hcancel⟩ : ∃ x, withdrawal = x := ⟨_, rfl⟩
  rw [hcancel] at hcancelled
  cases r with
  | error e => cases hcancelled
  | ok result =>
    have hk : result.cancelled 0 = true := Option.some.inj hcancelled
    refine ⟨result, w', hcancel, hk, ?_⟩
    unfold withdrawal at hcancel
    exact (cancellation_final hreachable hcancel hk late).1

end Vita.Transaction.Engine
