import Vita.Transaction.Calls

/-!
# The engine's invariant

What holds between the moves of every run, whatever the backend and the callers do: the transactions
are told apart by their sequence numbers, the plan of a transaction belongs to its request, a running
field belongs to the owner of the lane, and a transaction that was not validated again has done
nothing yet.

Main lemmas:
- `ActFrame`: what a move for one slot leaves alone;
- `Base`: the invariant, with one statement per slot (`SlotInv`);
- `base_invariant`: the rule by which every further invariant is shown.
-/

namespace Vita.Transaction

open Checked Timing State Codec

/-! ## Events and phases -/

/-- The transaction of an event. -/
def Event.tx : Event → ℕ
  | .admitted tx _ _ | .disarmed tx | .deferred tx | .blocked tx _ | .disordered tx | .recorded tx _ _
  | .stored tx _ _ | .effect tx _ | .confirmed tx _ | .completed tx => tx
  | .dispatched d => d.tx

/-- What may happen to a transaction before its first turn. -/
def Event.isEarly : Event → Prop
  | .admitted .. | .confirmed .. => True
  | _ => False

namespace Engine

/-- The slot whose turn it is. -/
def Phase.slot : Phase → Option ℕ
  | .idle => none
  | .planning i _ | .checked i _ | .walking i _ | .batch i _ | .closing i => some i

/-- The transaction was validated in this turn or before. -/
def Phase.isValid : Phase → Prop
  | .checked .. | .walking .. | .batch .. => True
  | _ => False

def Phase.isWalking : Phase → Prop
  | .walking .. => True
  | _ => False

def Phase.isBatch : Phase → Prop
  | .batch .. => True
  | _ => False

def Phase.isClosing : Phase → Prop
  | .closing .. => True
  | _ => False

variable {σ : Type} {c : Config σ} {p p' : Phase} {w w' : Engine σ}

/-! ## Validation -/

theorem listsAll_iff (p : ExecutionPlan) : listsAll p ↔ Permuted p := by
  simp [listsAll, Permuted]

/-- A validation plans the slot, and says so when it leaves an order with gaps. -/
theorem validate_spec (i : ℕ) {s : Slot} (hcount : s.request.count ≤ 8) (w : Engine σ) :
    ∃ s' env new, (validate c i s w).2 = { w with
        slots := Function.update w.slots i s', env, log := w.log ++ new } ∧
      w.env.Follows env ∧ Planned s s' w.state.version (validate c i s w).1 ∧
      (Permuted s'.execution ∧ new = [] ∨ ¬(validate c i s w).1 ∧ new = [.disordered s.sequence]) ∧
      ∀ f < s.request.count, s'.eligible f → Accepted c s w.state (armed c w i) (s.request.field f) := by
  obtain ⟨hplanned, hfollows⟩ := validatePlan_planned (c := c) hcount w.state (armed c w i) w.env
  have haccepted : ∀ f < s.request.count,
      (validatePlan c s w.state (armed c w i) w.env).2.1.eligible f →
      Accepted c s w.state (armed c w i) (s.request.field f) :=
    fun f hf => validatePlan_accepted hf
  unfold validate
  dsimp only
  generalize validatePlan c s w.state (armed c w i) w.env = plan at hplanned hfollows haccepted
  obtain ⟨ok, s', env⟩ := plan
  dsimp only at hplanned hfollows haccepted ⊢
  split
  · next h =>
    refine ⟨s', env, [], by rw [List.append_nil]; rfl, hfollows, hplanned, .inl ⟨?_, rfl⟩, haccepted⟩
    rcases h with h | h
    · exact hplanned.permuted h
    · exact (listsAll_iff _).mp h
  · next h =>
    refine ⟨s', env, [.disordered s.sequence], ?_, hfollows, hplanned,
      .inr ⟨fun hok => h (.inl hok), rfl⟩, haccepted⟩
    rw [hplanned.slot]
    rfl

/-- A plan is narrowed to what was admitted. -/
theorem admittedOnly_narrows (admitted : ExecutionPlan) (ok refused : Bool) (p : ExecutionPlan) :
    Narrows p (admittedOnly admitted ok refused p) := by
  have hfirst : Narrows p (mapFields p fun j f => if (admitted.fields j).eligible then f
      else { f with eligible := false, diagnostics := (admitted.fields j).diagnostics }) := by
    refine mapFields_narrows p (fun j f => ?_) fun j f hf => ?_
    · split <;> rfl
    · split at hf
      · exact hf
      · exact absurd hf Bool.false_ne_true
  have hwithdraw : ∀ (b : Bool) (q : ExecutionPlan) (errors : UInt32),
      Narrows q (if b then q else withdrawAll q errors) ∧
        Narrows q (if b then withdrawAll q errors else q) :=
    fun b q errors => ⟨narrows_ite (.refl q) (withdrawAll_narrows q errors),
      narrows_ite (withdrawAll_narrows q errors) (.refl q)⟩
  exact hfirst.trans ((hwithdraw ok _ _).1.trans (hwithdraw refused _ _).2)

theorem withdrawAll_eligible {p : ExecutionPlan} {errors : UInt32} {f : ℕ} (hf : f < p.count) :
    ¬((withdrawAll p errors).fields f).eligible := by
  simp [withdrawAll, mapFields, hf, PlannedField.withdraw]

/-- Only fields that were admitted stay eligible, and none after a failed validation. -/
theorem admittedOnly_eligible {admitted p : ExecutionPlan} {ok refused : Bool} {f : ℕ}
    (hf : f < p.count) (h : ((admittedOnly admitted ok refused p).fields f).eligible) :
    (admitted.fields f).eligible ∧ ok ∧ ¬refused := by
  unfold admittedOnly at h
  dsimp only at h
  have hcount : (if ok then mapFields p fun j f => if (admitted.fields j).eligible then f
        else { f with eligible := false, diagnostics := (admitted.fields j).diagnostics }
      else withdrawAll (mapFields p fun j f => if (admitted.fields j).eligible then f
        else { f with eligible := false, diagnostics := (admitted.fields j).diagnostics })
          (invalidValue ||| notExecuted)).count = p.count := by
    split <;> rfl
  split at h
  · exact absurd h (withdrawAll_eligible (by rw [hcount]; exact hf))
  · next hrefused =>
    split at h
    · next hok =>
      refine ⟨?_, hok, hrefused⟩
      by_contra hnot
      simp [mapFields, hf, hnot] at h
    · exact absurd h (withdrawAll_eligible hf)

/-- A plan that is narrowed to the admitted one is still all or nothing. -/
theorem admittedOnly_uniform {admitted p : ExecutionPlan} {ok refused : Bool}
    (hcount : p.count = admitted.count) (hadmitted : Uniform admitted) (hp : ok → Uniform p) :
    Uniform (admittedOnly admitted ok refused p) := by
  have hnarrow := admittedOnly_narrows admitted ok refused p
  by_cases hsome : ∃ f < p.count, ((admittedOnly admitted ok refused p).fields f).eligible
  · obtain ⟨f, hf, hel⟩ := hsome
    obtain ⟨hadm, hok, hrefused⟩ := admittedOnly_eligible hf hel
    have hall : ∀ g < admitted.count, (admitted.fields g).eligible := by
      rcases hadmitted with h | h
      · exact h
      · exact absurd hadm (h f (hcount ▸ hf))
    have hpall : ∀ g < p.count, (p.fields g).eligible := by
      rcases hp hok with h | h
      · exact h
      · exact absurd (hnarrow.eligible f hel) (h f hf)
    refine .inl fun g hg => ?_
    rw [hnarrow.count] at hg
    simp [admittedOnly, hok, hrefused, mapFields, hg, hall g (hcount ▸ hg), hpall g hg]
  · refine .inr fun f hf hel => hsome ⟨f, ?_, hel⟩
    rwa [hnarrow.count] at hf

/-- What the validation in the first turn does to a slot. -/
structure Revalidated (c : Config σ) (w : Engine σ) (i : ℕ) (s s' : Slot) : Prop where
  slot : s' = { s with
    execution := s'.execution, dataRunning := s'.dataRunning, hypothetical := w.state
    revalidated := true }
  count : s'.execution.count = s.request.count
  expected : s'.execution.expectedStateVersion = w.state.version
  id : ∀ f < s.request.count, (s'.execution.fields f).id = (s.request.field f).id
  outside : ∀ f, s.request.count ≤ f → s'.eligible f → s.eligible f
  permuted : ∀ f < s.request.count, s'.eligible f → Permuted s'.execution
  uniform : s.execution.count = s.request.count → ¬s.request.cam.partialAllowed →
    Uniform s.execution → Uniform s'.execution
  accepted : ∀ f < s.request.count, s'.eligible f → ∃ d : Bool,
    Accepted c { s with dataRunning := d } w.state (armed c w i) (s.request.field f)

/-- The second validation gives the slot a plan, in an order unless it logs that there is none. -/
theorem revalidate_spec {now : OperationContext} {i : ℕ} (hnot : ¬(w.slots i).revalidated)
    (hcount : (w.slots i).request.count ≤ 8) :
    ∃ s' env new, revalidate c now i w = { w with
        slots := Function.update w.slots i s', env, log := w.log ++ new } ∧
      w.env.Follows env ∧ Revalidated c w i (w.slots i) s' ∧
      (Permuted s'.execution ∧ new = [] ∨ new = [.disordered (w.slots i).sequence]) := by
  obtain ⟨s, env, new, hw, hfollows, hplanned, hnew, haccepted⟩ := validate_spec (c := c) i
    (s := { w.slots i with dataRunning := now.dataRunning ∧ ¬immediateStop c (w.slots i).request })
    hcount w
  unfold revalidate
  rw [if_neg hnot]
  dsimp only
  generalize validate c i { w.slots i with
    dataRunning := now.dataRunning ∧ ¬immediateStop c (w.slots i).request } w = v at hw hplanned
  rw [hw]
  simp only [setSlot, Function.update_self, Function.update_idem]
  have hnarrow := admittedOnly_narrows (w.slots i).execution v.1 (w.faulted ∧ s.action = 2) s.execution
  refine ⟨_, env, new, rfl, hfollows, ⟨?_, ?_, ?_, ?_, ?_, ?_, ?_, ?_⟩, ?_⟩
  · rw [hplanned.slot]
  · rw [hnarrow.count]
    exact hplanned.count
  · rw [hnarrow.expected]
    exact hplanned.expected
  · intro f hf
    rw [hnarrow.id]
    exact hplanned.id f hf
  · intro f hf hel
    exact hplanned.outside f hf (hnarrow.eligible f hel)
  · intro f hf hel
    refine hnarrow.permuted.mpr (hplanned.permuted ?_)
    exact (admittedOnly_eligible (by rw [hplanned.count]; exact hf) hel).2.1
  · intro hc hp hu
    refine admittedOnly_uniform ?_ hu fun hok => hplanned.uniform hok hp
    rw [hplanned.count]
    exact hc.symm
  · intro f hf hel
    exact ⟨_, haccepted f hf (hnarrow.eligible f hel)⟩
  · rcases hnew with ⟨hperm, rfl⟩ | ⟨-, rfl⟩
    · exact .inl ⟨hnarrow.permuted.mpr hperm, rfl⟩
    · exact .inr rfl

/-! ## Tickets and results -/

/-- A reserved ticket is kept in the slot, under the next operation number. -/
theorem reserveTicket_spec {i f : ℕ} {now : OperationContext} {u : Unit}
    (h : reserveTicket c i f now w = (.ok u, w')) : ∃ publisher port field,
      w.env.port.reserve (c.transactions * 4) w.nextTicketOperation = .ok (publisher, port) ∧
      w' = { w with
        slots := Function.update w.slots i { w.slots i with
          tokens := Function.update (w.slots i).tokens f (some publisher)
          ticketOperations := Function.update (w.slots i).ticketOperations f w.nextTicketOperation }
        env := { w.env with port := port.setResult (i * 4 + f) fun r =>
          { r with busy := true, generation := (w.slots i).generation
                   guard := { associationGeneration := now.associationGeneration, field } } }
        nextTicketOperation := w.nextTicketOperation + 1 } := by
  unfold reserveTicket at h
  dsimp only at h
  split at h
  · exact absurd (congrArg Prod.fst h) (by simp)
  · next publisher port hport =>
    obtain ⟨-, rfl⟩ := Prod.mk.inj h
    exact ⟨publisher, port, _, hport, rfl⟩

/-- The port after the tokens of a slot were given up. -/
def droppedPort (c : Config σ) (i : ℕ) (w : Engine σ) : Port :=
  (List.range 4).foldl (fun p f => p.dropToken (c.transactions * 4) ((w.slots i).tokens f)) w.env.port

/-- The port after a release. -/
def releasedPort (c : Config σ) (i : ℕ) (w : Engine σ) : Port :=
  (List.range 4).foldl (fun p f => p.setResult (i * 4 + f) fun r => { r with busy := false })
    (droppedPort c i w)

/-- A transaction that is complete and whose responses were all taken is released. -/
theorem release_spec {i gen : ℕ} {u : Unit}
    (h : release c { slot := i, generation := gen } w = (.ok u, w')) :
    (w.slots i).active ∧ (w.slots i).complete ∧ w' = { w with
      slots := Function.update w.slots i { w.slots i with
        active := false, tokens := fun _ => none, credits := none
        generation := (w.slots i).generation + 1 }
      env := { w.env with port := releasedPort c i w }
      pool := w.pool.reset (w.slots i).credits } := by
  unfold release dropTokens at h
  dsimp only at h
  split at h
  · exact absurd (congrArg Prod.fst h) (by simp)
  · split at h
    · exact absurd (congrArg Prod.fst h) (by simp)
    · next hcond =>
      simp only [not_or, not_not, Bool.not_eq_true, Bool.not_eq_false] at hcond
      obtain ⟨-, rfl⟩ := Prod.mk.inj h
      refine ⟨hcond.1, hcond.2.2.1, ?_⟩
      simp [setSlot, setPort, releasedPort, droppedPort]

/-! ## What a move for one slot leaves alone -/

structure ActFrame (i : ℕ) (p : Phase) (w : Engine σ) (p' : Phase) (w' : Engine σ) : Prop where
  slots : ∀ j, j ≠ i → w'.slots j = w.slots j
  before : ∀ j, p.slot = some j → j = i
  after : ∀ j, p'.slot = some j → j = i
  log : ∃ new, w'.log = w.log ++ new ∧ ∀ e ∈ new, e.tx = (w'.slots i).sequence
  emits : w'.log = w.log ∨ (w'.slots i).active
  sequence : (w'.slots i).active → (w.slots i).active ∧
      (w'.slots i).sequence = (w.slots i).sequence ∧ w'.nextSequence = w.nextSequence ∨
    (w.slots i).active = false ∧ (w'.slots i).sequence = w.nextSequence ∧
      w'.nextSequence = w.nextSequence + 1

/-- The frame of a move that keeps the transaction of its slot. -/
theorem ActFrame.same {i : ℕ} (hbefore : ∀ j, p.slot = some j → j = i)
    (hafter : ∀ j, p'.slot = some j → j = i) {s : Slot} {new : List Event}
    (hslots : w'.slots = Function.update w.slots i s) (hactive : s.active = (w.slots i).active)
    (hseq : s.sequence = (w.slots i).sequence) (hnext : w'.nextSequence = w.nextSequence)
    (hlog : w'.log = w.log ++ new) (hnew : ∀ e ∈ new, e.tx = (w.slots i).sequence)
    (hemits : new = [] ∨ (w.slots i).active) : ActFrame i p w p' w' where
  slots j hj := by rw [hslots, Function.update_of_ne hj]
  before := hbefore
  after := hafter
  log := ⟨new, hlog, fun e he => by rw [hslots, Function.update_self, hseq]; exact hnew e he⟩
  emits := by
    rcases hemits with rfl | hact
    · exact .inl (by rw [hlog, List.append_nil])
    · exact .inr (by rw [hslots, Function.update_self, hactive]; exact hact)
  sequence hact := by
    rw [hslots, Function.update_self, hactive] at hact
    rw [hslots, Function.update_self]
    exact .inl ⟨hact, hseq, hnext⟩

/-- A move that changes no slot. -/
theorem ActFrame.slotsEq {i : ℕ} (hbefore : ∀ j, p.slot = some j → j = i)
    (hafter : ∀ j, p'.slot = some j → j = i) {new : List Event} (hslots : w'.slots = w.slots)
    (hnext : w'.nextSequence = w.nextSequence) (hlog : w'.log = w.log ++ new)
    (hnew : ∀ e ∈ new, e.tx = (w.slots i).sequence) (hemits : new = [] ∨ (w.slots i).active) :
    ActFrame i p w p' w' :=
  .same hbefore hafter (s := w.slots i) (by rw [hslots, Function.update_eq_self]) rfl rfl hnext hlog hnew
    hemits

theorem told_tx {s : Slot} {planned : PlannedField} {o : FieldOutcome} {e : Event}
    (h : Told s planned o e) : e.tx = s.sequence := by
  cases h <;> rfl

/-- An outcome touches its own slot only. -/
theorem applied_frame {i field : ℕ} {o : FieldOutcome} (h : Applied i field o w w')
    (hactive : (w.slots i).active)
    (hbefore : ∀ j, p.slot = some j → j = i) (hafter : ∀ j, p'.slot = some j → j = i) :
    ActFrame i p w p' w' := by
  obtain ⟨⟨hyp, credits, revisions, hs⟩, -, -, hnext, -, told, hlog, htold, -⟩ := h
  rw [List.append_assoc] at hlog
  refine .same hbefore hafter hs ?_ ?_ hnext hlog ?_ (.inr hactive)
  · rw [recordOutcome_eq]
  · rw [recordOutcome_eq]
  · intro e he
    rcases List.mem_append.mp he with he | he
    · exact told_tx (htold e he)
    · obtain rfl := List.mem_singleton.mp he
      rfl

/-- The outcome that a completion record stands for. -/
theorem consume_eq {record : CompletionRecord} {i : ℕ} (port : Port)
    (hfind : findRunning c w record.operation = some i) : consume c record (w.setPort port) =
      applyOutcome c true i (w.slots i).runningField
        (if record.result.status = .succeeded ∧ record.result.value = i * 4 + (w.slots i).runningField then
          (port.results (i * 4 + (w.slots i).runningField)).outcome
        else unknownOutcome ((w.slots i).execution.fields (w.slots i).runningField).id)
        (w.setPort port) := by
  unfold consume
  rw [show findRunning c (w.setPort port) record.operation = some i from hfind]
  rfl

/-- The completion of a running field is its outcome. -/
theorem consume_applied {record : CompletionRecord} {i : ℕ} (port : Port)
    (hfind : findRunning c w record.operation = some i) : ∃ reported,
      consume c record (w.setPort port) =
        applyOutcome c true i (w.slots i).runningField reported (w.setPort port) ∧
      (record.result.status = .succeeded → record.result.value = i * 4 + (w.slots i).runningField →
        reported = (port.results (i * 4 + (w.slots i).runningField)).outcome) :=
  ⟨_, consume_eq port hfind, fun hs hv => if_pos ⟨hs, hv⟩⟩

theorem findRunning_eq_some {operation i : ℕ} (h : findRunning c w operation = some i) :
    i < c.transactions ∧ (w.slots i).active ∧ (w.slots i).running ∧
      (w.slots i).ticketOperations (w.slots i).runningField = operation := by
  have hmem := List.mem_range.mp (List.mem_of_find?_eq_some h)
  have hp := List.find?_some h
  simp only [decide_eq_true_eq] at hp
  exact ⟨hmem, hp⟩

/-- The slot after a batch was validated once more. -/
theorem revalidateBatch_spec (now : OperationContext) {i : ℕ}
    (hcount : (w.slots i).request.count ≤ 8) :
    ∃ s env new, (revalidateBatch c now i w).2 = { w with
        slots := Function.update w.slots i s, env, log := w.log ++ new } ∧
      w.env.Follows env ∧
      Planned { w.slots i with dataRunning := now.dataRunning } s w.state.version
        (revalidateBatch c now i w).1 ∧
      (Permuted s.execution ∧ new = [] ∨
        ¬(revalidateBatch c now i w).1 ∧ new = [.disordered (w.slots i).sequence]) ∧
      ∀ f < (w.slots i).request.count, s.eligible f →
        Accepted c { w.slots i with dataRunning := now.dataRunning } w.state (armed c w i)
          ((w.slots i).request.field f) :=
  validate_spec (c := c) i (s := { w.slots i with dataRunning := now.dataRunning }) hcount w

/-! ## The invariant -/

/-- A field is running. -/
structure Running (p : Phase) (owner : Option ℕ) (j : ℕ) (s : Slot) : Prop where
  owner : owner = some j
  live : ¬s.complete
  revalidated : s.revalidated
  step : s.step < s.execution.count
  order : s.runningField = s.execution.order s.step
  permuted : Permuted s.execution
  phase : p.slot ≠ some j

/-- The slot whose turn it is. -/
structure InPhase (c : Config σ) (p : Phase) (owner : Option ℕ) (j : ℕ) (s : Slot) : Prop where
  live : ¬s.complete
  idle : ¬s.running
  action : ¬p.isClosing → s.action ≠ 0 ∧ (s.action = 2 → owner = some j)
  valid : p.isValid → s.revalidated
  batch : p.isBatch → s.isBatch c
  refused : p.isWalking → s.isBatch c → ∀ f, ¬s.eligible f

/-- What holds of the transaction of a slot. -/
structure SlotInv (c : Config σ) (p : Phase) (owner : Option ℕ) (log : List Event) (j : ℕ)
    (s : Slot) : Prop where
  lt : j < c.transactions
  wellFormed : s.request.WellFormed c.profile
  action_le : s.action ≤ 2
  timing_le : s.request.cam.timing ≤ 4
  count : s.execution.count = s.request.count
  id : ∀ f < s.execution.count, (s.execution.fields f).id = (s.request.field f).id
  sound : Sound s.execution
  lane : owner = some j → ¬s.complete ∧ s.action = 2
  running : s.running → Running p owner j s
  phase : p.slot = some j → InPhase c p owner j s
  early : ¬s.complete → ¬s.revalidated → p ≠ .closing j → s.step = 0 ∧
    (∀ f, (s.outcomes f).status = .pending) ∧ ∀ e ∈ log, e.tx = s.sequence → e.isEarly

structure Base (c : Config σ) (p : Phase) (w : Engine σ) : Prop where
  slot : ∀ j, (w.slots j).active → SlotInv c p w.effectOwner w.log j (w.slots j)
  owner : ∀ j, w.effectOwner = some j → (w.slots j).active
  phase : ∀ j, p.slot = some j → (w.slots j).active
  sequence_lt : ∀ j, (w.slots j).active → (w.slots j).sequence < w.nextSequence
  sequence_inj : ∀ i j, (w.slots i).active → (w.slots j).active →
    (w.slots i).sequence = (w.slots j).sequence → i = j
  log_lt : ∀ e ∈ w.log, e.tx < w.nextSequence

theorem SlotInv.count_le {owner : Option ℕ} {log : List Event} {j : ℕ} {s : Slot}
    (h : SlotInv c p owner log j s) : s.request.count ≤ 8 := by
  refine le_trans h.wellFormed.count_le ?_
  unfold fieldLimit
  split <;> decide

/-- The fields of a transaction are told apart by their identifiers. -/
theorem SlotInv.id_injective {owner : Option ℕ} {log : List Event} {j f f' : ℕ} {s : Slot}
    (h : SlotInv c p owner log j s) (hf : f < s.execution.count) (hf' : f' < s.execution.count)
    (hid : (s.execution.fields f).id = (s.execution.fields f').id) : f = f' := by
  rw [h.id f hf, h.id f' hf'] at hid
  exact h.wellFormed.field_injective (h.count ▸ hf) (h.count ▸ hf') hid

/-- The slot of a move in a turn. -/
theorem Base.turn (h : Base c p w) {i : ℕ} (hp : p.slot = some i) :
    (w.slots i).active ∧ SlotInv c p w.effectOwner w.log i (w.slots i) ∧
      InPhase c p w.effectOwner i (w.slots i) :=
  ⟨h.phase i hp, h.slot i (h.phase i hp), (h.slot i (h.phase i hp)).phase hp⟩

theorem rescheduled_frame {i : ℕ} {s : Slot} (h : Rescheduled (w.slots i) s)
    (hbefore : ∀ j, p.slot = some j → j = i) (hafter : ∀ j, p'.slot = some j → j = i) :
    ActFrame i p w p' (w.setSlot i s) := by
  refine .same hbefore hafter rfl ?_ ?_ rfl (List.append_nil _).symm (by simp) (.inl rfl)
  · rw [h.slot]
  · rw [h.slot]

theorem disordered_tx {s : Slot} {new : List Event} {q : Prop}
    (h : q ∧ new = [] ∨ new = [.disordered s.sequence]) : ∀ e ∈ new, e.tx = s.sequence := by
  rcases h with ⟨-, rfl⟩ | rfl
  · simp
  · intro e he
    obtain rfl := List.mem_singleton.mp he
    rfl

/-- Every act changes one slot only, and logs what is of its transaction. -/
theorem Act.frame {i : ℕ} (hb : Base c p w) (h : Act c i p w p' w') : ActFrame i p w p' w' := by
  cases h with
  | @settle _ t record port htake hfind =>
    obtain ⟨reported, heq, -⟩ := consume_applied port hfind
    have happlied := applyOutcome_applied (c := c) true i (w.slots i).runningField reported
      (w.setPort port)
    obtain ⟨h1, h2, h3, h4, h5, h6⟩ := applied_frame (p := .idle) happlied
      (findRunning_eq_some hfind).2.1 (by simp [Phase.slot]) (show ∀ j, Phase.idle.slot = some j → j = i by
        simp [Phase.slot])
    rw [heq]
    exact ⟨h1, h2, h3, h4, h5, h6⟩
  | own | enter | query | unscheduled | single | unchanged | stuck | exhaust =>
    exact .slotsEq (by simp [Phase.slot]) (by simp [Phase.slot]) rfl rfl (List.append_nil _).symm
      (by simp) (.inl rfl)
  | drain | pass | unready =>
    exact .same (by simp [Phase.slot]) (by simp [Phase.slot]) rfl rfl rfl rfl
      (List.append_nil _).symm (by simp) (.inl rfl)
  | schedule =>
    exact rescheduled_frame ((reschedule_rescheduled _ _).trans (checkWindow_rescheduled _ _))
      (by simp [Phase.slot]) (by simp [Phase.slot])
  | boundary =>
    exact rescheduled_frame (validateBoundaryState_rescheduled _ _) (by simp [Phase.slot])
      (by simp [Phase.slot])
  | @defer _ now =>
    have hs := (reschedule_rescheduled (c := c) now (w.slots i)).slot
    have hseq : (reschedule c now (w.slots i)).sequence = (w.slots i).sequence := by rw [hs]
    refine .same (by simp [Phase.slot]) (by simp [Phase.slot]) rfl ?_ hseq rfl rfl ?_
      (.inr (hb.phase i rfl))
    · rw [hs]
    · intro e he
      obtain rfl := List.mem_singleton.mp he
      exact hseq
  | revalidate hnot =>
    obtain ⟨-, hslot, -⟩ := hb.turn rfl
    obtain ⟨s, env, new, heq, -, hr, hnew⟩ := revalidate_spec (c := c) hnot hslot.count_le
    rw [heq]
    refine .same (by simp [Phase.slot]) (by simp [Phase.slot]) rfl ?_ ?_ rfl rfl (disordered_tx hnew)
      (.inr (hb.phase i rfl))
    · rw [hr.slot]
    · rw [hr.slot]
  | recheck =>
    obtain ⟨-, hslot, -⟩ := hb.turn rfl
    obtain ⟨s, env, new, heq, -, hr, hnew, -⟩ := revalidateBatch_spec (c := c) _ hslot.count_le
    rw [heq]
    refine .same (by simp [Phase.slot]) (by simp [Phase.slot])
      (by simp only [setSlot, Function.update_self, Function.update_idem]; rfl) ?_ ?_ rfl rfl
      (disordered_tx (hnew.imp_right And.right)) (.inr (hb.phase i rfl))
    · rw [withdrawFour, hr.slot]
    · rw [withdrawFour, hr.slot]
  | commit =>
    obtain ⟨-, hslot, -⟩ := hb.turn rfl
    obtain ⟨s, env, new, heq, -, hr, hnew, -⟩ := revalidateBatch_spec (c := c) _ hslot.count_le
    have hseq : s.sequence = (w.slots i).sequence := by rw [hr.slot]
    rw [heq]
    refine .same (by simp [Phase.slot]) (by simp [Phase.slot]) rfl ?_ hseq rfl
      (List.append_assoc _ _ _) ?_ (.inr (hb.phase i rfl))
    · rw [hr.slot]
    · intro e he
      rcases List.mem_append.mp he with he | he
      · exact disordered_tx (hnew.imp_right And.right) e he
      · obtain rfl := List.mem_singleton.mp he
        simpa [Event.tx] using hseq
  | apply | simulate =>
    exact applied_frame (applyOutcome_applied ..) (hb.phase i rfl) (by simp [Phase.slot]) (by simp [Phase.slot])
  | publish version event =>
    rcases recordEvent_cases (c := c) i event { w with state := { w.state with version } } with
      heq | ⟨env, credits, revisions, -, heq⟩ <;> rw [heq]
    · exact .slotsEq (by simp [Phase.slot]) (by simp [Phase.slot]) rfl rfl (List.append_nil _).symm
        (by simp) (.inl rfl)
    · exact .same (by simp [Phase.slot]) (by simp [Phase.slot]) rfl rfl rfl rfl rfl
        (by simp [Event.tx]) (.inr (hb.phase i rfl))
  | @block _ field _ =>
    rcases blockField_cases i field w with heq | heq <;> rw [heq]
    · exact .slotsEq (by simp [Phase.slot]) (by simp [Phase.slot]) rfl rfl (List.append_nil _).symm
        (by simp) (.inl rfl)
    · refine .same (by simp [Phase.slot]) (by simp [Phase.slot]) rfl rfl rfl rfl rfl ?_
        (.inr (hb.phase i rfl))
      split <;> simp [Event.tx]
  | start =>
    exact .same (by simp [Phase.slot]) (by simp [Phase.slot]) rfl rfl rfl rfl rfl (by simp [Event.tx])
      (.inr (hb.phase i rfl))
  | finish now =>
    obtain ⟨s, env, hs, -, heq⟩ := finish_spec (c := c) i now w
    rw [heq]
    refine .same (by simp [Phase.slot]) (by simp [Phase.slot]) rfl ?_ ?_ rfl rfl (by simp [Event.tx])
      (.inr (hb.phase i rfl))
    · rw [hs]
    · rw [hs]
  | scratch hidle hactive _ =>
    refine ⟨fun j hj => by rw [setSlot_slots, Function.update_of_ne hj], by simp [Phase.slot],
      by simp [Phase.slot], ⟨[], (List.append_nil _).symm, by simp⟩, .inl rfl, fun h => ?_⟩
    rw [setSlot_slots, Function.update_self, hactive] at h
    cases h
  | reserve _ _ _ _ h =>
    obtain ⟨publisher, port, field, -, rfl⟩ := reserveTicket_spec h
    exact .same (by simp [Phase.slot]) (by simp [Phase.slot]) rfl rfl rfl rfl
      (List.append_nil _).symm (by simp) (.inl rfl)
  | drop =>
    exact .same (by simp [Phase.slot]) (by simp [Phase.slot]) rfl rfl rfl rfl
      (List.append_nil _).symm (by simp) (.inl rfl)
  | activate _ hidle =>
    refine ⟨fun j hj => by simp [setSlot, Function.update_of_ne hj], by simp [Phase.slot],
      by simp [Phase.slot], ⟨_, rfl, by simp [Event.tx, setSlot]⟩, .inr (by simp), fun _ => .inr ⟨hidle, ?_⟩⟩
    simp [setSlot, emit]
  | disarm hactive | confirm hactive =>
    exact .slotsEq (by simp [Phase.slot]) (by simp [Phase.slot]) rfl rfl rfl (by simp [Event.tx])
      (.inr hactive)
  | release h =>
    obtain ⟨-, -, rfl⟩ := release_spec h
    refine ⟨fun j hj => by simp [Function.update_of_ne hj], by simp [Phase.slot],
      by simp [Phase.slot], ⟨[], (List.append_nil _).symm, by simp⟩, .inl rfl, fun h => ?_⟩
    simp at h

/-- What the moves of a transaction keep for its time in the slot. -/
structure Tenure (s s' : Slot) : Prop where
  request : s'.request = s.request
  timing : s'.timing = s.timing
  requestedTime : s'.requestedTime = s.requestedTime
  generation : s'.generation = s.generation
  tokens : s'.tokens = s.tokens
  operations : s'.ticketOperations = s.ticketOperations
  cancelled : s'.cancelled = s.cancelled

theorem Tenure.refl (s : Slot) : Tenure s s := ⟨rfl, rfl, rfl, rfl, rfl, rfl, rfl⟩

theorem Tenure.applied {i field : ℕ} {o : FieldOutcome} (h : Applied i field o w w') :
    Tenure (w.slots i) (w'.slots i) := by
  obtain ⟨hypothetical, credits, revisions, hs⟩ := h.slots
  rw [hs, Function.update_self, recordOutcome_eq]
  exact ⟨rfl, rfl, rfl, rfl, rfl, rfl, rfl⟩

theorem Tenure.rescheduled {s s' : Slot} (h : Rescheduled s s') : Tenure s s' := by
  rw [h.slot]
  exact ⟨rfl, rfl, rfl, rfl, rfl, rfl, rfl⟩

/-- Every act keeps the transaction of a slot that stays active. -/
theorem Act.tenure {i : ℕ} (hb : Base c p w) (h : Act c i p w p' w') (hactive : (w.slots i).active)
    (hactive' : (w'.slots i).active) : Tenure (w.slots i) (w'.slots i) := by
  cases h with
  | @settle _ t record port htake hfind =>
    obtain ⟨reported, heq, -⟩ := consume_applied port hfind
    rw [heq]
    exact Tenure.applied (w := w.setPort port) (applyOutcome_applied ..)
  | own | enter | query | unscheduled | single | unchanged | stuck | exhaust | disarm | confirm =>
    exact .refl _
  | drain | pass | unready | start =>
    simp only [cancelPending, dispatchField, emit_slots, setSlot_slots, Function.update_self]
    exact ⟨rfl, rfl, rfl, rfl, rfl, rfl, rfl⟩
  | schedule =>
    rw [setSlot_slots, Function.update_self]
    exact .rescheduled ((reschedule_rescheduled _ _).trans (checkWindow_rescheduled _ _))
  | boundary =>
    rw [setSlot_slots, Function.update_self]
    exact .rescheduled (validateBoundaryState_rescheduled _ _)
  | @defer _ now =>
    rw [emit_slots, setSlot_slots, Function.update_self]
    exact .rescheduled (reschedule_rescheduled now (w.slots i))
  | revalidate hnot =>
    obtain ⟨-, hslot, -⟩ := hb.turn rfl
    obtain ⟨s, env, new, heq, -, hr, -⟩ := revalidate_spec (c := c) hnot hslot.count_le
    rw [heq]
    dsimp only
    rw [Function.update_self, hr.slot]
    exact ⟨rfl, rfl, rfl, rfl, rfl, rfl, rfl⟩
  | recheck =>
    obtain ⟨-, hslot, -⟩ := hb.turn rfl
    obtain ⟨s, env, new, heq, -, hr, -⟩ := revalidateBatch_spec (c := c) _ hslot.count_le
    rw [heq]
    simp only [setSlot, Function.update_self]
    rw [withdrawFour, hr.slot]
    exact ⟨rfl, rfl, rfl, rfl, rfl, rfl, rfl⟩
  | @commit _ now commit _ _ _ =>
    obtain ⟨-, hslot, -⟩ := hb.turn rfl
    obtain ⟨s, env, new, heq, -, hr, -⟩ := revalidateBatch_spec (c := c) now hslot.count_le
    rw [heq]
    show Tenure (w.slots i) (Function.update w.slots i s i)
    rw [Function.update_self, hr.slot]
    exact ⟨rfl, rfl, rfl, rfl, rfl, rfl, rfl⟩
  | apply | simulate => exact .applied (applyOutcome_applied ..)
  | publish version event =>
    rcases recordEvent_cases (c := c) i event { w with state := { w.state with version } } with
      heq | ⟨env, credits, revisions, -, heq⟩ <;> rw [heq]
    · exact .refl _
    · dsimp only
      rw [Function.update_self]
      exact ⟨rfl, rfl, rfl, rfl, rfl, rfl, rfl⟩
  | @block _ field _ =>
    rcases blockField_cases i field w with heq | heq <;> rw [heq]
    · exact .refl _
    · dsimp only
      rw [Function.update_self]
      exact ⟨rfl, rfl, rfl, rfl, rfl, rfl, rfl⟩
  | finish now =>
    obtain ⟨s, env, hs, -, heq⟩ := finish_spec (c := c) i now w
    rw [heq]
    dsimp only
    rw [Function.update_self, hs]
    exact ⟨rfl, rfl, rfl, rfl, rfl, rfl, rfl⟩
  | scratch hidle => exact absurd hactive (by rw [hidle]; exact Bool.false_ne_true)
  | reserve hidle => exact absurd hactive (by rw [hidle]; exact Bool.false_ne_true)
  | drop hidle => exact absurd hactive (by rw [hidle]; exact Bool.false_ne_true)
  | activate _ hidle => exact absurd hactive (by rw [hidle]; exact Bool.false_ne_true)
  | release h =>
    obtain ⟨-, -, rfl⟩ := release_spec h
    simp at hactive'

/-- A transaction comes into a slot by an admission. -/
structure Activated (c : Config σ) (i : ℕ) (now : OperationContext) (w w' : Engine σ) : Prop where
  lt : i < c.transactions
  fresh : Fresh c now (w.slots i)
  tokens : ∀ f < 4, ((w.slots i).tokens f).isSome
  slot : ∃ credits, w'.slots i = { w.slots i with credits, active := true, sequence := w.nextSequence }
  log : w'.log = w.log ++ [.admitted w.nextSequence (w.slots i).request now]
  env : w'.env = w.env

/-- A slot becomes active by an admission only. -/
theorem Act.activated {i : ℕ} (hb : Base c p w) (h : Act c i p w p' w')
    (hidle : (w.slots i).active = false) (hactive : (w'.slots i).active) :
    ∃ now, Activated c i now w w' := by
  have hnot : ¬(w.slots i).active := by
    rw [hidle]
    exact Bool.false_ne_true
  cases h with
  | settle _ hfind => exact absurd (findRunning_eq_some hfind).2.1 hnot
  | own _ hlive | enter _ _ hlive | query hlive | drain hlive =>
    have hlive := hlive
    simp only [Slot.live, decide_eq_true_eq] at hlive
    exact absurd hlive.1 hnot
  | scratch _ hs =>
    rw [setSlot_slots, Function.update_self, hs] at hactive
    cases hactive
  | reserve _ _ _ _ h =>
    obtain ⟨publisher, port, field, -, rfl⟩ := reserveTicket_spec h
    simp only [Function.update_self] at hactive
    exact absurd hactive hnot
  | drop =>
    simp only [dropTokens, setSlot_slots, Function.update_self] at hactive
    exact absurd hactive hnot
  | @activate _ now credits _ hlt _ hfresh _ _ htokens =>
    exact ⟨now, hlt, hfresh, htokens, ⟨credits, by rw [emit_slots, setSlot_slots, Function.update_self]⟩, rfl, rfl⟩
  | disarm hact | confirm hact => exact absurd hact hnot
  | release h => exact absurd (release_spec h).1 hnot
  | _ => exact absurd (hb.phase i rfl) hnot

/-! ## Preservation -/

/-- The slot of another transaction. -/
theorem SlotInv.other {owner owner' : Option ℕ} {log new : List Event} {j : ℕ} {s : Slot}
    (h : SlotInv c p owner log j s) (hp : p.slot ≠ some j) (hp' : p'.slot ≠ some j)
    (howner : owner' = some j ↔ owner = some j) (hnew : ∀ e ∈ new, e.tx ≠ s.sequence) :
    SlotInv c p' owner' (log ++ new) j s where
  lt := h.lt
  wellFormed := h.wellFormed
  action_le := h.action_le
  timing_le := h.timing_le
  count := h.count
  id := h.id
  sound := h.sound
  lane ho := h.lane (howner.mp ho)
  running hr := by
    obtain ⟨h1, h2, h3, h4, h5, h6, -⟩ := h.running hr
    exact ⟨howner.mpr h1, h2, h3, h4, h5, h6, hp'⟩
  phase hj := absurd hj hp'
  early hc hr _ := by
    obtain ⟨h1, h2, h3⟩ := h.early hc hr fun heq => hp (by rw [heq]; rfl)
    refine ⟨h1, h2, fun e he htx => ?_⟩
    rcases List.mem_append.mp he with he | he
    · exact h3 e he htx
    · exact absurd htx (hnew e he)

/-- The events of a move are none of another slot's transaction. -/
theorem ActFrame.other_tx {i j : ℕ} {new : List Event} (hf : ActFrame i p w p' w') (hb : Base c p w)
    (hnew : w'.log = w.log ++ new) (hj : j ≠ i) (hactive : (w.slots j).active) :
    ∀ e ∈ new, e.tx ≠ (w.slots j).sequence := by
  intro e he heq
  obtain ⟨new', hnew', htx⟩ := hf.log
  obtain rfl := List.append_cancel_left (hnew.symm.trans hnew')
  rw [htx e he] at heq
  rcases hf.emits with hsame | hact
  · rw [hnew] at hsame
    rw [List.append_right_eq_self.mp hsame] at he
    cases he
  · rcases hf.sequence hact with ⟨hi, hseq, -⟩ | ⟨-, hseq, -⟩
    · exact hj (hb.sequence_inj j i hactive hi (by rw [← heq, hseq]))
    · have hlt := hb.sequence_lt j hactive
      omega

/-- A move for one slot keeps the invariant if it does so for that slot. -/
theorem Base.act_of {i : ℕ} (hb : Base c p w) (hf : ActFrame i p w p' w')
    (howner : ∀ j, j ≠ i → (w'.effectOwner = some j ↔ w.effectOwner = some j))
    (hown : w'.effectOwner = some i → (w'.slots i).active)
    (hphase : p'.slot = some i → (w'.slots i).active)
    (hslot : (w'.slots i).active → SlotInv c p' w'.effectOwner w'.log i (w'.slots i))
    (hnext : w.nextSequence ≤ w'.nextSequence) : Base c p' w' := by
  obtain ⟨new, hnew, htx⟩ := hf.log
  have hseq_lt : (w'.slots i).active → (w'.slots i).sequence < w'.nextSequence := by
    intro hact
    rcases hf.sequence hact with ⟨hi, hseq, hn⟩ | ⟨-, hseq, hn⟩
    · rw [hseq, hn]
      exact hb.sequence_lt i hi
    · omega
  refine ⟨fun j hj => ?_, fun j hj => ?_, fun j hj => ?_, fun j hj => ?_, fun j k hj hk heq => ?_,
    fun e he => ?_⟩
  · by_cases h : j = i
    · subst h
      exact hslot hj
    · rw [hf.slots j h] at hj ⊢
      rw [hnew]
      exact (hb.slot j hj).other (fun hp => h (hf.before j hp)) (fun hp => h (hf.after j hp))
        (howner j h) (hf.other_tx hb hnew h hj)
  · by_cases h : j = i
    · subst h
      exact hown hj
    · rw [hf.slots j h]
      exact hb.owner j ((howner j h).mp hj)
  · obtain rfl := hf.after j hj
    exact hphase hj
  · by_cases h : j = i
    · subst h
      exact hseq_lt hj
    · rw [hf.slots j h] at hj ⊢
      exact lt_of_lt_of_le (hb.sequence_lt j hj) hnext
  · -- sequence numbers are not used twice
    have hfresh : ∀ j, j ≠ i → (w'.slots i).active → (w'.slots j).active →
        (w'.slots i).sequence ≠ (w'.slots j).sequence := by
      intro j hne hact hactj hsame
      rw [hf.slots j hne] at hactj hsame
      rcases hf.sequence hact with ⟨hi, hseq, -⟩ | ⟨-, hseq, -⟩
      · exact hne (hb.sequence_inj j i hactj hi (by rw [← hsame, hseq]))
      · have hlt := hb.sequence_lt j hactj
        omega
    by_cases hji : j = i
    · by_cases hki : k = i
      · rw [hji, hki]
      · subst hji
        exact absurd heq (hfresh k hki hj hk)
    · by_cases hki : k = i
      · subst hki
        exact absurd heq.symm (hfresh j hji hk hj)
      · rw [hf.slots j hji, hf.slots k hki] at heq
        rw [hf.slots j hji] at hj
        rw [hf.slots k hki] at hk
        exact hb.sequence_inj j k hj hk heq
  · rw [hnew] at he
    rcases List.mem_append.mp he with he | he
    · exact lt_of_lt_of_le (hb.log_lt e he) hnext
    · rw [htx e he]
      rcases hf.emits with hsame | hact
      · rw [hnew] at hsame
        rw [List.append_right_eq_self.mp hsame] at he
        cases he
      · exact hseq_lt hact

/-- The slot keeps its request and narrows its plan. -/
theorem SlotInv.narrow {owner owner' : Option ℕ} {log log' : List Event} {j : ℕ} {s s' : Slot}
    (h : SlotInv c p owner log j s) (hrequest : s'.request = s.request)
    (hplan : Narrows s.execution s'.execution)
    (hlane : owner' = some j → ¬s'.complete ∧ s'.action = 2)
    (hrunning : s'.running → Running p' owner' j s')
    (hphase : p'.slot = some j → InPhase c p' owner' j s')
    (hearly : ¬s'.complete → ¬s'.revalidated → p' ≠ .closing j → s'.step = 0 ∧
      (∀ f, (s'.outcomes f).status = .pending) ∧ ∀ e ∈ log', e.tx = s'.sequence → e.isEarly) :
    SlotInv c p' owner' log' j s' where
  lt := h.lt
  wellFormed := by rw [hrequest]; exact h.wellFormed
  action_le := by rw [Slot.action, hrequest]; exact h.action_le
  timing_le := by rw [hrequest]; exact h.timing_le
  count := by rw [hplan.count, hrequest]; exact h.count
  id f hf := by
    rw [hplan.id, hrequest]
    exact h.id f (by rwa [hplan.count] at hf)
  sound := hplan.sound h.sound
  lane := hlane
  running := hrunning
  phase := hphase
  early := hearly

/-- The slot was planned anew. -/
theorem SlotInv.planned {owner owner' : Option ℕ} {log log' : List Event} {j : ℕ} {s s' : Slot}
    (h : SlotInv c p owner log j s) (hrequest : s'.request = s.request)
    (hcount : s'.execution.count = s.request.count)
    (hid : ∀ f < s.request.count, (s'.execution.fields f).id = (s.request.field f).id)
    (houtside : ∀ f, s.request.count ≤ f → s'.eligible f → s.eligible f)
    (hpermuted : ∀ f < s.request.count, s'.eligible f → Permuted s'.execution)
    (hlane : owner' = some j → ¬s'.complete ∧ s'.action = 2) (hrunning : ¬s'.running)
    (hphase : p'.slot = some j → InPhase c p' owner' j s') (hvalid : s'.revalidated) :
    SlotInv c p' owner' log' j s' where
  lt := h.lt
  wellFormed := by rw [hrequest]; exact h.wellFormed
  action_le := by rw [Slot.action, hrequest]; exact h.action_le
  timing_le := by rw [hrequest]; exact h.timing_le
  count := by rw [hcount, hrequest]
  id f hf := by
    rw [hrequest]
    exact hid f (by rwa [hcount] at hf)
  sound f hf := by
    by_cases hlt : f < s.request.count
    · exact ⟨by rw [hcount]; exact hlt, hpermuted f hlt hf⟩
    · have hold := (h.sound f (houtside f (Nat.le_of_not_lt hlt) hf)).1
      rw [h.count] at hold
      exact absurd hold hlt
  lane := hlane
  running hr := absurd hr hrunning
  phase := hphase
  early _ hr := absurd hvalid hr

theorem withdrawFour_not_eligible {s : Slot} (hsound : Sound s.execution)
    (hcount : s.execution.count = 4) (f : ℕ) : ¬(withdrawFour s).eligible f := by
  by_cases hf : f < 4
  · simp [withdrawFour, Slot.eligible, hf]
  · intro h
    refine hf ?_
    rw [← hcount]
    exact (hsound f (by simpa [withdrawFour, Slot.eligible, hf] using h)).1

theorem withdrawFour_narrows (s : Slot) : Narrows s.execution (withdrawFour s).execution := by
  refine ⟨rfl, rfl, rfl, fun f => ?_, fun f h => ?_⟩
  · simp only [withdrawFour]
    split <;> rfl
  · simp only [withdrawFour] at h
    split at h
    · cases h
    · exact h

theorem isBatch_count {s : Slot} (h : s.isBatch c) : s.execution.count = 4 ∧ s.action = 2 := by
  simp only [Slot.isBatch, decide_eq_true_eq] at h
  exact h.2

theorem Narrows.isBatch {s s' : Slot} (hrequest : s'.request = s.request)
    (h : Narrows s.execution s'.execution) : s'.isBatch c = s.isBatch c := by
  unfold Slot.isBatch Slot.action
  simp only [hrequest, h.count]

/-- The turn goes on with a narrower plan. -/
theorem InPhase.mono {owner : Option ℕ} {j : ℕ} {s s' : Slot} (h : InPhase c p owner j s)
    (hrequest : s'.request = s.request) (hplan : Narrows s.execution s'.execution)
    (hlive : s'.complete = s.complete) (hidle : ¬s'.running) (hrevalidated : s.revalidated → s'.revalidated)
    (hclosing : p.isClosing → p'.isClosing) (hvalid : p'.isValid → p.isValid)
    (hbatch : p'.isBatch → p.isBatch) (hwalking : p'.isWalking → p.isWalking) :
    InPhase c p' owner j s' where
  live := by rw [hlive]; exact h.live
  idle := hidle
  action hp := by
    rw [Slot.action, hrequest]
    exact h.action fun hc => hp (hclosing hc)
  valid hp := hrevalidated (h.valid (hvalid hp))
  batch hp := by
    rw [Narrows.isBatch hrequest hplan]
    exact h.batch (hbatch hp)
  refused hp hb f hel := by
    rw [Narrows.isBatch hrequest hplan] at hb
    exact h.refused (hwalking hp) hb f (hplan.eligible f hel)

/-- A move that keeps the owner of the lane. -/
theorem Base.act_kept {i : ℕ} (hb : Base c p w) (hf : ActFrame i p w p' w')
    (howner : w'.effectOwner = w.effectOwner) (hactive : (w'.slots i).active)
    (hnext : w'.nextSequence = w.nextSequence)
    (hslot : SlotInv c p' w.effectOwner w'.log i (w'.slots i)) : Base c p' w' :=
  hb.act_of hf (fun _ _ => by rw [howner]) (fun _ => hactive) (fun _ => hactive)
    (fun _ => by rw [howner]; exact hslot) hnext.ge

/-- A move in a slot without a transaction. -/
theorem Base.act_idle {i : ℕ} (hb : Base c p w) (hf : ActFrame i p w .idle w')
    (hidle : (w.slots i).active = false) (hidle' : (w'.slots i).active = false)
    (howner : w'.effectOwner = w.effectOwner)
    (hnext : w'.nextSequence = w.nextSequence) : Base c .idle w' := by
  refine hb.act_of hf (fun _ _ => by rw [howner]) (fun ho => ?_) (by simp [Phase.slot])
    (fun h => ?_) hnext.ge
  · rw [howner] at ho
    have := hb.owner i ho
    rw [hidle] at this
    cases this
  · rw [hidle'] at h
    cases h

/-- The end of the turn. -/
theorem InPhase.closing {owner : Option ℕ} {j : ℕ} {s : Slot} (h : InPhase c p owner j s) :
    InPhase c (.closing j) owner j s :=
  ⟨h.live, h.idle, by simp [Phase.isClosing], by simp [Phase.isValid], by simp [Phase.isBatch],
    by simp [Phase.isWalking]⟩

/-- A move that changes only the phase. -/
theorem Base.enter {i : ℕ} (hb : Base c p w) (hf : ActFrame i p w p' w) (hactive : (w.slots i).active)
    (hrunning : ¬(w.slots i).running)
    (hphase : p'.slot = some i → InPhase c p' w.effectOwner i (w.slots i)) (hearly : p = .closing i → p' = .closing i) : Base c p' w := by
  have hs := hb.slot i hactive
  refine hb.act_kept hf rfl hactive rfl (hs.narrow rfl (.refl _) hs.lane (fun h => absurd h hrunning)
    hphase fun hc hr hp => hs.early hc hr fun heq => hp (hearly heq))

/-- An outcome is applied. -/
theorem Base.applied {i field : ℕ} {o : FieldOutcome} (hb : Base c p w)
    (h : Applied i field o w w') (hf : ActFrame i p w p' w') (hactive : (w.slots i).active)
    (hvalid : (w.slots i).revalidated)
    (hphase : p'.slot = some i → ∀ s, s.request = (w.slots i).request →
      Narrows (w.slots i).execution s.execution → s.complete = (w.slots i).complete →
      s.running = false → s.revalidated = (w.slots i).revalidated → InPhase c p' w.effectOwner i s) :
    Base c p' w' := by
  obtain ⟨hyp, credits, revisions, hs⟩ := h.slots
  have hslot : w'.slots i = recordOutcome { w.slots i with hypothetical := hyp, credits, revisions }
      field o := by
    rw [hs, Function.update_self]
  have hplan := recordOutcome_narrows { w.slots i with hypothetical := hyp, credits, revisions } field o
  have heq := recordOutcome_eq { w.slots i with hypothetical := hyp, credits, revisions } field o
  generalize recordOutcome { w.slots i with hypothetical := hyp, credits, revisions } field o = s
    at hslot hplan heq
  have hrequest : s.request = (w.slots i).request := by rw [heq]
  have hcomplete : s.complete = (w.slots i).complete := by rw [heq]
  have hrunning : s.running = false := by rw [heq]
  have hrev : s.revalidated = (w.slots i).revalidated := by rw [heq]
  refine hb.act_kept hf h.owner (by rw [hslot, heq]; exact hactive) h.sequence ?_
  rw [hslot]
  refine (hb.slot i hactive).narrow hrequest hplan (fun ho => ?_) (fun hr => ?_) (fun hp => ?_)
    fun _ hr => ?_
  · rw [hcomplete, Slot.action, hrequest]
    exact (hb.slot i hactive).lane ho
  · rw [hrunning] at hr
    cases hr
  · exact hphase hp s hrequest hplan hcomplete hrunning hrev
  · rw [hrev] at hr
    exact absurd hvalid hr

theorem live_iff {s : Slot} : s.live ↔ s.active ∧ ¬s.complete := by
  simp [Slot.live]

/-- The turn of a slot goes on with a narrower plan. -/
theorem Base.narrowed {i : ℕ} (hb : Base c p w) (hp : p.slot = some i) (hf : ActFrame i p w p' w')
    (howner : w'.effectOwner = w.effectOwner) (hnext : w'.nextSequence = w.nextSequence) {s : Slot}
    (hslot : w'.slots i = s) (hactive : s.active = (w.slots i).active)
    (hrequest : s.request = (w.slots i).request) (hplan : Narrows (w.slots i).execution s.execution)
    (hcomplete : s.complete = (w.slots i).complete) (hrunning : s.running = (w.slots i).running)
    (hphase : InPhase c p' w.effectOwner i s) (hvalid : s.revalidated) : Base c p' w' := by
  obtain ⟨hact, hs, hin⟩ := hb.turn hp
  refine hb.act_kept hf howner (by rw [hslot, hactive]; exact hact) hnext ?_
  rw [hslot]
  refine hs.narrow hrequest hplan (fun ho => ?_) (fun hr => ?_) (fun _ => hphase)
    fun _ hr => absurd hvalid hr
  · rw [hcomplete, Slot.action, hrequest]
    exact hs.lane ho
  · rw [hrunning] at hr
    exact absurd hr hin.idle

/-- A new choice of the boundary, in a turn. -/
theorem Base.rescheduled {i : ℕ} {s : Slot} (hb : Base c p w) (hp : p.slot = some i)
    (hf : ActFrame i p w p' (w.setSlot i s)) (h : Rescheduled (w.slots i) s)
    (hclosing : ¬p.isClosing) (hvalid : (w.slots i).revalidated) (hbatch : ¬p'.isBatch)
    (hwalking : ¬p'.isWalking) : Base c p' (w.setSlot i s) := by
  obtain ⟨-, -, hin⟩ := hb.turn hp
  have hrequest : s.request = (w.slots i).request := by rw [h.slot]
  refine hb.narrowed hp hf rfl rfl (s := s) (by simp) (by rw [h.slot]) hrequest h.plan (by rw [h.slot])
    (by rw [h.slot]) ⟨?_, ?_, fun _ => ?_, fun _ => ?_, fun hb => absurd hb hbatch,
      fun hw => absurd hw hwalking⟩ (by rw [h.slot]; exact hvalid)
  · rw [h.slot]
    exact hin.live
  · rw [h.slot]
    exact hin.idle
  · rw [Slot.action, hrequest]
    exact hin.action hclosing
  · rw [h.slot]
    exact hvalid

/-- The completion of a running field. -/
theorem Base.settled {i : ℕ} {record : CompletionRecord} {port : Port} (hb : Base c .idle w)
    (hf : ActFrame i .idle w .idle (consume c record (w.setPort port)))
    (hfind : findRunning c w record.operation = some i) :
    Base c .idle (consume c record (w.setPort port)) := by
  obtain ⟨reported, heq, -⟩ := consume_applied port hfind
  have happlied := applyOutcome_applied (c := c) true i (w.slots i).runningField reported
    (w.setPort port)
  obtain ⟨hlt, hactive, hrunning, -⟩ := findRunning_eq_some hfind
  rw [heq] at hf ⊢
  have hb' : Base c .idle (w.setPort port) := ⟨hb.slot, hb.owner, hb.phase, hb.sequence_lt,
    hb.sequence_inj, hb.log_lt⟩
  refine hb'.applied happlied ⟨hf.slots, hf.before, hf.after, hf.log, hf.emits, hf.sequence⟩ hactive
    ((hb.slot i hactive).running hrunning).revalidated (by simp [Phase.slot])

/-- The lane gets an owner. -/
theorem Base.owned {i : ℕ} (hb : Base c .idle w)
    (hf : ActFrame i .idle w .idle { w with effectOwner := some i })
    (hnone : w.effectOwner = none) (hlive : (w.slots i).live) (haction : (w.slots i).action = 2) :
    Base c .idle { w with effectOwner := some i } := by
  obtain ⟨hactive, hcomplete⟩ := live_iff.mp hlive
  have hs := hb.slot i hactive
  refine hb.act_of hf (fun j hj => ?_) (fun _ => hactive) (fun _ => hactive) (fun _ => ?_) le_rfl
  · simp [hnone, Ne.symm hj]
  · refine hs.narrow rfl (.refl _) (fun _ => ⟨hcomplete, haction⟩) (fun hr => ?_)
      (by simp [Phase.slot]) hs.early
    have := (hs.running hr).owner
    rw [hnone] at this
    cases this

/-- A query goes straight to its end. -/
theorem Base.queried {i : ℕ} (hb : Base c .idle w)
    (hf : ActFrame i .idle w (.closing i) w)
    (hlive : (w.slots i).live) (haction : (w.slots i).action = 0) :
    Base c (.closing i) w := by
  obtain ⟨hactive, hcomplete⟩ := live_iff.mp hlive
  have hs := hb.slot i hactive
  have hrunning : ¬(w.slots i).running := by
    intro hr
    have h2 := (hs.lane (hs.running hr).owner).2
    omega
  refine hb.enter hf hactive hrunning (fun _ => ⟨hcomplete, hrunning, ?_, ?_, ?_, ?_⟩) (by simp)
  all_goals simp [Phase.isClosing, Phase.isValid, Phase.isBatch, Phase.isWalking]

/-- A transaction that does not run when the engine is drained goes straight to its end. -/
theorem Base.drained {i : ℕ} (hb : Base c .idle w)
    (hf : ActFrame i .idle w (.closing i) (cancelPending i w))
    (hlive : (w.slots i).live) (hrunning : ¬(w.slots i).running) :
    Base c (.closing i) (cancelPending i w) := by
  obtain ⟨hactive, hcomplete⟩ := live_iff.mp hlive
  have hs := hb.slot i hactive
  refine hb.act_kept hf rfl (by simpa [cancelPending] using hactive) rfl ?_
  simp only [cancelPending, setSlot_slots, Function.update_self]
  refine hs.narrow rfl (.refl _) hs.lane (fun hr => absurd hr hrunning) (fun _ => ?_)
    fun _ _ hp => absurd rfl hp
  refine ⟨hcomplete, hrunning, ?_, ?_, ?_, ?_⟩
  all_goals simp [Phase.isClosing, Phase.isValid, Phase.isBatch, Phase.isWalking]

/-- A new plan, from the state of now. -/
theorem Base.revalidated {i : ℕ} {now : OperationContext} (hb : Base c (.planning i now) w)
    (hf : ActFrame i (.planning i now) w (.planning i now) (revalidate c now i w))
    (hnot : ¬(w.slots i).revalidated) :
    Base c (.planning i now) (revalidate c now i w) := by
  obtain ⟨hactive, hs, hin⟩ := hb.turn rfl
  obtain ⟨s, env, new, heq, -, hr, hnew⟩ := revalidate_spec (c := c) hnot hs.count_le
  have hrequest : s.request = (w.slots i).request := by rw [hr.slot]
  rw [heq] at hf ⊢
  refine hb.act_kept hf rfl ?_ rfl ?_
  · simp only [Function.update_self]
    rw [hr.slot]
    exact hactive
  · simp only [Function.update_self]
    refine hs.planned hrequest hr.count hr.id hr.outside hr.permuted (fun ho => ?_) ?_ (fun _ => ?_) ?_
    · rw [Slot.action, hrequest, hr.slot]
      exact hs.lane ho
    · rw [hr.slot]
      exact hin.idle
    · refine ⟨?_, ?_, fun hp => ?_, ?_, ?_, ?_⟩
      · rw [hr.slot]
        exact hin.live
      · rw [hr.slot]
        exact hin.idle
      · rw [Slot.action, hrequest]
        exact hin.action hp
      all_goals simp [Phase.isValid, Phase.isBatch, Phase.isWalking]
    · rw [hr.slot]

/-- The command waits for a later boundary, and the lane is free for others. -/
theorem Base.deferred {i : ℕ} {now : OperationContext} (hb : Base c (.planning i now) w)
    (hf : ActFrame i (.planning i now) w .idle
      ({ w.setSlot i (reschedule c now (w.slots i)) with effectOwner := none }.emit
        (.deferred (reschedule c now (w.slots i)).sequence)))
    (hvalid : (w.slots i).revalidated) (hwaits : waits now (reschedule c now (w.slots i))) :
    Base c .idle ({ w.setSlot i (reschedule c now (w.slots i)) with effectOwner := none }.emit
        (.deferred (reschedule c now (w.slots i)).sequence)) := by
  obtain ⟨hactive, hs, hin⟩ := hb.turn rfl
  have hr := reschedule_rescheduled (c := c) now (w.slots i)
  have haction : (w.slots i).action = 2 := by
    simp only [waits, decide_eq_true_eq] at hwaits
    have h2 := hwaits.2.1
    rwa [Slot.action, hr.slot] at h2
  have howner := (hin.action (by simp [Phase.isClosing])).2 haction
  generalize reschedule c now (w.slots i) = s at hr hf
  have hrequest : s.request = (w.slots i).request := by rw [hr.slot]
  refine hb.act_of hf (fun j hj => ?_) (fun ho => by cases ho) (fun ho => by cases ho)
    (fun _ => ?_) le_rfl
  · simp [emit, howner, Ne.symm hj]
  · simp only [emit_slots, setSlot_slots, Function.update_self]
    refine hs.narrow hrequest hr.plan (fun ho => by cases ho) (fun hrun => ?_) (fun ho => by cases ho)
      fun _ hnot => ?_
    · rw [hr.slot] at hrun
      exact absurd hrun hin.idle
    · rw [hr.slot] at hnot
      exact absurd hvalid hnot

/-- The plan of a batch is made again, and none of its fields is executed. -/
theorem Base.rechecked {i : ℕ} {now : OperationContext} (hb : Base c (.checked i now) w)
    (hf : ActFrame i (.checked i now) w (.walking i now) ((revalidateBatch c now i w).2.setSlot i
        (withdrawFour ((revalidateBatch c now i w).2.slots i))))
    (hready : Ready c w i) :
    Base c (.walking i now) ((revalidateBatch c now i w).2.setSlot i
        (withdrawFour ((revalidateBatch c now i w).2.slots i))) := by
  obtain ⟨hactive, hs, hin⟩ := hb.turn rfl
  obtain ⟨s, env, new, heq, -, hr, -, -⟩ := revalidateBatch_spec (c := c) now hs.count_le
  have hrequest : s.request = (w.slots i).request := by rw [hr.slot]
  have hvalid := hin.valid (by simp [Phase.isValid])
  have hnone : ∀ f, ¬(withdrawFour s).eligible f := by
    intro f hel
    by_cases hf : f < 4
    · simp [withdrawFour, Slot.eligible, hf] at hel
    · have h4 := (isBatch_count hready.batch).1
      have hlt := (hs.sound f (hr.outside f (by rw [← hs.count]; omega)
        (by simpa [withdrawFour, Slot.eligible, hf] using hel))).1
      omega
  rw [heq] at hf ⊢
  refine hb.act_kept hf rfl ?_ rfl ?_
  · simp only [setSlot_slots, Function.update_self, withdrawFour]
    rw [hr.slot]
    exact hactive
  · simp only [setSlot_slots, Function.update_self]
    have hnarrow := withdrawFour_narrows s
    refine hs.planned hrequest (hnarrow.count.trans hr.count)
      (fun f hf => (hnarrow.id f).trans (hr.id f hf)) (fun f _ hel => absurd hel (hnone f))
      (fun f _ hel => absurd hel (hnone f)) (fun ho => ?_) ?_ (fun _ => ?_) ?_
    · rw [withdrawFour, Slot.action, hr.slot]
      exact hs.lane ho
    · rw [withdrawFour, hr.slot]
      exact hin.idle
    · refine ⟨?_, ?_, fun _ => ?_, fun _ => ?_, by simp [Phase.isBatch], fun _ _ => hnone⟩
      · rw [withdrawFour, hr.slot]
        exact hin.live
      · rw [withdrawFour, hr.slot]
        exact hin.idle
      · rw [withdrawFour, Slot.action, hrequest]
        exact hin.action (by simp [Phase.isClosing])
      · rw [withdrawFour, hr.slot]
        exact hvalid
    · rw [withdrawFour, hr.slot]
      exact hvalid

/-- A batch is committed with the plan that was made again. -/
theorem Base.committed {i : ℕ} {now : OperationContext}
    {commit : ExecutionPlan → Boundary → σ → Reply σ BatchOutcome} (hb : Base c (.checked i now) w)
    (hf : ActFrame i (.checked i now) w (.batch i 0)
      (callCommit c commit now i (revalidateBatch c now i w).2).2)
    (hready : Ready c w i) (hok : (revalidateBatch c now i w).1) :
    Base c (.batch i 0) (callCommit c commit now i (revalidateBatch c now i w).2).2 := by
  obtain ⟨hactive, hs, hin⟩ := hb.turn rfl
  obtain ⟨s, env, new, heq, -, hr, -, -⟩ := revalidateBatch_spec (c := c) now hs.count_le
  have hrequest : s.request = (w.slots i).request := by rw [hr.slot]
  have hvalid := hin.valid (by simp [Phase.isValid])
  have hbatch : s.isBatch c := by
    have hold := hready.batch
    unfold Slot.isBatch Slot.action at hold ⊢
    rwa [hrequest, hr.count, ← hs.count]
  rw [heq] at hf ⊢
  refine hb.act_kept hf rfl ?_ rfl ?_
  · simp only [callCommit, call_slots, emit_slots, Function.update_self]
    rw [hr.slot]
    exact hactive
  · simp only [callCommit, call_slots, emit_slots, Function.update_self]
    refine hs.planned hrequest hr.count hr.id hr.outside (fun _ _ _ => hr.permuted hok)
      (fun ho => ?_) ?_ (fun _ => ?_) ?_
    · rw [Slot.action, hr.slot]
      exact hs.lane ho
    · rw [hr.slot]
      exact hin.idle
    · refine ⟨?_, ?_, fun _ => ?_, fun _ => ?_, fun _ => hbatch, by simp [Phase.isWalking]⟩
      · rw [hr.slot]
        exact hin.live
      · rw [hr.slot]
        exact hin.idle
      · rw [Slot.action, hrequest]
        exact hin.action (by simp [Phase.isClosing])
      · rw [hr.slot]
        exact hvalid
    · rw [hr.slot]
      exact hvalid

/-- A batch is published with the state it leads to. -/
theorem Base.published {i : ℕ} {version : ℕ} {event : EffectiveEvent} (hb : Base c (.batch i 4) w)
    (hf : ActFrame i (.batch i 4) w (.closing i)
      (recordEvent c i event { w with state := { w.state with version } })) :
    Base c (.closing i) (recordEvent c i event { w with state := { w.state with version } }) := by
  obtain ⟨hactive, hs, hin⟩ := hb.turn rfl
  have hvalid := hin.valid (by simp [Phase.isValid])
  rcases recordEvent_cases (c := c) i event { w with state := { w.state with version } } with
    heq | ⟨env, credits, revisions, -, heq⟩ <;> rw [heq] at hf ⊢
  · exact hb.narrowed rfl hf rfl rfl (s := w.slots i) rfl rfl rfl (.refl _) rfl rfl hin.closing hvalid
  · exact hb.narrowed rfl hf rfl rfl (s := { w.slots i with credits, revisions }) (by simp) rfl rfl
      (.refl _) rfl rfl ⟨hin.live, hin.idle, by simp [Phase.isClosing], by simp [Phase.isValid],
        by simp [Phase.isBatch], by simp [Phase.isWalking]⟩ hvalid

/-- A field is begun. -/
theorem Base.dispatched {i : ℕ} {field : ℕ} {now : OperationContext} (hb : Base c (.walking i now) w)
    (hf : ActFrame i (.walking i now) w .idle (dispatchField c now i field w))
    (hbegun : Begun w i field) :
    Base c .idle (dispatchField c now i field w) := by
  obtain ⟨hactive, hs, hin⟩ := hb.turn rfl
  have hvalid := hin.valid (by simp [Phase.isValid])
  have haction : (w.slots i).action = 2 := by
    have h0 := (hin.action (by simp [Phase.isClosing])).1
    have h1 := hbegun.action
    have h2 := hs.action_le
    omega
  have howner := (hin.action (by simp [Phase.isClosing])).2 haction
  refine hb.act_kept hf rfl (by simpa [dispatchField] using hactive) rfl ?_
  simp only [dispatchField, emit_slots, setSlot_slots, Function.update_self]
  exact hs.narrow rfl (.refl _) hs.lane
    (fun _ => ⟨howner, hin.live, hvalid, hbegun.step, hbegun.order,
      (hs.sound field hbegun.eligible).2, by simp [Phase.slot]⟩)
    (by simp [Phase.slot]) fun _ hr => absurd hvalid hr

/-- The end of a turn completes the transaction, and frees the lane. -/
theorem Base.finished {i : ℕ} {now : OperationContext} (hb : Base c (.closing i) w)
    (hf : ActFrame i (.closing i) w .idle (finish c i now w)) :
    Base c .idle (finish c i now w) := by
  obtain ⟨hactive, hs, hin⟩ := hb.turn rfl
  obtain ⟨s, env, hledger, -, heq⟩ := finish_spec (c := c) i now w
  rw [Slot.Ledger] at hledger
  rw [heq] at hf ⊢
  have hact : s.active := by
    rw [hledger]
    exact hactive
  refine hb.act_of hf (fun j hj => ?_) (fun _ => by simpa using hact) (by simp [Phase.slot])
    (fun _ => ?_) le_rfl
  · dsimp only
    split
    · next h => simp [h, Ne.symm hj]
    · exact Iff.rfl
  · simp only [Function.update_self]
    refine hs.narrow (by rw [hledger]) (by rw [hledger]; exact .refl _) (fun ho => ?_) (fun hr => ?_)
      (by simp [Phase.slot]) fun hc => absurd rfl hc
    · split at ho
      · cases ho
      · next h => exact absurd ho h
    · rw [hledger] at hr
      exact absurd hr hin.idle

/-- A transaction is admitted. -/
theorem Base.activated {i : ℕ} {now : OperationContext} {credits : AdmissionBundle} {gen : ℕ} (hb : Base c .idle w)
    (hf : ActFrame i .idle w .idle
      ({ w.setSlot i { w.slots i with credits, active := true, sequence := w.nextSequence } with
          associationGeneration := gen, nextSequence := w.nextSequence + 1 }.emit
        (.admitted w.nextSequence (w.slots i).request now)))
    (hlt : i < c.transactions) (hidle : (w.slots i).active = false) (hfresh : Fresh c now (w.slots i)) :
    Base c .idle ({ w.setSlot i { w.slots i with credits, active := true, sequence := w.nextSequence } with
          associationGeneration := gen, nextSequence := w.nextSequence + 1 }.emit
        (.admitted w.nextSequence (w.slots i).request now)) := by
  have hnone : w.effectOwner ≠ some i := by
    intro ho
    have := hb.owner i ho
    rw [hidle] at this
    cases this
  refine hb.act_of hf (fun _ _ => Iff.rfl) (fun ho => absurd ho hnone) (by simp [Phase.slot])
    (fun _ => ?_) (by simp [emit])
  simp only [emit_slots, setSlot_slots, Function.update_self]
  refine ⟨hlt, hfresh.wellFormed, hfresh.action_le, hfresh.timing_le, hfresh.count, hfresh.id,
    hfresh.sound, fun ho => absurd ho hnone, fun hr => ?_, by simp [Phase.slot], fun _ _ _ => ⟨hfresh.step, ?_, ?_⟩⟩
  · rw [hfresh.running] at hr
    cases hr
  · simp [hfresh.outcomes]
  · intro e he htx
    rcases List.mem_append.mp he with he | he
    · exact absurd htx (hb.log_lt e he).ne
    · obtain rfl := List.mem_singleton.mp he
      trivial

/-- A confirmed cancellation is only noted. -/
theorem Base.confirmed {i : ℕ} {id : FieldId} (hb : Base c .idle w)
    (hf : ActFrame i .idle w .idle (w.emit (.confirmed (w.slots i).sequence id)))
    (hactive : (w.slots i).active) :
    Base c .idle (w.emit (.confirmed (w.slots i).sequence id)) := by
  have hs := hb.slot i hactive
  refine hb.act_kept hf rfl hactive rfl (hs.narrow rfl (.refl _) hs.lane hs.running hs.phase
    fun hc hr hp => ?_)
  obtain ⟨hstep, hout, hlog⟩ := hs.early hc hr hp
  refine ⟨hstep, hout, fun e he htx => ?_⟩
  rcases List.mem_append.mp he with he | he
  · exact hlog e he htx
  · obtain rfl := List.mem_singleton.mp he
    trivial

/-- Every act keeps the invariant. -/
theorem Base.act {i : ℕ} (hb : Base c p w) (h : Act c i p w p' w') : Base c p' w' := by
  have hf := h.frame hb
  cases h with
  | settle _ hfind => exact hb.settled hf hfind
  | own hnone hlive haction => exact hb.owned hf hnone hlive haction
  | enter now hlt hlive haction howner hrunning =>
    obtain ⟨hactive, hcomplete⟩ := live_iff.mp hlive
    refine hb.enter hf hactive hrunning (fun _ => ⟨hcomplete, hrunning, fun _ => ⟨haction, howner⟩,
      ?_, ?_, ?_⟩) (by simp)
    all_goals simp [Phase.isValid, Phase.isBatch, Phase.isWalking]
  | query hlive haction => exact hb.queried hf hlive haction
  | drain hlive hrunning => exact hb.drained hf hlive hrunning
  | revalidate hnot => exact hb.revalidated hf hnot
  | defer hvalid hwaits => exact hb.deferred hf hvalid hwaits
  | @schedule _ now hvalid hwaits =>
    have hr := (reschedule_rescheduled (c := c) now (w.slots i)).trans (checkWindow_rescheduled now _)
    exact hb.rescheduled rfl hf hr (by simp [Phase.isClosing]) hvalid (by simp [Phase.isBatch])
      (by simp [Phase.isWalking])
  | unscheduled hvalid hnot =>
    obtain ⟨hactive, -, hin⟩ := hb.turn rfl
    refine hb.enter hf hactive hin.idle (fun _ => ⟨hin.live, hin.idle,
      fun _ => hin.action (by simp [Phase.isClosing]), fun _ => hvalid, ?_, ?_⟩) (by simp)
    all_goals simp [Phase.isBatch, Phase.isWalking]
  | boundary =>
    obtain ⟨-, -, hin⟩ := hb.turn rfl
    exact hb.rescheduled rfl hf (validateBoundaryState_rescheduled _ _) (by simp [Phase.isClosing])
      (hin.valid (by simp [Phase.isValid])) (by simp [Phase.isBatch]) (by simp [Phase.isWalking])
  | single hbatch =>
    obtain ⟨hactive, -, hin⟩ := hb.turn rfl
    refine hb.enter hf hactive hin.idle (fun _ => ⟨hin.live, hin.idle,
      fun _ => hin.action (by simp [Phase.isClosing]), fun _ => hin.valid (by simp [Phase.isValid]), ?_,
      fun _ h => absurd h hbatch⟩) (by simp)
    simp [Phase.isBatch]
  | unready hbatch =>
    obtain ⟨-, hs, hin⟩ := hb.turn rfl
    have hvalid := hin.valid (by simp [Phase.isValid])
    refine hb.narrowed rfl hf rfl rfl (s := withdrawFour (w.slots i)) (by simp) rfl rfl
      (withdrawFour_narrows _) rfl rfl ⟨hin.live, hin.idle,
        fun _ => hin.action (by simp [Phase.isClosing]), fun _ => hvalid, by simp [Phase.isBatch],
        fun _ _ => withdrawFour_not_eligible hs.sound (isBatch_count hbatch).1⟩ hvalid
  | recheck hready => exact hb.rechecked hf hready
  | commit hready hok _ => exact hb.committed hf hready hok
  | apply hk reported =>
    obtain ⟨hactive, -, hin⟩ := hb.turn rfl
    refine hb.applied (applyOutcome_applied ..) hf hactive (hin.valid (by simp [Phase.isValid]))
      fun _ s hrequest hplan hcomplete hrunning hrev => ?_
    refine hin.mono hrequest hplan hcomplete (by simp [hrunning]) (by simp [hrev]) ?_ ?_ ?_ ?_
    all_goals simp [Phase.isClosing, Phase.isValid, Phase.isBatch, Phase.isWalking]
  | unchanged =>
    obtain ⟨hactive, -, hin⟩ := hb.turn rfl
    exact hb.enter hf hactive hin.idle (fun _ => hin.closing) (by simp)
  | publish _ _ => exact hb.published hf
  | @pass _ field _ o h =>
    obtain ⟨-, -, hin⟩ := hb.turn rfl
    have hvalid := hin.valid (by simp [Phase.isValid])
    exact hb.narrowed rfl hf rfl rfl (s := skip (w.slots i) field o) (by simp) rfl rfl (.refl _) rfl rfl
      (hin.mono rfl (.refl _) rfl hin.idle id id id id id) hvalid
  | @block _ field _ =>
    obtain ⟨-, -, hin⟩ := hb.turn rfl
    have hvalid := hin.valid (by simp [Phase.isValid])
    rcases blockField_cases i field w with heq | heq <;> rw [heq] at hf ⊢
    · exact hb
    · exact hb.narrowed rfl hf rfl rfl (s := blockedSlot (w.slots i) field) (by simp) rfl rfl
        (blockedSlot_narrowed _ _).plan rfl rfl
        (hin.mono rfl (blockedSlot_narrowed _ _).plan rfl hin.idle id id id id id) hvalid
  | simulate reported =>
    obtain ⟨hactive, -, hin⟩ := hb.turn rfl
    refine hb.applied (applyOutcome_applied ..) hf hactive (hin.valid (by simp [Phase.isValid]))
      fun _ s hrequest hplan hcomplete hrunning hrev => ?_
    exact hin.mono hrequest hplan hcomplete (by simp [hrunning]) (by simp [hrev]) id id id id
  | stuck =>
    obtain ⟨hactive, -, hin⟩ := hb.turn rfl
    exact hb.enter hf hactive hin.idle (by simp [Phase.slot]) (by simp)
  | start _ hbegun => exact hb.dispatched hf hbegun
  | exhaust =>
    obtain ⟨hactive, -, hin⟩ := hb.turn rfl
    exact hb.enter hf hactive hin.idle (fun _ => hin.closing) (by simp)
  | finish _ => exact hb.finished hf
  | scratch hidle hinactive _ =>
    exact hb.act_idle hf hidle (by simpa using hinactive) rfl rfl
  | reserve hidle _ _ _ h =>
    obtain ⟨publisher, port, field, -, rfl⟩ := reserveTicket_spec h
    exact hb.act_idle hf hidle (by simpa using hidle) rfl rfl
  | drop hidle => exact hb.act_idle hf hidle (by simpa [dropTokens] using hidle) rfl rfl
  | activate hlt hidle hfresh _ _ => exact hb.activated hf hlt hidle hfresh
  | disarm hactive hrunning =>
    have hs := hb.slot i hactive
    exact hb.act_kept hf rfl hactive rfl (hs.narrow rfl (.refl _) hs.lane hs.running hs.phase
      fun _ hr => absurd (hs.running hrunning).revalidated hr)
  | confirm hactive => exact hb.confirmed hf hactive
  | release h =>
    obtain ⟨hactive, hcomplete, rfl⟩ := release_spec h
    refine hb.act_of hf (fun _ _ => Iff.rfl) (fun ho => ?_) (by simp [Phase.slot])
      (fun h => by simp at h) le_rfl
    exact absurd hcomplete ((hb.slot i hactive).lane ho).1

/-! ## Moves between the turns -/

/-- A fault is taken up from the port or not; the version does not fall. -/
theorem observeFault_cases (r : ℕ) (w : Engine σ) :
    ∃ port state faulted, observeFault w r = { w.setPort port with state, faulted } ∧
      w.state.version ≤ state.version := by
  unfold observeFault
  dsimp only
  split
  · split
    · split
      · exact ⟨_, w.state, true, rfl, le_rfl⟩
      · next k _ =>
        split
        · refine ⟨_, forget w.state k, true, rfl, ?_⟩
          simp only [forget]
          split <;> omega
        · exact ⟨_, w.state, true, rfl, le_rfl⟩
    · exact ⟨w.env.port.setGuard r fun g => { g with contradiction := false }, w.state, w.faulted, rfl,
        le_rfl⟩
  · exact ⟨w.env.port, w.state, w.faulted, rfl, le_rfl⟩

/-- What a move for no transaction in particular leaves as it is. -/
structure Still (p : Phase) (w w' : Engine σ) : Prop where
  slots : ∀ j, w'.slots j = { w.slots j with
    cancelled := (w'.slots j).cancelled, scheduleValid := (w'.slots j).scheduleValid
    responses := (w'.slots j).responses, responseRead := (w'.slots j).responseRead
    revisions := (w'.slots j).revisions }
  cancelled : ∀ j f, (w.slots j).cancelled f → (w'.slots j).cancelled f
  turn : p ≠ .idle → w'.state = w.state ∧ ∀ j, (w'.slots j).cancelled = (w.slots j).cancelled ∧
    (w'.slots j).scheduleValid = (w.slots j).scheduleValid
  owner : w'.effectOwner = w.effectOwner
  sequence : w'.nextSequence = w.nextSequence
  log : w'.log = w.log
  version : ∀ j, (w.slots j).active → w.state.version ≤ w'.state.version

theorem Quiet.still (h : Quiet c w w') : Still p w w' := by
  have hs := fun j => (show _ = _ from h.slots j)
  refine ⟨fun j => ?_, fun j f hf => ?_, fun _ => ⟨h.state, fun j => ⟨?_, ?_⟩⟩, h.owner, h.sequence, h.log,
    fun _ _ => by rw [h.state]⟩
  · rw [hs j]
  · rw [hs j]
    exact hf
  · rw [hs j]
  · rw [hs j]

theorem observeFault_still (r : ℕ) (w : Engine σ) : Still .idle w (observeFault w r) := by
  obtain ⟨port, state, faulted, heq, hle⟩ := observeFault_cases r w
  rw [heq]
  exact ⟨fun _ => rfl, fun _ _ hf => hf, fun hp => absurd rfl hp, rfl, rfl, rfl, fun _ _ => hle⟩

theorem mark_still {slots : ℕ → Slot} (h : ∀ j, (w.slots j).Marked (slots j)) :
    Still .idle w { w with slots } := by
  refine ⟨fun j => ?_, fun j f hf => (h j).cancelled f hf, fun hp => absurd rfl hp, rfl, rfl, rfl,
    fun _ _ => le_rfl⟩
  dsimp only
  rw [(h j).slot]

/-- Without a transaction nobody owns the lane. -/
theorem Base.owner_eq_none (hb : Base c p w) (hidle : ∀ i < c.transactions, (w.slots i).active = false) :
    (∀ j, ¬(w.slots j).active) ∧ w.effectOwner = none := by
  have hnone : ∀ j, ¬(w.slots j).active := by
    intro j hj
    rw [hidle j (hb.slot j hj).lt] at hj
    cases hj
  refine ⟨hnone, ?_⟩
  rcases ho : w.effectOwner with _ | j
  · rfl
  · exact absurd (hb.owner j ho) (hnone j)

theorem reset_still {port : Port} (hb : Base c .idle w) (state : StateSnapshot) (generation : ℕ)
    (hidle : ∀ i < c.transactions, (w.slots i).active = false) :
    Still .idle w { w.setPort port with
      state, associationGeneration := generation, faulted := false, quiescing := false
      effectOwner := none } := by
  obtain ⟨hnone, howner⟩ := hb.owner_eq_none hidle
  exact ⟨fun _ => rfl, fun _ _ hf => hf, fun hp => absurd rfl hp, howner.symm, rfl, rfl,
    fun j hj => absurd hj (hnone j)⟩

/-- A move is for one transaction, or leaves all of them alone. -/
theorem Move.cases (hb : Base c p w) (h : Move c p w p' w') :
    (∃ i, Act c i p w p' w') ∨ p' = p ∧ Still p w w' := by
  cases h with
  | quiet h => exact .inr ⟨rfl, h.still⟩
  | fault r => exact .inr ⟨rfl, observeFault_still r w⟩
  | act i h => exact .inl ⟨i, h⟩
  | mark h => exact .inr ⟨rfl, mark_still h⟩
  | reset state generation hidle => exact .inr ⟨rfl, reset_still hb state generation hidle⟩

/-- The slot of a transaction of which only the reports or the marks changed. -/
theorem SlotInv.still {owner : Option ℕ} {log : List Event} {j : ℕ} {s s' : Slot}
    (h : SlotInv c p owner log j s) (hs : s' = { s with
      cancelled := s'.cancelled, scheduleValid := s'.scheduleValid, responses := s'.responses
      responseRead := s'.responseRead, revisions := s'.revisions }) : SlotInv c p owner log j s' := by
  rw [hs]
  refine h.narrow rfl (.refl _) h.lane (fun hr => ?_) (fun hp => ?_) h.early
  · obtain ⟨h1, h2, h3, h4, h5, h6, h7⟩ := h.running hr
    exact ⟨h1, h2, h3, h4, h5, h6, h7⟩
  · exact (h.phase hp).mono rfl (.refl _) rfl (h.phase hp).idle (fun hv => hv) (fun hp => hp)
      (fun hp => hp) (fun hp => hp) (fun hp => hp)

/-- So do the moves that leave the slots as they are. -/
theorem Base.still (hb : Base c p w) (h : Still p w w') : Base c p w' where
  slot j hj := by
    rw [h.slots] at hj
    rw [h.owner, h.log]
    exact (hb.slot j hj).still (h.slots j)
  owner j hj := by
    rw [h.slots]
    exact hb.owner j (h.owner ▸ hj)
  phase j hj := by
    rw [h.slots]
    exact hb.phase j hj
  sequence_lt j hj := by
    rw [h.slots] at hj
    rw [h.slots, h.sequence]
    exact hb.sequence_lt j hj
  sequence_inj i j hi hj heq := by
    rw [h.slots] at hi hj
    rw [h.slots i, h.slots j] at heq
    exact hb.sequence_inj i j hi hj heq
  log_lt e he := by
    rw [h.log] at he
    rw [h.sequence]
    exact hb.log_lt e he

theorem Base.move (hb : Base c p w) (h : Move c p w p' w') : Base c p' w' := by
  rcases h.cases hb with ⟨i, h⟩ | ⟨rfl, h⟩
  · exact hb.act h
  · exact hb.still h

/-- The log only grows. -/
theorem Moves.log_extends (hb : Base c p w) (h : Moves c p w p' w') :
    Base c p' w' ∧ ∃ new, w'.log = w.log ++ new := by
  refine h.invariant (P := fun p v => Base c p v ∧ ∃ new, v.log = w.log ++ new)
    (fun p v p' v' ⟨hb, new, hnew⟩ hmove => ⟨hb.move hmove, ?_⟩) ⟨hb, [], (List.append_nil _).symm⟩
  rcases hmove.cases hb with ⟨i, hact⟩ | ⟨rfl, hstill⟩
  · obtain ⟨more, hmore, -⟩ := (hact.frame hb).log
    exact ⟨new ++ more, by rw [hmore, hnew, List.append_assoc]⟩
  · exact ⟨new, by rw [hstill.log, hnew]⟩

/-- What holds of a new engine and is kept by every move holds in every state of every run. -/
theorem base_invariant {P : Phase → Engine σ → Prop}
    (hinitial : ∀ ext pool state timeline, P .idle (initial ext pool state timeline))
    (hact : ∀ p w i p' w', Base c p w → P p w → Act c i p w p' w' → P p' w')
    (hstill : ∀ p w w', Base c p w → P p w → Still p w w' → P p w') (h : Reachable c w) :
    Base c .idle w ∧ P .idle w := by
  refine reachable_invariant (P := fun p w => Base c p w ∧ P p w) (fun ext pool state timeline => ?_)
    (fun p w p' w' hb h => ?_) h
  · refine ⟨⟨fun j hj => ?_, fun j hj => ?_, fun j hj => ?_, fun j hj => ?_, fun i j hi => ?_,
      fun e he => ?_⟩, hinitial ext pool state timeline⟩
    all_goals simp [initial, Phase.slot] at *
  · refine ⟨hb.1.move h, ?_⟩
    rcases h.cases hb.1 with ⟨i, h⟩ | ⟨rfl, h⟩
    · exact hact _ _ i _ _ hb.1 hb.2 h
    · exact hstill _ _ _ hb.1 hb.2 h

end Engine

end Vita.Transaction
