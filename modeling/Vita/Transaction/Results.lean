import Vita.Transaction.Blocking

/-!
# The results of the fields

The fields of a transaction get their outcomes in the order of its plan. That every field of a complete
transaction has one rests on the order listing every field, which a validation that finds a dependency
cycle does not guarantee: it leaves the positions it has already written beside the old ones.

Main results:
- `Reports`: the outcomes of a transaction so far;
- `complete_results`: the statement about complete transactions.
-/

namespace Vita.Transaction.Engine

open Checked Timing State Codec Trace

variable {σ : Type} {c : Config σ} {p p' : Phase} {w w' : Engine σ}

/-- The field has a result. -/
def Slot.settled (s : Slot) (f : ℕ) : Prop := (s.outcomes f).status ≠ .pending

/-- The outcomes of a transaction. What is said of the order holds unless a validation has left it
without some field. -/
structure Reports (p : Phase) (log : List Event) (j : ℕ) (s : Slot) : Prop where
  id : ∀ f < s.execution.count, Slot.settled s f → (s.outcomes f).id = (s.execution.fields f).id
  permuted : .disordered s.sequence ∉ log → Permuted s.execution
  done : .disordered s.sequence ∉ log → ¬s.complete →
    (p.slot = some j → ¬p.isBatch ∧ ¬p.isClosing) →
    ∀ q < s.step, q < s.execution.count → Slot.settled s (s.execution.order q)
  batch : ∀ k, p = .batch j k → ∀ f < k, Slot.settled s f
  all : .disordered s.sequence ∉ log → s.action ≠ 0 → (s.complete ∨ p = .closing j) →
    ∀ f < s.execution.count, Slot.settled s f

theorem Reports.other {log new : List Event} {j : ℕ} {s : Slot} (h : Reports p log j s)
    (hp : p.slot ≠ some j) (hp' : p'.slot ≠ some j) : Reports p' (log ++ new) j s := by
  have hmem : .disordered s.sequence ∉ log ++ new → .disordered s.sequence ∉ log :=
    fun hnot hm => hnot (List.mem_append_left _ hm)
  refine ⟨h.id, fun hd => h.permuted (hmem hd), fun hd hc _ => h.done (hmem hd) hc fun hj => absurd hj hp,
    fun k hk => ?_, fun hd ha hc => h.all (hmem hd) ha (hc.imp_right fun hk => ?_)⟩
  · rw [hk] at hp'
    exact absurd rfl hp'
  · rw [hk] at hp'
    exact absurd rfl hp'

/-- The slot keeps its outcomes, with a narrower plan. -/
theorem Reports.narrow {log new : List Event} {j : ℕ} {s s' : Slot} (h : Reports p log j s)
    (hrequest : s'.request = s.request) (hseq : s'.sequence = s.sequence)
    (hplan : Narrows s.execution s'.execution) (houtcomes : s'.outcomes = s.outcomes)
    (hstep : s'.step = s.step) (hcomplete : s'.complete = s.complete)
    (hopen : p.slot = some j → ¬p.isBatch ∧ ¬p.isClosing)
    (hbatch : ∀ k, p' ≠ .batch j k) (hclosing : p' ≠ .closing j) : Reports p' (log ++ new) j s' := by
  have hmem : .disordered s'.sequence ∉ log ++ new → .disordered s.sequence ∉ log :=
    fun hnot hm => hnot (List.mem_append_left _ (hseq ▸ hm))
  have hsettled : ∀ f, Slot.settled s' f ↔ Slot.settled s f := by
    intro f
    rw [Slot.settled, houtcomes]
    rfl
  refine ⟨fun f hf hs => ?_, fun hd => ?_, fun hd hc _ q hq hlt => ?_, fun k hk => absurd hk (hbatch k),
    fun hd ha hc f hf => ?_⟩
  · rw [houtcomes, hplan.id]
    exact h.id f (hplan.count ▸ hf) ((hsettled f).mp hs)
  · exact hplan.permuted.mpr (h.permuted (hmem hd))
  · rw [hsettled, hplan.order]
    rw [hcomplete] at hc
    exact h.done (hmem hd) hc hopen q (hstep ▸ hq) (hplan.count ▸ hlt)
  · rw [hsettled]
    rw [Slot.action, hrequest] at ha
    rw [hcomplete] at hc
    exact h.all (hmem hd) ha (.inl (hc.resolve_right hclosing)) f (hplan.count ▸ hf)

/-- The turn of the transaction ends, with a result for every field. -/
theorem Reports.close {log new : List Event} {j : ℕ} {s s' : Slot} (h : Reports p log j s)
    (hseq : s'.sequence = s.sequence) (hplan : s'.execution = s.execution)
    (hid : ∀ f < s.execution.count, Slot.settled s' f → (s'.outcomes f).id = (s.execution.fields f).id)
    (hall : .disordered s.sequence ∉ log → s'.action ≠ 0 → ∀ f < s.execution.count, Slot.settled s' f) :
    Reports (.closing j) (log ++ new) j s' := by
  have hmem : .disordered s'.sequence ∉ log ++ new → .disordered s.sequence ∉ log :=
    fun hnot hm => hnot (List.mem_append_left _ (hseq ▸ hm))
  refine ⟨?_, fun hd => ?_, ?_, by simp, fun hd ha _ => ?_⟩
  · rw [hplan]
    exact hid
  · rw [hplan]
    exact h.permuted (hmem hd)
  · intro _ _ hopen
    exact absurd trivial (hopen rfl).2
  · rw [hplan]
    exact hall (hmem hd) ha

/-- The field of the present step gets its outcome. -/
theorem Reports.record {log new : List Event} {j field : ℕ} {s s' : Slot} {o : FieldOutcome}
    (h : Reports p log j s) (hseq : s'.sequence = s.sequence)
    (hplan : Narrows s.execution s'.execution)
    (houtcomes : s'.outcomes = Function.update s.outcomes field o) (hstep : s'.step = s.step + 1)
    (hid : o.id = (s.execution.fields field).id) (ho : o.status ≠ .pending)
    (hlive : ¬s.complete) (hlive' : ¬s'.complete) (hclosing : p' ≠ .closing j)
    (hfield : (p'.slot = some j → ¬p'.isBatch ∧ ¬p'.isClosing) →
      (p.slot = some j → ¬p.isBatch ∧ ¬p.isClosing) ∧ field = s.execution.order s.step)
    (hbatch : ∀ k, p' = .batch j k → p = .batch j field ∧ k = field + 1) :
    Reports p' (log ++ new) j s' := by
  have hmem : .disordered s'.sequence ∉ log ++ new → .disordered s.sequence ∉ log :=
    fun hnot hm => hnot (List.mem_append_left _ (hseq ▸ hm))
  have hself : Slot.settled s' field := by
    rw [Slot.settled, houtcomes, Function.update_self]
    exact ho
  have hother : ∀ f, f ≠ field → (s'.outcomes f) = s.outcomes f := by
    intro f hf
    rw [houtcomes, Function.update_of_ne hf]
  have hsettled : ∀ f, Slot.settled s f → Slot.settled s' f := by
    intro f hf
    by_cases heq : f = field
    · rw [heq]
      exact hself
    · rw [Slot.settled, hother f heq]
      exact hf
  refine ⟨fun f hf hs => ?_, fun hd => hplan.permuted.mpr (h.permuted (hmem hd)),
    fun hd _ hopen q hq hlt => ?_, fun k hk f hf => ?_, fun _ _ hc => ?_⟩
  · rw [hplan.id]
    by_cases heq : f = field
    · rw [heq, houtcomes, Function.update_self]
      exact hid
    · rw [Slot.settled, hother f heq] at hs
      rw [hother f heq]
      exact h.id f (hplan.count ▸ hf) hs
  · rw [hplan.order]
    obtain ⟨hopen', hfield⟩ := hfield hopen
    rw [hstep] at hq
    rcases Nat.lt_succ_iff_lt_or_eq.mp hq with hq | rfl
    · exact hsettled _ (h.done (hmem hd) hlive hopen' q hq (hplan.count ▸ hlt))
    · rw [← hfield]
      exact hself
  · obtain ⟨hp, rfl⟩ := hbatch k hk
    rcases Nat.lt_succ_iff_lt_or_eq.mp hf with hf | rfl
    · exact hsettled f (h.batch field hp f hf)
    · exact hself
  · exact absurd (hc.resolve_right hclosing) hlive'

/-- The plan is validated again before any outcome. -/
theorem Reports.replanned {log new : List Event} {j : ℕ} {s s' : Slot}
    (h : Reports p log j s) (hseq : s'.sequence = s.sequence)
    (hcount : s.execution.count = s.request.count) (hcount' : s'.execution.count = s.request.count)
    (hid : ∀ f < s.execution.count, (s.execution.fields f).id = (s.request.field f).id)
    (hid' : ∀ f < s.request.count, (s'.execution.fields f).id = (s.request.field f).id)
    (houtcomes : s'.outcomes = s.outcomes) (hstep : s'.step = 0) (hlive : ¬s'.complete)
    (hnew : Permuted s'.execution ∧ new = [] ∨ new = [.disordered s.sequence])
    (hclosing : p' ≠ .closing j) (hbatch : ∀ k, p' = .batch j k → k = 0) {more : List Event} :
    Reports p' (log ++ new ++ more) j s' := by
  refine ⟨fun f hf hs => ?_, fun hd => ?_, fun _ _ _ q hq => ?_, fun k hk f hf => ?_, fun _ _ hc => ?_⟩
  · rw [hcount'] at hf
    rw [Slot.settled, houtcomes] at hs
    rw [houtcomes, hid' f hf, ← hid f (hcount ▸ hf)]
    exact h.id f (hcount ▸ hf) hs
  · rcases hnew with ⟨hperm, -⟩ | rfl
    · exact hperm
    · refine absurd ?_ hd
      rw [hseq]
      simp
  · rw [hstep] at hq
    exact absurd hq (Nat.not_lt_zero q)
  · rw [hbatch k hk] at hf
    exact absurd hf (Nat.not_lt_zero f)
  · exact absurd (hc.resolve_right hclosing) hlive

/-- An outcome is applied to the field of the present step, or to the next field of a batch. -/
theorem Reports.applied {j field : ℕ} {reported : FieldOutcome} {publish : Bool}
    (h : Reports p w.log j (w.slots j)) (hlive : ¬(w.slots j).complete) (hclosing : p' ≠ .closing j)
    (hfield : (p'.slot = some j → ¬p'.isBatch ∧ ¬p'.isClosing) →
      (p.slot = some j → ¬p.isBatch ∧ ¬p.isClosing) ∧
        field = (w.slots j).execution.order (w.slots j).step)
    (hbatch : ∀ k, p' = .batch j k → p = .batch j field ∧ k = field + 1) :
    Reports p' (applyOutcome c publish j field reported w).log j
      ((applyOutcome c publish j field reported w).slots j) := by
  obtain ⟨⟨hyp, credits, revisions, hs⟩, -, -, -, -, told, hlog, -, -⟩ :=
    applyOutcome_applied (c := c) publish j field reported w
  rw [hs, Function.update_self, hlog, List.append_assoc]
  generalize ho : settledOutcome c w.quiescing (w.slots j) ((w.slots j).execution.fields field)
    reported = o
  have hplan := recordOutcome_narrows { w.slots j with hypothetical := hyp, credits, revisions } field o
  have heq := recordOutcome_eq { w.slots j with hypothetical := hyp, credits, revisions } field o
  refine h.record (o := o) ?_ hplan ?_ ?_ ?_ ?_ hlive ?_ hclosing hfield hbatch
  · rw [heq]
  · rw [heq]
  · rw [heq]
  · rw [← ho]
    exact settledOutcome_id ..
  · rw [← ho]
    exact settledOutcome_ne_pending _ _ _ _ _
  · rw [heq]
    exact hlive

/-- All positions of the order are done. -/
theorem Reports.exhausted {log : List Event} {j : ℕ} {s : Slot} {now : OperationContext}
    (h : Reports (.walking j now) log j s) (hlive : ¬s.complete) (hstep : s.execution.count ≤ s.step)
    (hd : .disordered s.sequence ∉ log) : ∀ f < s.execution.count, Slot.settled s f := by
  intro f hf
  obtain ⟨q, hq, rfl⟩ := h.permuted hd f hf
  exact h.done hd hlive (by simp [Phase.isBatch, Phase.isClosing]) q (lt_of_lt_of_le hq hstep) hq

theorem Reports.turn {i : ℕ} (hb : Base c p w) (hrep : (w.slots i).active → Reports p w.log i (w.slots i))
    (hp : p.slot = some i) : SlotInv c p w.effectOwner w.log i (w.slots i) ∧
      InPhase c p w.effectOwner i (w.slots i) ∧ Reports p w.log i (w.slots i) := by
  obtain ⟨hactive, hs, hin⟩ := hb.turn hp
  exact ⟨hs, hin, hrep hactive⟩

/-- Another phase, with the slot as it was. -/
theorem Reports.same {i : ℕ} {log : List Event} {s : Slot} (h : Reports p log i s)
    (hopen : p.slot = some i → ¬p.isBatch ∧ ¬p.isClosing) (hbatch : ∀ k, p' ≠ .batch i k)
    (hclosing : p' ≠ .closing i) : Reports p' log i s := by
  rw [← List.append_nil log]
  exact h.narrow rfl rfl (.refl _) rfl rfl rfl hopen hbatch hclosing

/-- The turn ends, with the slot as it was. -/
theorem Reports.stop {i : ℕ} {log : List Event} {s : Slot} (h : Reports p log i s)
    (hall : .disordered s.sequence ∉ log → s.action ≠ 0 →
      ∀ f < s.execution.count, Slot.settled s f) : Reports (.closing i) log i s := by
  rw [← List.append_nil log]
  exact h.close rfl rfl h.id hall

/-- The settings of a batch have their outcomes. -/
theorem Reports.batch_settled {i : ℕ} {log : List Event} {s : Slot} (h : Reports (.batch i 4) log i s)
    (hbatch : s.isBatch c) : ∀ f < s.execution.count, Slot.settled s f := by
  intro f hf
  rw [(isBatch_count hbatch).1] at hf
  exact h.batch 4 rfl f hf

/-- A batch that is published was reported. -/
theorem Reports.published {i : ℕ} {version : ℕ} {event : EffectiveEvent} (hb : Base c (.batch i 4) w)
    (hrep : (w.slots i).active → Reports (.batch i 4) w.log i (w.slots i)) :
    Reports (.closing i) (recordEvent c i event { w with state := { w.state with version } }).log i
      ((recordEvent c i event { w with state := { w.state with version } }).slots i) := by
  obtain ⟨-, hin, hrep⟩ := Reports.turn hb hrep rfl
  have hall := hrep.batch_settled (hin.batch (by simp [Phase.isBatch]))
  rcases recordEvent_cases (c := c) i event { w with state := { w.state with version } } with
    heq | ⟨env, credits, revisions, -, heq⟩ <;> rw [heq]
  · exact hrep.stop fun _ _ => hall
  · simp only [Function.update_self]
    exact hrep.close rfl rfl hrep.id fun _ _ => hall

/-- What is left pending by a cancellation has the cancelled field for its outcome. -/
theorem Reports.drained {i : ℕ} (hrep : (w.slots i).active → Reports .idle w.log i (w.slots i))
    (hlive : (w.slots i).live) :
    Reports (.closing i) (cancelPending i w).log i
      ((cancelPending i w).slots i) := by
  obtain ⟨hactive, hcomplete⟩ := live_iff.mp hlive
  have hrep := hrep hactive
  rw [cancelPending, setSlot_slots, Function.update_self, ← List.append_nil (w.setSlot i _).log]
  refine hrep.close rfl rfl (fun f hf hs => ?_) fun _ _ f hf => ?_
  · dsimp only
    split
    · rfl
    · next hp =>
      refine hrep.id f hf fun hpending => hp ⟨hf, hpending⟩
  · simp only [Slot.settled]
    split
    · simp
    · next hp => exact fun hpending => hp ⟨hf, hpending⟩

/-- The order is new, and no position of it is done. -/
theorem Reports.revalidated {i : ℕ} {now : OperationContext} (hb : Base c (.planning i now) w)
    (hrep : (w.slots i).active → Reports (.planning i now) w.log i (w.slots i))
    (hnot : ¬(w.slots i).revalidated) :
    Reports (.planning i now) (revalidate c now i w).log i
      ((revalidate c now i w).slots i) := by
  obtain ⟨hs, hin, hrep⟩ := Reports.turn hb hrep rfl
  obtain ⟨s, env, new, heq, -, hr, hnew⟩ := revalidate_spec (c := c) hnot hs.count_le
  obtain ⟨hstep, -, -⟩ := hs.early hin.live hnot (by simp)
  rw [heq, ← List.append_nil (w.log ++ new)]
  simp only [Function.update_self]
  refine hrep.replanned ?_ hs.count hr.count hs.id hr.id ?_ ?_ ?_
    hnew (by simp) (by simp)
  · rw [hr.slot]
  · rw [hr.slot]
  · rw [hr.slot]
    exact hstep
  · rw [hr.slot]
    exact hin.live

/-- A batch that is not committed is planned anew. -/
theorem Reports.rechecked {i : ℕ} {now : OperationContext} (hb : Base c (.checked i now) w)
    (hrep : (w.slots i).active → Reports (.checked i now) w.log i (w.slots i))
    (hbl : (w.slots i).live → Blocks c (.checked i now) w.log i (w.slots i)) (hready : Ready c w i) :
    Reports (.walking i now) ((revalidateBatch c now i w).2.setSlot i
        (withdrawFour ((revalidateBatch c now i w).2.slots i))).log i
      (((revalidateBatch c now i w).2.setSlot i
        (withdrawFour ((revalidateBatch c now i w).2.slots i))).slots i) := by
  obtain ⟨hs, hin, hrep⟩ := Reports.turn hb hrep rfl
  obtain ⟨s, env, new, heq, -, hr, hnew, -⟩ := revalidateBatch_spec (c := c) now hs.count_le
  have hplan := withdrawFour_narrows s
  have hstep := (hbl (live_iff.mpr ⟨hb.phase i rfl, hin.live⟩)).step hready.batch
    (by simp [Phase.isWalking, Phase.isBatch, Phase.isClosing])
  rw [heq, setSlot, ← List.append_nil (w.log ++ new)]
  simp only [Function.update_self]
  refine hrep.replanned ?_ hs.count (hplan.count.trans hr.count) hs.id
    (fun f hf => (hplan.id f).trans (hr.id f hf)) ?_ ?_ ?_
    (hnew.imp (fun h => ⟨hplan.permuted.mpr h.1, h.2⟩) And.right) (by simp) (by simp)
  · rw [withdrawFour, hr.slot]
  · rw [withdrawFour, hr.slot]
  · rw [withdrawFour, hr.slot]
    exact hstep
  · rw [withdrawFour, hr.slot]
    exact hin.live

/-- So is one that is committed. -/
theorem Reports.committed {i : ℕ} {now : OperationContext}
    {commit : ExecutionPlan → Boundary → σ → Reply σ BatchOutcome} (hb : Base c (.checked i now) w)
    (hrep : (w.slots i).active → Reports (.checked i now) w.log i (w.slots i))
    (hbl : (w.slots i).live → Blocks c (.checked i now) w.log i (w.slots i)) (hready : Ready c w i) :
    Reports (.batch i 0) (callCommit c commit now i (revalidateBatch c now i w).2).2.log i
      ((callCommit c commit now i (revalidateBatch c now i w).2).2.slots i) := by
  obtain ⟨hs, hin, hrep⟩ := Reports.turn hb hrep rfl
  obtain ⟨s, env, new, heq, -, hr, hnew, -⟩ := revalidateBatch_spec (c := c) now hs.count_le
  have hstep := (hbl (live_iff.mpr ⟨hb.phase i rfl, hin.live⟩)).step hready.batch
    (by simp [Phase.isWalking, Phase.isBatch, Phase.isClosing])
  rw [heq]
  simp only [callCommit, call, emit, Function.update_self]
  refine hrep.replanned ?_ hs.count hr.count hs.id hr.id ?_ ?_ ?_ (hnew.imp_right And.right)
    (by simp) fun k hk => (Phase.batch.inj hk).2.symm
  · rw [hr.slot]
  · rw [hr.slot]
  · rw [hr.slot]
    exact hstep
  · rw [hr.slot]
    exact hin.live

/-- A transaction whose turn ends has an outcome for each field. -/
theorem Reports.finished {i : ℕ} {now : OperationContext} (hb : Base c (.closing i) w)
    (hrep : (w.slots i).active → Reports (.closing i) w.log i (w.slots i)) :
    Reports .idle (finish c i now w).log i
      ((finish c i now w).slots i) := by
  obtain ⟨-, hin, hrep⟩ := Reports.turn hb hrep rfl
  obtain ⟨s, env, hledger, -, heq⟩ := finish_spec (c := c) i now w
  rw [Slot.Ledger] at hledger
  rw [heq]
  simp only [Function.update_self]
  rw [hledger]
  have hmem : .disordered (w.slots i).sequence ∉ w.log ++ [.completed (w.slots i).sequence] →
      .disordered (w.slots i).sequence ∉ w.log :=
    fun hnot hm => hnot (List.mem_append_left _ hm)
  exact ⟨hrep.id, fun hd => hrep.permuted (hmem hd), fun _ hc => absurd rfl hc, by simp,
    fun hd ha _ => hrep.all (hmem hd) ha (.inr rfl)⟩

/-- Every act keeps the outcomes that the reports rest on. -/
theorem Reports.act {i : ℕ} (hb : Base c p w) (hbl : (w.slots i).live → Blocks c p w.log i (w.slots i))
    (hrep : (w.slots i).active → Reports p w.log i (w.slots i)) (h : Act c i p w p' w')
    (hstays : (w'.slots i).active) : Reports p' w'.log i (w'.slots i) := by
  cases h with
  | @settle _ t record port htake hfind =>
    obtain ⟨reported, heq, -⟩ := consume_applied port hfind
    obtain ⟨-, hactive, hrunning, -⟩ := findRunning_eq_some hfind
    have hrun := (hb.slot i hactive).running hrunning
    rw [heq]
    exact Reports.applied (w := w.setPort port) (hrep hactive) hrun.live (by simp)
      (fun _ => ⟨by simp [Phase.slot], hrun.order⟩) (by simp)
  | own _ hlive => exact (hrep hstays).same (by simp [Phase.slot]) (by simp) (by simp)
  | enter => exact (hrep hstays).same (by simp [Phase.slot]) (by simp) (by simp)
  | query hlive haction =>
    exact (hrep hstays).stop fun _ h => absurd haction h
  | unscheduled | single | stuck =>
    obtain ⟨-, -, hrep⟩ := Reports.turn hb hrep rfl
    exact hrep.same (by simp [Phase.isBatch, Phase.isClosing]) (by simp) (by simp)
  | unchanged =>
    obtain ⟨-, hin, hrep⟩ := Reports.turn hb hrep rfl
    exact hrep.stop fun _ _ => hrep.batch_settled (hin.batch (by simp [Phase.isBatch]))
  | exhaust hstep =>
    obtain ⟨-, hin, hrep⟩ := Reports.turn hb hrep rfl
    exact hrep.stop fun hd _ => hrep.exhausted hin.live hstep hd
  | publish _ _ => exact .published hb hrep
  | drain hlive _ => exact .drained hrep hlive
  | revalidate hnot => exact .revalidated hb hrep hnot
  | @defer _ now hvalid hwaits =>
    obtain ⟨-, -, hrep⟩ := Reports.turn hb hrep rfl
    have hr := reschedule_rescheduled (c := c) now (w.slots i)
    simp only [emit_slots, setSlot_slots, Function.update_self, emit_log]
    exact hrep.narrow (by rw [hr.slot]) (by rw [hr.slot]) hr.plan (by rw [hr.slot]) (by rw [hr.slot])
      (by rw [hr.slot]) (by simp [Phase.isBatch, Phase.isClosing]) (by simp) (by simp)
  | @schedule _ now =>
    obtain ⟨-, -, hrep⟩ := Reports.turn hb hrep rfl
    have hr := (reschedule_rescheduled (c := c) now (w.slots i)).trans (checkWindow_rescheduled now _)
    rw [setSlot_slots, Function.update_self, ← List.append_nil (w.setSlot i _).log]
    exact hrep.narrow (by rw [hr.slot]) (by rw [hr.slot]) hr.plan (by rw [hr.slot]) (by rw [hr.slot])
      (by rw [hr.slot]) (by simp [Phase.isBatch, Phase.isClosing]) (by simp) (by simp)
  | boundary =>
    obtain ⟨-, -, hrep⟩ := Reports.turn hb hrep rfl
    have hr := validateBoundaryState_rescheduled (c := c) w.timeline (w.slots i)
    rw [setSlot_slots, Function.update_self, ← List.append_nil (w.setSlot i _).log]
    exact hrep.narrow (by rw [hr.slot]) (by rw [hr.slot]) hr.plan (by rw [hr.slot]) (by rw [hr.slot])
      (by rw [hr.slot]) (by simp [Phase.isBatch, Phase.isClosing]) (by simp) (by simp)
  | unready =>
    obtain ⟨-, -, hrep⟩ := Reports.turn hb hrep rfl
    rw [setSlot_slots, Function.update_self, ← List.append_nil (w.setSlot i _).log]
    exact hrep.narrow rfl rfl (withdrawFour_narrows _) rfl rfl rfl
      (by simp [Phase.isBatch, Phase.isClosing]) (by simp) (by simp)
  | recheck hready => exact .rechecked hb hrep hbl hready
  | commit hready _ _ => exact .committed hb hrep hbl hready
  | @apply _ k hk reported =>
    obtain ⟨-, hin, hrep⟩ := Reports.turn hb hrep rfl
    refine hrep.applied hin.live (by simp) (fun hopen => ?_) fun k' hk' => ?_
    · exact absurd trivial (hopen rfl).1
    · exact ⟨rfl, (Phase.batch.inj hk').2.symm⟩
  | @simulate _ field now reported hstep hfield heligible haction =>
    obtain ⟨-, hin, hrep⟩ := Reports.turn hb hrep rfl
    exact hrep.applied hin.live (by simp) (fun hopen => ⟨hopen, hfield⟩) (by simp)
  | @pass _ field _ o h =>
    obtain ⟨-, hin, hrep⟩ := Reports.turn hb hrep rfl
    rw [setSlot_slots, Function.update_self, ← List.append_nil (w.setSlot i _).log]
    refine hrep.record (o := o) rfl (.refl _) rfl rfl h.id ?_ hin.live hin.live (by simp)
      (fun hopen => ⟨hopen, h.order⟩) (by simp)
    rcases h.status with hstatus | hstatus <;> rw [hstatus] <;> decide
  | @block _ field _ =>
    obtain ⟨-, hin, hrep⟩ := Reports.turn hb hrep rfl
    rcases blockField_cases i field w with heq | heq <;> rw [heq]
    · exact hrep
    · simp only [Function.update_self]
      exact hrep.narrow rfl rfl (blockedSlot_narrowed _ _).plan rfl rfl rfl
        (by simp [Phase.isBatch, Phase.isClosing]) (by simp) (by simp)
  | start hstart hbegun =>
    obtain ⟨-, hin, hrep⟩ := Reports.turn hb hrep rfl
    simp only [dispatchField, emit_slots, setSlot_slots, Function.update_self, emit_log]
    exact hrep.narrow rfl rfl (.refl _) rfl rfl rfl (by simp [Phase.isBatch, Phase.isClosing]) (by simp)
      (by simp)
  | finish _ => exact .finished hb hrep
  | scratch _ hinactive => simp [hinactive] at hstays
  | reserve hi _ _ _ h =>
    obtain ⟨publisher, port, field, -, rfl⟩ := reserveTicket_spec h
    simp [hi] at hstays
  | drop hi => simp [dropTokens, hi] at hstays
  | activate _ hi hfresh =>
    simp only [emit_slots, setSlot_slots, Function.update_self]
    refine ⟨fun f _ hs => ?_, fun _ => hfresh.permuted, fun _ _ _ q hq => ?_, by simp, fun _ _ hc => ?_⟩
    · simp [Slot.settled, hfresh.outcomes] at hs
    · dsimp only at hq
      rw [hfresh.step] at hq
      exact absurd hq (Nat.not_lt_zero q)
    · simp [hfresh.complete] at hc
  | disarm | confirm =>
    exact (hrep hstays).narrow rfl rfl (.refl _) rfl rfl rfl (by simp [Phase.slot]) (by simp) (by simp)
  | release h =>
    obtain ⟨-, -, rfl⟩ := release_spec h
    simp at hstays

/-- Between the turns of any run the outcomes are in place. -/
theorem reports_of_reachable (h : Reachable c w) :
    ∀ j, (w.slots j).active → Reports .idle w.log j (w.slots j) := by
  refine (base_invariant (P := fun p w => AllBlocks c p w ∧
    ∀ j, (w.slots j).active → Reports p w.log j (w.slots j)) ?_ ?_ ?_ h).2.2
  · intro ext pool state timeline
    refine ⟨allBlocks_initial ext pool state timeline, fun j hj => ?_⟩
    simp [initial] at hj
  · rintro p w i p' w' hb ⟨hbl, hrep⟩ hact
    refine ⟨hbl.act hb hact, fun j hj => ?_⟩
    have hf := hact.frame hb
    by_cases hji : j = i
    · subst hji
      exact Reports.act hb (hbl j) (hrep j) hact hj
    · obtain ⟨new, hnew, -⟩ := hf.log
      rw [hf.slots j hji] at hj ⊢
      rw [hnew]
      exact (hrep j hj).other (fun hp => hji (hf.before j hp)) fun hp => hji (hf.after j hp)
  · rintro p w w' _ ⟨hbl, hrep⟩ hstill
    refine ⟨hbl.still hstill, fun j hj => ?_⟩
    rw [hstill.slots j] at hj ⊢
    rw [hstill.log]
    obtain ⟨h1, h2, h3, h4, h5⟩ := hrep j hj
    exact ⟨h1, h2, h3, h4, h5⟩

/-- A complete transaction that is executed or simulated has a result for every field, unless one of
its validations left an order without some field. -/
theorem complete_results (h : Reachable c w) {j : ℕ} (hactive : (w.slots j).active)
    (hcomplete : (w.slots j).complete) (haction : (w.slots j).action = 1 ∨ (w.slots j).action = 2)
    (hordered : .disordered (w.slots j).sequence ∉ w.log) {f : ℕ} (hf : f < (w.slots j).execution.count) :
    ((w.slots j).outcomes f).id = ((w.slots j).execution.fields f).id ∧
      ((w.slots j).outcomes f).status ≠ .pending := by
  have hrep := reports_of_reachable h j hactive
  have hsettled := hrep.all hordered (by omega) (.inl hcomplete) f hf
  exact ⟨hrep.id f hf hsettled, hsettled⟩

namespace Bench

/-- A device whose dependencies have a cycle in every state but the first. -/
def cyclic : Config Unit :=
  { config with backend := { config.backend with
      validate := some fun id value state s =>
        { value :=
            { adjusted := value
              dependencies :=
                if state.version = 0 then if id = Field.referencePoint then 4 else 0
                else if id = Field.referencePoint then 2
                else if id = Field.sampleRate then 1 else 0 }
          next := s } } }

/-- The state changes between the admission of three fields and their turn. -/
def disorder : List (Input Unit) :=
  [.accept (command 1 immediate {} [(Field.stateEvent, 7)]) (now 1 []),
    .accept (threeFields 2 immediate) (now 1 []),
    .progress (now 2 []), execute 0 Field.stateEvent 7, .progress (now 2 []), .progress (now 2 [])]

end Bench

open Bench in
/-- The order after a cycle lists one field twice and another one not at all. -/
theorem missing_result_disorder : ∃ w, Reachable cyclic w ∧ (w.slots 1).active ∧ (w.slots 1).complete ∧
    (w.slots 1).action = 2 ∧ 1 < (w.slots 1).execution.count ∧
    ((w.slots 1).outcomes 1).status = .pending := by
  refine ⟨run cyclic start disorder, ⟨(), _, {}, none, _, rfl⟩, ?_⟩
  decide +kernel

open Bench in
/-- The first transaction of a run without a cycle. -/
theorem complete_results_sequential :
    ((run config start sequential).slots 0).complete ∧
      (((run config start sequential).slots 0).outcomes 0).id =
        (((run config start sequential).slots 0).execution.fields 0).id ∧
      (((run config start sequential).slots 0).outcomes 0).status ≠ .pending := by
  have hstate : ((run config start sequential).slots 0).active ∧
      ((run config start sequential).slots 0).complete ∧
      ((run config start sequential).slots 0).action = 2 ∧
      0 < ((run config start sequential).slots 0).execution.count := by
    decide +kernel
  obtain ⟨hactive, hcomplete, haction, hcount⟩ := hstate
  have hreachable : Reachable config (run config start sequential) := ⟨(), _, {}, none, _, rfl⟩
  exact ⟨hcomplete, complete_results hreachable hactive hcomplete (.inr haction)
    (not_logged sequential_log (by simp [mark])) hcount⟩

end Vita.Transaction.Engine
