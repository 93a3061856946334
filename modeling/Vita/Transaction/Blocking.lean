import Vita.Transaction.Lane

/-!
# Commands that are executed as a whole

A command without partial execution is executed as a whole or not at all: all its fields are eligible
or none is, and an outcome other than executed withdraws the fields after it. One case is left out: a
field that depends on a cancelled field is withdrawn alone.

Main results:
- `Blocks`: what holds of the fields of a transaction;
- `dispatches_whole`: the statement about every run.
-/

namespace Vita.Transaction.Engine

open Checked Timing State Codec Trace

variable {σ : Type} {c : Config σ} {p p' : Phase} {w w' : Engine σ}

/-- No field from the present step on may be executed. -/
def Stopped (s : Slot) : Prop :=
  ∀ q, s.step ≤ q → q < s.execution.count → ¬s.eligible (s.execution.order q)

theorem Stopped.narrow {s s' : Slot} (h : Stopped s) (hplan : Narrows s.execution s'.execution)
    (hstep : s.step ≤ s'.step) : Stopped s' := by
  intro q hq hlt hel
  rw [hplan.count] at hlt
  rw [hplan.order] at hel
  exact h q (le_trans hstep hq) hlt (hplan.eligible _ hel)

/-- What holds of the fields of a transaction that is not complete. The four settings of a radio are
not executed one by one: they have no outcome before they are committed. -/
structure Blocks (c : Config σ) (p : Phase) (log : List Event) (j : ℕ) (s : Slot) : Prop where
  idle : s.isBatch c → ¬s.running
  step : s.isBatch c → (p.slot = some j → ¬p.isWalking ∧ ¬p.isBatch ∧ ¬p.isClosing) → s.step = 0
  silent : s.isBatch c → (p.slot = some j → ¬p.isBatch ∧ ¬p.isClosing) →
    ∀ cam o, .recorded s.sequence cam o ∉ log
  blocked : ∀ cam, .blocked s.sequence cam ∈ log → cam = s.request.cam
  stopped : ¬s.request.cam.partialAllowed →
    (∃ cam o, .recorded s.sequence cam o ∈ log ∧ o.status ≠ .executed) → Stopped s
  uniform : ¬s.request.cam.partialAllowed → (∀ cam, .blocked s.sequence cam ∉ log) →
    Uniform s.execution ∨ s.revalidated ∧ Stopped s

/-- The events of other transactions do not matter. -/
theorem Blocks.other {log new : List Event} {j : ℕ} {s : Slot} (h : Blocks c p log j s)
    (hp : p.slot ≠ some j) (hnew : ∀ e ∈ new, e.tx ≠ s.sequence) : Blocks c p' (log ++ new) j s := by
  have hmem : ∀ e : Event, e.tx = s.sequence → (e ∈ log ++ new ↔ e ∈ log) := by
    intro e htx
    rw [List.mem_append, or_iff_left]
    exact fun he => hnew e he htx
  refine ⟨h.idle, fun hb _ => h.step hb fun hp'' => absurd hp'' hp, fun hb _ cam o => ?_, fun cam hm => ?_,
    fun hpart ⟨cam, o, hm, ho⟩ => ?_, fun hpart hnone => ?_⟩
  · rw [hmem _ rfl]
    exact h.silent hb (fun hp'' => absurd hp'' hp) cam o
  · exact h.blocked cam ((hmem _ rfl).mp hm)
  · exact h.stopped hpart ⟨cam, o, (hmem _ rfl).mp hm, ho⟩
  · exact h.uniform hpart fun cam hm => hnone cam ((hmem _ rfl).mpr hm)

/-- A move for the transaction that records nothing, with a narrower plan. -/
theorem Blocks.narrow {log new : List Event} {j : ℕ} {s s' : Slot} (h : Blocks c p log j s)
    (hrequest : s'.request = s.request) (hseq : s'.sequence = s.sequence)
    (hplan : Narrows s.execution s'.execution) (hle : s.step ≤ s'.step)
    (hvalid : s.revalidated → s'.revalidated)
    (hidle : s.isBatch c → ¬s'.running)
    (hstep : s.isBatch c → (p'.slot = some j → ¬p'.isWalking ∧ ¬p'.isBatch ∧ ¬p'.isClosing) → s'.step = 0)
    (hsilent : (p'.slot = some j → ¬p'.isBatch ∧ ¬p'.isClosing) → p.slot = some j →
      ¬p.isBatch ∧ ¬p.isClosing)
    (hrecorded : ∀ cam o, .recorded s.sequence cam o ∉ new)
    (hblocked : ∀ cam, .blocked s.sequence cam ∈ new → cam = s.request.cam)
    (huniform : ¬s.request.cam.partialAllowed → (∀ cam, .blocked s.sequence cam ∉ new) →
      Uniform s.execution → Uniform s'.execution) : Blocks c p' (log ++ new) j s' := by
  have hbatch : s'.isBatch c = s.isBatch c := Narrows.isBatch hrequest hplan
  refine ⟨?_, ?_, fun hb hp cam o => ?_, fun cam hm => ?_, fun hpart ⟨cam, o, hm, ho⟩ => ?_,
    fun hpart hnone => ?_⟩
  · rw [hbatch]
    exact hidle
  · rw [hbatch]
    exact hstep
  · rw [hbatch] at hb
    rw [hseq, List.mem_append, not_or]
    exact ⟨h.silent hb (hsilent hp) cam o, hrecorded cam o⟩
  · rw [hrequest]
    rw [hseq] at hm
    rcases List.mem_append.mp hm with hm | hm
    · exact h.blocked cam hm
    · exact hblocked cam hm
  · rw [hrequest] at hpart
    rw [hseq] at hm
    rcases List.mem_append.mp hm with hm | hm
    · exact (h.stopped hpart ⟨cam, o, hm, ho⟩).narrow hplan hle
    · exact absurd hm (hrecorded cam o)
  · rw [hrequest] at hpart
    rw [hseq] at hnone
    rcases h.uniform hpart fun cam hm => hnone cam (List.mem_append_left _ hm) with hu | ⟨hv, hs⟩
    · exact .inl (huniform hpart (fun cam hm => hnone cam (List.mem_append_right _ hm)) hu)
    · exact .inr ⟨hvalid hv, hs.narrow hplan hle⟩

/-- The outcome of a field is recorded. -/
theorem Blocks.applied {j field : ℕ} {o : FieldOutcome} (h : Blocks c p w.log j (w.slots j))
    (happlied : Applied j field o w w') (hvalid : (w.slots j).revalidated)
    (hbatch : (w.slots j).isBatch c → p'.slot = some j ∧ p'.isBatch) :
    Blocks c p' w'.log j (w'.slots j) := by
  obtain ⟨hyp, credits, revisions, hs⟩ := happlied.slots
  obtain ⟨told, hlog, htold, -⟩ := happlied.log
  rw [hs, Function.update_self, hlog, List.append_assoc]
  generalize hold : { w.slots j with hypothetical := hyp, credits, revisions } = s
  have hplan := recordOutcome_narrows s field o
  have heq := recordOutcome_eq s field o
  have hblock : ∀ cam, .blocked s.sequence cam ∉ told ++ [.recorded (w.slots j).sequence
      (w.slots j).request.cam o] := by
    intro cam hm
    rcases List.mem_append.mp hm with hm | hm
    · cases htold _ hm
    · simp at hm
  have hrecorded : ∀ cam o', .recorded s.sequence cam o' ∈ told ++ [.recorded (w.slots j).sequence
      (w.slots j).request.cam o] → o' = o := by
    intro cam o' hm
    rcases List.mem_append.mp hm with hm | hm
    · cases htold _ hm
    · exact (Event.recorded.inj (List.mem_singleton.mp hm)).2.2
  have hrequest : s.request = (w.slots j).request := by rw [← hold]
  have hseq : s.sequence = (w.slots j).sequence := by rw [← hold]
  have hexec : s.execution = (w.slots j).execution := by rw [← hold]
  have hstep : s.step = (w.slots j).step := by rw [← hold]
  have hrev : s.revalidated := by rw [← hold]; exact hvalid
  have hisBatch : (recordOutcome s field o).isBatch c = (w.slots j).isBatch c := by
    refine Narrows.isBatch (by rw [heq]; exact hrequest) ?_
    rw [← hexec]
    exact hplan
  -- the fields after an outcome other than executed
  have hstopped : ¬s.request.cam.partialAllowed → o.status ≠ .executed →
      Stopped (recordOutcome s field o) := by
    intro hpart ho q hq hlt
    rw [heq] at hq
    rw [hplan.count] at hlt
    rw [hplan.order]
    exact recordOutcome_blocked ho hpart hq hlt
  have hlater : Stopped (w.slots j) → Stopped (recordOutcome s field o) := by
    intro hst
    refine hst.narrow (by rw [← hexec]; exact hplan) ?_
    rw [heq]
    exact le_trans hstep.ge (Nat.le_succ _)
  refine ⟨fun _ => by rw [heq]; simp, fun hb hp => ?_, fun hb hp => ?_, fun cam hm => ?_,
    fun hpart ⟨cam, o', hm, ho⟩ => ?_, fun hpart hnone => ?_⟩
  · obtain ⟨hp1, hp2⟩ := hbatch (hisBatch ▸ hb)
    exact absurd hp2 (hp hp1).2.1
  · obtain ⟨hp1, hp2⟩ := hbatch (hisBatch ▸ hb)
    exact absurd hp2 (hp hp1).1
  · rw [heq] at hm ⊢
    rw [hrequest]
    refine h.blocked cam ((List.mem_append.mp hm).elim (fun hm => hseq ▸ hm) fun hm => ?_)
    exact absurd hm (hblock cam)
  · rw [heq] at hpart hm
    rcases List.mem_append.mp hm with hm | hm
    · exact hlater (h.stopped (hrequest ▸ hpart) ⟨cam, o', hseq ▸ hm, ho⟩)
    · rw [hrecorded cam o' hm] at ho
      exact hstopped hpart ho
  · rw [heq] at hpart hnone
    by_cases ho : o.status = .executed
    · have hsame : (recordOutcome s field o).execution = (w.slots j).execution := by
        rw [← hexec]
        simp [recordOutcome, ho]
      rw [hsame]
      rcases h.uniform (hrequest ▸ hpart) fun cam hm =>
        hnone cam (List.mem_append_left _ (hseq ▸ hm)) with hu | ⟨-, hst⟩
      · exact .inl hu
      · exact .inr ⟨by rw [heq]; exact hrev, hlater hst⟩
    · exact .inr ⟨by rw [heq]; exact hrev, hstopped hpart ho⟩

/-- The plan of a batch is validated once more. -/
theorem Blocks.replanned {log new : List Event} {j : ℕ} {s s' : Slot} {now : OperationContext}
    (h : Blocks c (.checked j now) log j s) (hbatch : s.isBatch c) (hrequest : s'.request = s.request)
    (hseq : s'.sequence = s.sequence) (hrunning : ¬s'.running) (hstep : s'.step = s.step)
    (hrecorded : ∀ cam o, .recorded s.sequence cam o ∉ new)
    (hblocked : ∀ cam, .blocked s.sequence cam ∉ new) (huniform : Uniform s'.execution) :
    Blocks c p' (log ++ new) j s' := by
  have hopen : (Phase.checked j now).slot = some j → ¬(Phase.checked j now).isBatch ∧
      ¬(Phase.checked j now).isClosing := by
    simp [Phase.isBatch, Phase.isClosing]
  have hnone : ∀ cam o, .recorded s'.sequence cam o ∉ log ++ new := by
    intro cam o hm
    rw [hseq] at hm
    rcases List.mem_append.mp hm with hm | hm
    · exact h.silent hbatch hopen cam o hm
    · exact hrecorded cam o hm
  refine ⟨fun _ => hrunning, fun _ _ => ?_, fun _ _ => hnone, fun cam hm => ?_, ?_,
    fun _ _ => .inl huniform⟩
  · rw [hstep]
    exact h.step hbatch (by simp [Phase.isWalking, Phase.isBatch, Phase.isClosing])
  · rw [hrequest]
    rw [hseq] at hm
    exact h.blocked cam ((List.mem_append.mp hm).resolve_right (hblocked cam))
  · rintro _ ⟨cam, o, hm, -⟩
    exact absurd hm (hnone cam o)

/-- A new boundary blocks nothing. -/
theorem Blocks.rescheduled {log new : List Event} {j : ℕ} {s s' : Slot} (h : Blocks c p log j s)
    (hsound : Sound s.execution) (hidle : ¬s.running) (hr : Rescheduled s s')
    (hp : p.slot = some j → ¬p.isWalking ∧ ¬p.isBatch ∧ ¬p.isClosing)
    (hnew : ∀ e ∈ new, e = .deferred s.sequence) : Blocks c p' (log ++ new) j s' := by
  have hs := hr.slot
  refine h.narrow (by rw [hs]) (by rw [hs]) hr.plan (by rw [hs]) (fun hv => by rw [hs]; exact hv)
    (fun _ => by rw [hs]; exact hidle) (fun hb _ => ?_) (fun _ h => (hp h).2) (fun cam o hm => ?_)
    (fun cam hm => ?_) fun hpart _ hu => hr.uniform hpart hsound hu
  · rw [hs]
    exact h.step hb hp
  · cases hnew _ hm
  · cases hnew _ hm

/-- To withdraw a field that was not eligible makes no difference. -/
theorem blockedSlot_uniform {s : Slot} {field : ℕ} (hfield : ¬s.eligible field)
    (h : Uniform s.execution) : Uniform (blockedSlot s field).execution := by
  have hplan := (blockedSlot_narrowed s field).plan
  rcases h with hall | hnone
  · by_cases hlt : field < s.execution.count
    · exact absurd (hall field hlt) hfield
    · refine .inl fun f hf => ?_
      have hne : f ≠ field := fun heq => hlt (heq ▸ hf)
      simpa [blockedSlot, Function.update_of_ne hne] using hall f hf
  · exact hplan.uniform_of_none hnone

/-- In a turn of a slot. -/
theorem Blocks.turn {i : ℕ} (hb : Base c p w)
    (hbl : (w.slots i).live → Blocks c p w.log i (w.slots i)) (hp : p.slot = some i) :
    (w.slots i).active ∧ SlotInv c p w.effectOwner w.log i (w.slots i) ∧
      InPhase c p w.effectOwner i (w.slots i) ∧ Blocks c p w.log i (w.slots i) := by
  obtain ⟨hactive, hs, hin⟩ := hb.turn hp
  exact ⟨hactive, hs, hin, hbl (live_iff.mpr ⟨hactive, hin.live⟩)⟩

/-- Another phase, with the slot as it was. -/
theorem Blocks.same {i : ℕ} {log : List Event} {s : Slot} (h : Blocks c p log i s)
    (hstep : s.isBatch c → (p'.slot = some i → ¬p'.isWalking ∧ ¬p'.isBatch ∧ ¬p'.isClosing) →
      s.step = 0)
    (hsilent : (p'.slot = some i → ¬p'.isBatch ∧ ¬p'.isClosing) →
      p.slot = some i → ¬p.isBatch ∧ ¬p.isClosing) : Blocks c p' log i s :=
  ⟨h.idle, hstep, fun hb hp => h.silent hb (hsilent hp), h.blocked, h.stopped, h.uniform⟩

/-- Once all that is pending is cancelled, no field is left to be executed. -/
theorem Blocks.drained {i : ℕ} (hb : Base c .idle w)
    (hbl : (w.slots i).live → Blocks c .idle w.log i (w.slots i))
    (hlive : (w.slots i).live) (hrunning : ¬(w.slots i).running) :
    Blocks c (.closing i) (cancelPending i w).log i
      ((cancelPending i w).slots i) := by
  have hbl := hbl hlive
  have hs := (hb.slot i (live_iff.mp hlive).1)
  have hend : Stopped ((cancelPending i w).slots i) := by
    intro q hq hlt
    simp only [cancelPending, setSlot_slots, Function.update_self] at hq hlt
    exact absurd hlt (Nat.not_lt_of_le hq)
  refine ⟨fun _ => ?_, ?_, ?_, fun cam hm => ?_, fun _ _ => hend, fun hpart hnone => ?_⟩
  · simpa [cancelPending] using hrunning
  · simp [Phase.slot, Phase.isClosing]
  · simp [Phase.slot, Phase.isClosing]
  · simp only [cancelPending, setSlot_slots, Function.update_self] at hm ⊢
    exact hbl.blocked cam hm
  · simp only [cancelPending, setSlot_slots, Function.update_self] at hpart hnone ⊢
    refine (hbl.uniform hpart hnone).imp_right fun h => ⟨h.1, ?_⟩
    simpa [cancelPending] using hend

/-- The transaction has no outcome yet, and its plan is new. -/
theorem Blocks.revalidated {i : ℕ} {now : OperationContext} (hb : Base c (.planning i now) w)
    (hbl : (w.slots i).live → Blocks c (.planning i now) w.log i (w.slots i))
    (hnot : ¬(w.slots i).revalidated) :
    Blocks c (.planning i now) (revalidate c now i w).log i
      ((revalidate c now i w).slots i) := by
  obtain ⟨-, hs, hin, hbl⟩ := Blocks.turn hb hbl rfl
  obtain ⟨s, env, new, heq, -, hr, hnew⟩ := revalidate_spec (c := c) hnot hs.count_le
  obtain ⟨hstep, -, hearly⟩ := hs.early hin.live hnot (by simp)
  have hlog : ∀ e ∈ w.log ++ new, e.tx = (w.slots i).sequence → e.isEarly ∨
      e = .disordered (w.slots i).sequence := by
    intro e he htx
    rcases List.mem_append.mp he with he | he
    · exact .inl (hearly e he htx)
    · rcases hnew with ⟨-, rfl⟩ | rfl
      · cases he
      · exact .inr (List.mem_singleton.mp he)
  have hrecorded : ∀ cam o, .recorded (w.slots i).sequence cam o ∉ w.log ++ new := by
    intro cam o hm
    rcases hlog _ hm rfl with h | h <;> cases h
  have hblocked : ∀ cam, .blocked (w.slots i).sequence cam ∉ w.log ++ new := by
    intro cam hm
    rcases hlog _ hm rfl with h | h <;> cases h
  rw [heq]
  simp only [Function.update_self]
  have hseq : s.sequence = (w.slots i).sequence := by rw [hr.slot]
  refine ⟨fun _ => ?_, fun _ _ => ?_, fun _ _ cam o => ?_, fun cam hm => ?_, ?_,
    fun hpart _ => .inl ?_⟩
  · rw [hr.slot]
    exact hin.idle
  · rw [hr.slot]
    exact hstep
  · rw [hseq]
    exact hrecorded cam o
  · rw [hseq] at hm
    exact absurd hm (hblocked cam)
  · rintro _ ⟨cam, o, hm, -⟩
    rw [hseq] at hm
    exact absurd hm (hrecorded cam o)
  · rw [hr.slot] at hpart
    refine hr.uniform hs.count hpart ?_
    refine (hbl.uniform hpart fun cam hm => ?_).resolve_right fun h => hnot h.1
    exact hblocked cam (List.mem_append_left _ hm)

/-- A batch that is not committed is withdrawn as a whole. -/
theorem Blocks.rechecked {i : ℕ} {now : OperationContext} (hb : Base c (.checked i now) w)
    (hbl : (w.slots i).live → Blocks c (.checked i now) w.log i (w.slots i))
    (hready : Ready c w i) :
    Blocks c (.walking i now) ((revalidateBatch c now i w).2.setSlot i
        (withdrawFour ((revalidateBatch c now i w).2.slots i))).log i
      (((revalidateBatch c now i w).2.setSlot i
        (withdrawFour ((revalidateBatch c now i w).2.slots i))).slots i) := by
  obtain ⟨-, hs, hin, hbl⟩ := Blocks.turn hb hbl rfl
  obtain ⟨s, env, new, heq, -, hr, hnew, -⟩ := revalidateBatch_spec (c := c) now hs.count_le
  rw [heq]
  simp only [setSlot_slots, Function.update_self]
  have hdisordered : ∀ e ∈ new, e = .disordered (w.slots i).sequence := by
    rcases hnew with ⟨-, rfl⟩ | ⟨-, rfl⟩ <;> simp
  refine hbl.replanned hready.batch ?_ ?_ ?_ ?_ (fun cam o hm => ?_) (fun cam hm => ?_)
    (.inr fun f hf => ?_)
  · rw [withdrawFour, hr.slot]
  · rw [withdrawFour, hr.slot]
  · rw [withdrawFour, hr.slot]
    exact hin.idle
  · rw [withdrawFour, hr.slot]
  · cases hdisordered _ hm
  · cases hdisordered _ hm
  · have h4 : f < 4 := by
      rw [← (isBatch_count hready.batch).1, hs.count, ← hr.count]
      exact hf
    simp [withdrawFour, h4]

/-- A batch is committed with all its fields. -/
theorem Blocks.committed {i : ℕ} {now : OperationContext}
    {commit : ExecutionPlan → Boundary → σ → Reply σ BatchOutcome} (hb : Base c (.checked i now) w)
    (hbl : (w.slots i).live → Blocks c (.checked i now) w.log i (w.slots i))
    (hready : Ready c w i)
    (heligible : ∀ f < 4, ((revalidateBatch c now i w).2.slots i).eligible f) :
    Blocks c (.batch i 0) (callCommit c commit now i (revalidateBatch c now i w).2).2.log i
      ((callCommit c commit now i (revalidateBatch c now i w).2).2.slots i) := by
  obtain ⟨-, hs, hin, hbl⟩ := Blocks.turn hb hbl rfl
  obtain ⟨s, env, new, heq, -, hr, hnew, -⟩ := revalidateBatch_spec (c := c) now hs.count_le
  rw [heq] at heligible ⊢
  simp only [callCommit, call, emit, Function.update_self, List.append_assoc] at heligible ⊢
  have hnew' : ∀ e ∈ new, e = .disordered (w.slots i).sequence := by
    rcases hnew with ⟨-, rfl⟩ | ⟨-, rfl⟩ <;> simp
  refine hbl.replanned hready.batch ?_ ?_ ?_ ?_ (fun cam o hm => ?_) (fun cam hm => ?_)
    (.inl fun f hf => ?_)
  · rw [hr.slot]
  · rw [hr.slot]
  · rw [hr.slot]
    exact hin.idle
  · rw [hr.slot]
  · rcases List.mem_append.mp hm with hm | hm
    · cases hnew' _ hm
    · simp at hm
  · rcases List.mem_append.mp hm with hm | hm
    · cases hnew' _ hm
    · simp at hm
  · refine heligible f ?_
    rw [← (isBatch_count hready.batch).1, hs.count, ← hr.count]
    exact hf

/-- A withdrawn field is one that a cancelled field stops, or all fields are withdrawn. -/
theorem Blocks.withdrawn {i : ℕ} {field : ℕ} {now : OperationContext} (hb : Base c (.walking i now) w)
    (hbl : (w.slots i).live → Blocks c (.walking i now) w.log i (w.slots i)) :
    Blocks c (.walking i now) (blockField i field w).log i
      ((blockField i field w).slots i) := by
  obtain ⟨-, -, hin, hbl⟩ := Blocks.turn hb hbl rfl
  rcases blockField_cases i field w with heq | heq <;> rw [heq]
  · exact hbl
  · simp only [Function.update_self]
    refine hbl.narrow rfl rfl (blockedSlot_narrowed _ _).plan le_rfl (fun h => h) (fun _ => hin.idle) ?_
      (fun h => h) (fun cam o hm => ?_) (fun cam hm => ?_) fun _ hnone hu => ?_
    · simp [Phase.slot, Phase.isWalking]
    · split at hm <;> simp at hm
    · split at hm
      · exact (Event.blocked.inj (List.mem_singleton.mp hm)).2
      · cases hm
    · have hfield : ¬(w.slots i).eligible field := by
        intro hel
        rw [if_pos hel] at hnone
        exact hnone _ (List.mem_singleton.mpr rfl)
      exact blockedSlot_uniform hfield hu

/-- A transaction that is admitted has no events yet. -/
theorem Blocks.activated {i : ℕ} {now : OperationContext} {credits : AdmissionBundle} (hb : Base c .idle w)
    (hfresh : Fresh c now (w.slots i)) :
    Blocks c .idle (w.log ++ [.admitted w.nextSequence (w.slots i).request now]) i
      { w.slots i with credits, active := true, sequence := w.nextSequence } := by
  have hnone : ∀ e ∈ w.log ++ [.admitted w.nextSequence (w.slots i).request now],
      e.tx = w.nextSequence → ∃ r n, e = .admitted w.nextSequence r n := by
    intro e he htx
    rcases List.mem_append.mp he with he | he
    · exact absurd htx (hb.log_lt e he).ne
    · exact ⟨_, _, List.mem_singleton.mp he⟩
  refine ⟨fun _ => ?_, fun _ _ => hfresh.step, fun _ _ cam o hm => ?_, fun cam hm => ?_, ?_,
    fun hpart _ => .inl (hfresh.uniform hpart)⟩
  · simp [hfresh.running]
  · obtain ⟨r, n, h⟩ := hnone _ hm rfl
    cases h
  · obtain ⟨r, n, h⟩ := hnone _ hm rfl
    cases h
  · rintro _ ⟨cam, o, hm, -⟩
    obtain ⟨r, n, h⟩ := hnone _ hm rfl
    cases h

/-- Every act keeps what holds of the fields of its transaction. -/
theorem Blocks.act {i : ℕ} (hb : Base c p w) (hbl : (w.slots i).live → Blocks c p w.log i (w.slots i))
    (h : Act c i p w p' w') (hstays : (w'.slots i).live) : Blocks c p' w'.log i (w'.slots i) := by
  cases h with
  | @settle _ t record port htake hfind =>
    obtain ⟨reported, heq, -⟩ := consume_applied port hfind
    obtain ⟨-, hactive, hrunning, -⟩ := findRunning_eq_some hfind
    have hrun := (hb.slot i hactive).running hrunning
    have hbl := hbl (live_iff.mpr ⟨hactive, hrun.live⟩)
    rw [heq]
    refine Blocks.applied (w := w.setPort port) hbl (applyOutcome_applied ..) hrun.revalidated fun hbatch => ?_
    exact absurd hrunning (hbl.idle hbatch)
  | own _ hlive =>
    exact (hbl hlive).same (fun hbatch _ => (hbl hlive).step hbatch (by simp [Phase.slot]))
      (by simp [Phase.slot])
  | enter _ _ hlive =>
    exact (hbl hlive).same (fun hbatch _ => (hbl hlive).step hbatch (by simp [Phase.slot]))
      (by simp [Phase.slot])
  | query hlive haction =>
    exact (hbl hlive).same (fun hbatch _ => (hbl hlive).step hbatch (by simp [Phase.slot]))
      (by simp [Phase.slot])
  | unscheduled | single =>
    obtain ⟨-, -, -, hbl⟩ := Blocks.turn hb hbl rfl
    exact hbl.same (fun hbatch _ => hbl.step hbatch
      (by simp [Phase.isWalking, Phase.isBatch, Phase.isClosing]))
      (by simp [Phase.isBatch, Phase.isClosing])
  | unchanged | exhaust =>
    obtain ⟨-, -, -, hbl⟩ := Blocks.turn hb hbl rfl
    exact hbl.same (by simp [Phase.slot, Phase.isClosing]) (by simp [Phase.slot, Phase.isClosing])
  | stuck heligible =>
    obtain ⟨-, -, hin, hbl⟩ := Blocks.turn hb hbl rfl
    refine hbl.same (fun hbatch _ => ?_) (by simp [Phase.isBatch, Phase.isClosing])
    exact absurd heligible (hin.refused (by simp [Phase.isWalking]) hbatch _)
  | drain hlive hrunning => exact .drained hb hbl hlive hrunning
  | revalidate hnot => exact .revalidated hb hbl hnot
  | @defer _ now hvalid hwaits =>
    obtain ⟨-, hs, hin, hbl⟩ := Blocks.turn hb hbl rfl
    have hr := reschedule_rescheduled (c := c) now (w.slots i)
    simp only [emit_slots, setSlot_slots, Function.update_self, emit_log]
    refine hbl.rescheduled hs.sound hin.idle hr (by simp [Phase.isWalking, Phase.isBatch,
      Phase.isClosing]) fun e he => ?_
    rw [List.mem_singleton.mp he, hr.slot]
  | @schedule _ now =>
    obtain ⟨-, hs, hin, hbl⟩ := Blocks.turn hb hbl rfl
    have hr := (reschedule_rescheduled (c := c) now (w.slots i)).trans (checkWindow_rescheduled now _)
    rw [setSlot_slots, Function.update_self, ← List.append_nil (w.setSlot i _).log]
    exact hbl.rescheduled hs.sound hin.idle hr (by simp [Phase.isWalking, Phase.isBatch,
      Phase.isClosing]) (by simp)
  | boundary =>
    obtain ⟨-, hs, hin, hbl⟩ := Blocks.turn hb hbl rfl
    rw [setSlot_slots, Function.update_self, ← List.append_nil (w.setSlot i _).log]
    exact hbl.rescheduled hs.sound hin.idle (validateBoundaryState_rescheduled _ _)
      (by simp [Phase.isWalking, Phase.isBatch, Phase.isClosing]) (by simp)
  | unready hbatch =>
    obtain ⟨-, hs, hin, hbl⟩ := Blocks.turn hb hbl rfl
    rw [setSlot_slots, Function.update_self, ← List.append_nil (w.setSlot i _).log]
    refine hbl.replanned hbatch rfl rfl hin.idle rfl (by simp) (by simp) (.inr fun f _ => ?_)
    exact withdrawFour_not_eligible hs.sound (isBatch_count hbatch).1 f
  | recheck hready => exact .rechecked hb hbl hready
  | commit hready _ heligible => exact .committed hb hbl hready heligible
  | apply hk reported =>
    obtain ⟨-, -, hin, hbl⟩ := Blocks.turn hb hbl rfl
    exact hbl.applied (applyOutcome_applied ..) (hin.valid (by simp [Phase.isValid]))
      fun _ => ⟨rfl, by simp [Phase.isBatch]⟩
  | simulate reported _ _ _ haction =>
    obtain ⟨-, -, hin, hbl⟩ := Blocks.turn hb hbl rfl
    refine hbl.applied (applyOutcome_applied ..) (hin.valid (by simp [Phase.isValid])) fun hbatch => ?_
    have h2 := (isBatch_count hbatch).2
    omega
  | publish version event =>
    obtain ⟨-, -, hin, hbl⟩ := Blocks.turn hb hbl rfl
    rcases recordEvent_cases (c := c) i event { w with state := { w.state with version } } with
      heq | ⟨env, credits, revisions, -, heq⟩ <;> rw [heq]
    · exact hbl.same (by simp [Phase.slot, Phase.isClosing]) (by simp [Phase.slot, Phase.isClosing])
    · simp only [Function.update_self]
      refine hbl.narrow rfl rfl (.refl _) le_rfl (fun h => h) (fun _ => hin.idle) ?_ ?_ (by simp)
        (by simp) (fun _ _ h => h)
      · simp [Phase.slot, Phase.isClosing]
      · simp [Phase.slot, Phase.isClosing]
  | @pass _ field _ o h =>
    obtain ⟨-, -, hin, hbl⟩ := Blocks.turn hb hbl rfl
    rw [setSlot_slots, Function.update_self, ← List.append_nil (w.setSlot i _).log]
    refine hbl.narrow rfl rfl (.refl _) (Nat.le_succ _) (fun h => h) (fun _ => hin.idle) ?_ (fun h => h)
      (by simp) (by simp) (fun _ _ h => h)
    simp [Phase.slot, Phase.isWalking]
  | block => exact .withdrawn hb hbl
  | start hstart hbegun =>
    obtain ⟨-, -, hin, hbl⟩ := Blocks.turn hb hbl rfl
    have hbatch : ¬(w.slots i).isBatch c := fun hbatch =>
      hin.refused (by simp [Phase.isWalking]) hbatch _ hbegun.eligible
    simp only [dispatchField, emit_slots, setSlot_slots, Function.update_self, emit_log]
    exact hbl.narrow rfl rfl (.refl _) le_rfl (fun h => h) (fun h => absurd h hbatch)
      (fun h => absurd h hbatch) (by simp [Phase.isBatch, Phase.isClosing]) (by simp) (by simp)
      (fun _ _ h => h)
  | finish now =>
    obtain ⟨s, env, -, -, heq⟩ := finish_spec (c := c) i now w
    rw [heq, live_iff] at hstays
    simp at hstays
  | scratch _ hinactive => simp [Slot.live, hinactive] at hstays
  | reserve hi _ _ _ h =>
    obtain ⟨publisher, port, field, -, rfl⟩ := reserveTicket_spec h
    simp [Slot.live, hi] at hstays
  | drop hi => simp [Slot.live, dropTokens, hi] at hstays
  | activate _ hi hfresh =>
    simp only [emit_slots, setSlot_slots, Function.update_self]
    exact .activated hb hfresh
  | disarm hactive hrunning =>
    have hbl := hbl hstays
    exact hbl.narrow rfl rfl (.refl _) le_rfl (fun h => h) hbl.idle hbl.step (fun h => h) (by simp)
      (by simp) (fun _ _ h => h)
  | confirm =>
    have hbl := hbl hstays
    exact hbl.narrow rfl rfl (.refl _) le_rfl (fun h => h) hbl.idle hbl.step (fun h => h) (by simp)
      (by simp) (fun _ _ h => h)
  | release h =>
    obtain ⟨-, -, rfl⟩ := release_spec h
    simp [Slot.live] at hstays

theorem Blocks.still {log : List Event} {j : ℕ} {s s' : Slot} (h : Blocks c p log j s)
    (hs : s' = { s with
      cancelled := s'.cancelled, scheduleValid := s'.scheduleValid, responses := s'.responses
      responseRead := s'.responseRead, revisions := s'.revisions }) : Blocks c p log j s' := by
  rw [hs]
  exact ⟨h.idle, h.step, h.silent, h.blocked, h.stopped, h.uniform⟩

/-- The fields of all transactions. -/
def AllBlocks (c : Config σ) (p : Phase) (w : Engine σ) : Prop :=
  ∀ j, (w.slots j).live → Blocks c p w.log j (w.slots j)

theorem allBlocks_initial (ext : σ) (pool : AdmissionPool) (state : StateSnapshot)
    (timeline : Option SampleTimeline) : AllBlocks c .idle (initial ext pool state timeline) := by
  intro j hj
  simp [initial, Slot.live] at hj

/-- Every act keeps the order of blocking. -/
theorem AllBlocks.act {i : ℕ} (hb : Base c p w) (hbl : AllBlocks c p w) (h : Act c i p w p' w') :
    AllBlocks c p' w' := by
  intro j hj
  have hf := h.frame hb
  by_cases hji : j = i
  · subst hji
    exact Blocks.act hb (hbl j) h hj
  · obtain ⟨new, hnew, -⟩ := hf.log
    rw [hf.slots j hji] at hj ⊢
    rw [hnew]
    exact (hbl j hj).other (fun hp => hji (hf.before j hp))
      (hf.other_tx hb hnew hji (live_iff.mp hj).1)

theorem AllBlocks.still (hbl : AllBlocks c p w) (h : Still p w w') : AllBlocks c p w' := by
  intro j hj
  have hlive : (w.slots j).live := by
    rw [live_iff, h.slots j] at hj
    exact live_iff.mpr hj
  rw [h.log]
  exact (hbl j hlive).still (h.slots j)

/-! ## Commands without partial execution -/

/-- A field of a command without partial execution is dispatched only if all its fields are eligible,
and never after an outcome other than executed. -/
def Whole (log : List Event) : Prop :=
  Traced (fun pre e => ∀ d, e = .dispatched d → ¬d.cam.partialAllowed →
    (∀ f < d.plan.count, (d.plan.fields f).eligible) ∧
      ∀ cam o, .recorded d.tx cam o ∈ pre → o.status = .executed) log

/-- Commands without partial execution are executed as a whole, unless a field of one was refused
since a field it depends on was not executed. -/
theorem dispatches_whole (h : Reachable c w)
    (hblock : ∀ tx cam, .blocked tx cam ∈ w.log → cam.partialAllowed) : Whole w.log := by
  have hlog := dispatched_invariant (I := AllBlocks c)
    (P := fun pre d => (∀ tx cam, .blocked tx cam ∈ pre → cam.partialAllowed) →
      ¬d.cam.partialAllowed → (∀ f < d.plan.count, (d.plan.fields f).eligible) ∧
        ∀ cam o, .recorded d.tx cam o ∈ pre → o.status = .executed)
    allBlocks_initial (fun _ _ _ _ _ hb hbl hact => hbl.act hb hact)
    (fun _ _ _ _ hbl hstill => hbl.still hstill) ?_ h
  · intro pre e post hsplit d hd
    refine hlog pre e post hsplit d hd fun tx cam hm => hblock tx cam ?_
    rw [hsplit]
    exact List.mem_append_left _ hm
  · intro p w i d hb hbl hsends hblock hpart
    obtain ⟨hactive, -, -⟩ := hsends.owner hb
    cases hsends with
    | field hstart hbegun =>
      obtain ⟨-, hs, hin⟩ := hb.turn rfl
      have hbl := hbl i (live_iff.mpr ⟨hactive, hin.live⟩)
      have hgoes : ¬Stopped (w.slots i) := fun hst =>
        hst _ le_rfl hbegun.step (hbegun.order ▸ hbegun.eligible)
      refine ⟨?_, fun cam o hm => ?_⟩
      · have hnone : ∀ cam, .blocked (w.slots i).sequence cam ∉ w.log := by
          intro cam hm
          have hallowed := hblock _ cam hm
          rw [hbl.blocked cam hm] at hallowed
          exact hpart hallowed
        rcases hbl.uniform hpart hnone with (hall | hnone) | ⟨-, hst⟩
        · exact hall
        · exact absurd hbegun.eligible (hnone _ (hs.sound _ hbegun.eligible).1)
        · exact absurd hst hgoes
      · by_contra ho
        exact hgoes (hbl.stopped hpart ⟨cam, o, hm, ho⟩)
    | batch hready hplan heligible =>
      obtain ⟨-, hs, hin⟩ := hb.turn rfl
      refine ⟨fun f hf => heligible f ?_, fun cam o hm => ?_⟩
      · rw [← (isBatch_count hready.batch).1, hs.count]
        rw [hplan.count] at hf
        exact hf
      · exact absurd hm ((hbl i (live_iff.mpr ⟨hactive, hin.live⟩)).silent hready.batch
          (by simp [Phase.isBatch, Phase.isClosing]) cam o)

namespace Bench

/-- The cancellation of some fields. -/
def cancellation (messageId : UInt32) (fields : List FieldId) : PacketView :=
  { envelope := { envelope :=
      { type := .command, streamId := some 1, cancel := true
        command := some { cam := 0x09000000, messageId } } }
    fields := fields.map fun id => { id, attr := .current, kind := .selectors, bytes := [] } }

/-- A device whose sample rate depends on the reference point. -/
def dependent : Config Unit :=
  { config with backend := { config.backend with
      validate := some fun id value _ s =>
        { value := { adjusted := value, dependencies := if id = Field.sampleRate then 1 else 0 }
          next := s } } }

/-- Of three fields the first is cancelled, and the second depends on it. -/
def severed : List (Input Unit) :=
  [.accept (threeFields 1 immediate) (now 1 []),
    .cancel { slot := 0, generation := 1 } (cancellation 1 [Field.referencePoint]) (now 1 []) none,
    .progress (now 2 [])]

/-- The eligible fields of a dispatch without partial execution. -/
def eligibleFields : Event → Option (List Bool)
  | .dispatched d => if d.cam.partialAllowed then none
      else some ((List.range d.plan.count).map fun f => (d.plan.fields f).eligible)
  | _ => none

theorem severed_plan :
    ((run dependent start severed).log[3]?).bind eligibleFields = some [true, false, true] := by
  decide +kernel

end Bench

open Bench in
/-- The field that is left is dispatched although another one was refused. -/
theorem not_whole_severed : ∃ w, Reachable dependent w ∧ ¬Whole w.log := by
  refine ⟨run dependent start severed, ⟨(), _, {}, none, _, rfl⟩, fun h => ?_⟩
  have hplan := severed_plan
  obtain ⟨e, hk, he⟩ := Option.bind_eq_some_iff.mp hplan
  cases e with
  | dispatched d =>
    simp only [eligibleFields, Option.ite_none_left_eq_some, Option.some.injEq] at he
    obtain ⟨hpart, hel⟩ := he
    have hcount : d.plan.count = 3 := by simpa using congrArg List.length hel
    have hall := (h.get hk d rfl hpart).1 1 (by omega)
    rw [hcount] at hel
    simp [List.range, List.range.loop, hall] at hel
  | _ => cases he

open Bench in
/-- A run in which no field is refused. -/
theorem dispatches_whole_sequential :
    Reachable config (run config start sequential) ∧
      (∀ tx cam, .blocked tx cam ∈ (run config start sequential).log → cam.partialAllowed) ∧
      Whole (run config start sequential).log := by
  have hreachable : Reachable config (run config start sequential) := ⟨(), _, {}, none, _, rfl⟩
  have hblock : ∀ tx cam, .blocked tx cam ∈ (run config start sequential).log → cam.partialAllowed :=
    fun tx cam hm => absurd hm (not_logged sequential_log (by simp [mark]))
  exact ⟨hreachable, hblock, dispatches_whole hreachable hblock⟩

end Vita.Transaction.Engine
