import Vita.Transport.Host
import Vita.Common.Slots

/-!
# What a transport promises (`transport/binding.hpp`)

A send rejection returns ownership; acceptance promises one deferred terminal completion, which is
distinct from the release of the slot. `Binding` is a transport of which only this is seen: the cells
of its slots, the submissions in them, the tickets and the history.

Main results:
- `Binding.Inv`: every accepted submission is in its slot, or its ticket has been published once;
- `Binding.Inv.settled`: what is known of a submission that is no longer outstanding.
-/

namespace Vita.Transport

open Checked Slots Trace
open Completion (CompletionResult)
open Transaction (AdmissionPool AdmissionBundle AdmissionRequest Resource)

/-! ## The host -/

/-- Credits that were just acquired are given back. -/
theorem reset_acquire {p admission : AdmissionPool} {request : AdmissionRequest}
    {credits : AdmissionBundle} (h : p.acquire request = .ok (credits, admission)) :
    admission.reset credits = p := by
  unfold AdmissionPool.acquire at h
  simp only [bind_eq_ok, rejectIf_eq_ok, exists_const, pure_eq_ok, Except.ok.injEq,
    Prod.mk.injEq] at h
  obtain ⟨-, -, rfl, rfl⟩ := h
  simp [AdmissionPool.reset]

@[simp] theorem dropSubmission_tickets (h : HostBindings) (submission : TxSubmission) :
    (h.dropSubmission submission).tickets = h.tickets := by
  unfold HostBindings.dropSubmission
  split <;> rfl

@[simp] theorem dropSubmission_counters (h : HostBindings) (submission : TxSubmission) :
    (h.dropSubmission submission).counters = h.counters := by
  unfold HostBindings.dropSubmission
  split <;> rfl

@[simp] theorem install_tickets (h : HostBindings) (batch : List CounterKey) :
    (h.install batch).tickets = h.tickets := by
  unfold HostBindings.install
  split <;> rfl

/-! ## Bindings -/

/-- The part of a history that is about slots. -/
def TxEvent.slotEvent {n : ℕ} : TxEvent → Option (Slots.Event n)
  | .accepted token sequence _ _ =>
    if h : token.slot < n then some (.accepted ⟨token.slot, h⟩ token.generation sequence) else none
  | .completed sequence _ => some (.completed sequence)
  | _ => none

structure Binding (n : ℕ) where
  cells : Fin n → Cell := fun _ => {}
  submissions : Fin n → Option TxSubmission := fun _ => none
  next : ℕ := 1
  tickets : Tickets := {}
  log : List TxEvent := []

namespace Binding

variable {n : ℕ}

def table (b : Binding n) : Table n :=
  { cells := b.cells, next := b.next, log := b.log.filterMap TxEvent.slotEvent }

def outstanding (b : Binding n) (token : TxToken) : Bool :=
  ∃ h : token.slot < n, (b.cells ⟨token.slot, h⟩).generation = token.generation ∧
    (b.cells ⟨token.slot, h⟩).phase ≠ .free ∧ (b.cells ⟨token.slot, h⟩).phase ≠ .retired

/-- The slot of a token keeps a submission that has been completed. -/
def quarantined (b : Binding n) (token : TxToken) : Prop :=
  ∃ (h : token.slot < n) (q : ℕ), b.cells ⟨token.slot, h⟩ = ⟨token.generation, .held q⟩

/-! ## Steps -/

/-- A free slot takes a submission. -/
def accept (b : Binding n) (i : Fin n) (submission : TxSubmission) (count : UInt8) : Binding n :=
  let generation := (b.cells i).generation
  { b with
    cells := Function.update b.cells i ⟨generation, .waiting b.next⟩
    submissions := Function.update b.submissions i (some submission)
    next := b.next + 1
    log := b.log ++ [.accepted ⟨i, generation⟩ b.next submission count] }

/-- A submission's ticket is published; its cell becomes `c`. -/
def complete (b : Binding n) (i : Fin n) (submission : TxSubmission) (sequence : ℕ)
    (result : CompletionResult) (c : Cell) : Binding n :=
  { b with
    cells := Function.update b.cells i c
    submissions := Function.update b.submissions i none
    tickets := (submission.completion.publish result b.tickets).2
    log := b.log ++ [.completed sequence result] }

/-- The last generation of a slot. -/
abbrev lastGeneration : ℕ := sizeMax

inductive Step (b : Binding n) : Binding n → Prop
  | accept (i : Fin n) (submission : TxSubmission) (count : UInt8) : (b.cells i).phase = .free →
      submission.completion.isReserved b.tickets → Step b (b.accept i submission count)
  | complete (i : Fin n) (submission : TxSubmission) (q : ℕ) (result : CompletionResult) :
      (b.cells i).phase = .waiting q → b.submissions i = some submission →
      Step b (b.complete i submission q result ((b.cells i).vacated lastGeneration))
  | hold (i : Fin n) (submission : TxSubmission) (q : ℕ) (result : CompletionResult) :
      (b.cells i).phase = .waiting q → b.submissions i = some submission →
      Step b (b.complete i submission q result { b.cells i with phase := .held q })
  | release (i : Fin n) (q : ℕ) : (b.cells i).phase = .held q →
      Step b { b with cells := Function.update b.cells i ((b.cells i).vacated lastGeneration) }
  | note (e : TxEvent) : (e.slotEvent : Option (Slots.Event n)) = none →
      (∀ token q submission count, e ≠ .accepted token q submission count) →
      Step b { b with log := b.log ++ [e] }
  | reserve (ticket : ℕ) : Step b { b with tickets := b.tickets.reserve ticket }
  | publish (ticket : ℕ) (result : CompletionResult) :
      Step b { b with tickets := (b.tickets.publish ticket result).2 }

abbrev Steps : Binding n → Binding n → Prop := Relation.ReflTransGen Step

/-! ## Tickets -/

/-- A ticket that is reserved has not been published, and none is published twice. -/
def TicketsOk (t : Tickets) : Prop :=
  ∀ ticket, t.publications ticket ≤ 1 ∧ (t.reserved ticket → t.publications ticket = 0)

/-- The ticket has been published, or can be. -/
def Due (t : Tickets) (ticket : ℕ) : Prop := t.reserved ticket ∨ t.publications ticket = 1

variable {t : Tickets} {ticket ticket' : ℕ} {result : CompletionResult}

theorem publications_publish (h : t.reserved ticket) :
    (t.publish ticket result).2.publications ticket' =
      t.publications ticket' + if ticket' = ticket then 1 else 0 := by
  unfold Tickets.publish Tickets.publications
  rw [if_pos h]
  by_cases heq : ticket' = ticket
  · simp [heq]
  · simp [heq, Ne.symm heq]

theorem publish_of_not (h : ¬t.reserved ticket) : (t.publish ticket result).2 = t := by
  unfold Tickets.publish
  rw [if_neg h]

theorem reserved_publish (h : t.reserved ticket) :
    (t.publish ticket result).2.reserved = Function.update t.reserved ticket false := by
  unfold Tickets.publish
  rw [if_pos h]

/-- A publication keeps the tickets in order. -/
theorem TicketsOk.publish (h : TicketsOk t) : TicketsOk (t.publish ticket result).2 := by
  by_cases hreserved : t.reserved ticket
  · intro other
    have hcount := (h ticket).2 hreserved
    rw [publications_publish hreserved, reserved_publish hreserved]
    by_cases heq : other = ticket
    · subst heq
      simp [hcount]
    · simpa [heq, Function.update_of_ne heq] using h other
  · rw [publish_of_not hreserved]
    exact h

/-- Publishing a ticket that is due settles it. -/
theorem publications_of_due (h : TicketsOk t) (hdue : Due t ticket) :
    (t.publish ticket result).2.publications ticket = 1 := by
  by_cases hreserved : t.reserved ticket
  · rw [publications_publish hreserved, (h ticket).2 hreserved, if_pos rfl]
  · rw [publish_of_not hreserved]
    exact hdue.resolve_left hreserved

/-- What is due stays due. -/
theorem Due.publish (h : TicketsOk t) (hdue : Due t ticket') :
    Due (t.publish ticket result).2 ticket' := by
  by_cases heq : ticket' = ticket
  · subst heq
    exact .inr (publications_of_due h hdue)
  · by_cases hreserved : t.reserved ticket
    · unfold Due
      rw [publications_publish hreserved, reserved_publish hreserved, Function.update_of_ne heq,
        if_neg heq]
      exact hdue
    · rw [publish_of_not hreserved]
      exact hdue

/-- What has been published stays so. -/
theorem published_publish (h : TicketsOk t) (hone : t.publications ticket' = 1) :
    (t.publish ticket result).2.publications ticket' = 1 := by
  by_cases heq : ticket' = ticket
  · subst heq
    exact publications_of_due h (.inr hone)
  · by_cases hreserved : t.reserved ticket
    · rw [publications_publish hreserved, if_neg heq]
      exact hone
    · rw [publish_of_not hreserved]
      exact hone

theorem publications_reserve : (t.reserve ticket).publications ticket' = t.publications ticket' := by
  unfold Tickets.reserve Tickets.publications
  split <;> rfl

/-- A reservation keeps the tickets in order. -/
theorem TicketsOk.reserve (h : TicketsOk t) : TicketsOk (t.reserve ticket) := by
  intro other
  rw [publications_reserve]
  refine ⟨(h other).1, fun hreserved => ?_⟩
  unfold Tickets.reserve at hreserved
  split at hreserved
  · exact (h other).2 hreserved
  · next hfresh =>
    by_cases heq : other = ticket
    · subst heq
      exact List.count_eq_zero.mpr hfresh
    · change Function.update t.reserved ticket true other at hreserved
      rw [Function.update_of_ne heq] at hreserved
      exact (h other).2 hreserved

/-- A reservation leaves what is due. -/
theorem Due.reserve (hdue : Due t ticket') : Due (t.reserve ticket) ticket' := by
  unfold Due
  rw [publications_reserve]
  refine hdue.imp_left fun hreserved => ?_
  unfold Tickets.reserve
  split
  · exact hreserved
  · by_cases heq : ticket' = ticket
    · subst heq
      exact Function.update_self ..
    · simpa [Function.update_of_ne heq] using hreserved

/-! ### The life of a ticket -/

/-- The ticket of the arena that a number stands for: one generation of a slot. -/
def life (t : Tickets) (ticket : ℕ) : Completion.Ticket where
  generation := 1
  phase := if t.reserved ticket then .reserved 0
    else match t.published.find? (·.1 = ticket) with
      | some (_, result) => .ready 0 result
      | none => .free

/-- A number that was never published has no result. -/
theorem find?_published (h : t.publications ticket = 0) : t.published.find? (·.1 = ticket) = none := by
  rw [List.find?_eq_none]
  intro e he heq
  refine List.count_eq_zero.mp h (List.mem_map.mpr ⟨e, he, ?_⟩)
  simpa using heq

/-- A publication is a claim and its end. -/
theorem TicketsOk.leads_publish (h : TicketsOk t) :
    (life t ticket').Leads (life (t.publish ticket result).2 ticket') := by
  by_cases hreserved : t.reserved ticket
  · by_cases heq : ticket' = ticket
    · subst heq
      refine ⟨[(1, .claim 0), (1, .finish 0 result)], ?_⟩
      have hnone := find?_published ((h ticket').2 hreserved)
      simp [life, Tickets.publish, hreserved, hnone, List.find?_append, Completion.Ticket.replay,
        Completion.Ticket.next]
    · have hlife : life (t.publish ticket result).2 ticket' = life t ticket' := by
        simp [life, Tickets.publish, hreserved, Function.update_of_ne heq, List.find?_append, Ne.symm heq]
      rw [hlife]
      exact .refl _
  · rw [publish_of_not hreserved]
    exact .refl _

/-- A reservation is the first event of a ticket. -/
theorem leads_reserve : (life t ticket').Leads (life (t.reserve ticket) ticket') := by
  unfold Tickets.reserve
  split
  · exact .refl _
  · next hfresh =>
    by_cases heq : ticket' = ticket
    · subst heq
      have hnone := find?_published (List.count_eq_zero.mpr hfresh)
      by_cases hreserved : t.reserved ticket'
      · have hlife : life { t with reserved := Function.update t.reserved ticket' true } ticket' =
            life t ticket' := by simp [life, hreserved]
        rw [hlife]
        exact .refl _
      · refine ⟨[(1, .reserve 0)], ?_⟩
        simp [life, hreserved, hnone, Completion.Ticket.replay, Completion.Ticket.next]
    · have hlife : life { t with reserved := Function.update t.reserved ticket true } ticket' =
          life t ticket' := by simp [life, Function.update_of_ne heq]
      rw [hlife]
      exact .refl _

/-! ## The invariant -/

/-- When a slot takes a submission, the ones it took before have been completed and are of earlier
generations. -/
def Reuse (log : List TxEvent) (e : TxEvent) : Prop :=
  ∀ token q submission count, e = .accepted token q submission count →
    ∀ token' q' submission' count', .accepted token' q' submission' count' ∈ log →
      token'.slot = token.slot → token'.generation < token.generation ∧ ∃ result, .completed q' result ∈ log

structure Inv (b : Binding n) : Prop where
  table : Table.Inv lastGeneration b.table
  tickets : TicketsOk b.tickets
  /-- The submission of a cell that waits is the one that was accepted. -/
  waiting : ∀ i q, (b.cells i).phase = .waiting q → ∃ submission count,
    b.submissions i = some submission ∧
      .accepted ⟨i, (b.cells i).generation⟩ q submission count ∈ b.log
  accepted : ∀ token q submission count, .accepted token q submission count ∈ b.log →
    token.slot < n ∧ q < b.next ∧ submission.completion.active ∧
      Due b.tickets submission.completion.ticket
  /-- A sequence number is of one submission. -/
  unique : ∀ token q submission count token' submission' count',
    .accepted token q submission count ∈ b.log → .accepted token' q submission' count' ∈ b.log →
      submission = submission'
  completed : ∀ token q submission count result, .accepted token q submission count ∈ b.log →
    .completed q result ∈ b.log → b.tickets.publications submission.completion.ticket = 1
  reuse : Traced Reuse b.log

theorem inv_empty : Inv ({} : Binding n) where
  table := Table.inv_empty (by decide)
  tickets := by
    intro ticket
    exact ⟨Nat.zero_le _, fun _ => rfl⟩
  waiting := by simp
  accepted := by simp
  unique := by simp
  completed := by simp
  reuse := traced_nil _

variable {b b' : Binding n}

theorem table_accept (i : Fin n) (submission : TxSubmission) (count : UInt8) :
    (b.accept i submission count).table = b.table.accept i := by
  simp [table, accept, Table.accept, Table.setCell, TxEvent.slotEvent, List.filterMap_append]

theorem table_complete (i : Fin n) (submission : TxSubmission) (q : ℕ) (result : CompletionResult)
    (c : Cell) : (b.complete i submission q result c).table = b.table.complete i q c := by
  simp [table, complete, Table.complete, Table.setCell, TxEvent.slotEvent, List.filterMap_append]

/-- What has become of an accepted submission. -/
theorem Inv.fate (h : b.Inv) {token : TxToken} {q : ℕ} {submission : TxSubmission} {count : UInt8}
    (hmem : .accepted token q submission count ∈ b.log) :
    ∃ hlt : token.slot < n, Table.Fate b.table ⟨token.slot, hlt⟩ token.generation q := by
  have hlt := (h.accepted _ _ _ _ hmem).1
  refine ⟨hlt, h.table.fate _ _ _ (List.mem_filterMap.mpr ⟨_, hmem, ?_⟩)⟩
  simp only [TxEvent.slotEvent, dif_pos hlt]

/-- A completion that the table counts is in the history. -/
theorem exists_completed {q : ℕ} (h : b.table.log.count (.completed q) = 1) :
    ∃ result, .completed q result ∈ b.log := by
  have hmem : Slots.Event.completed q ∈ b.table.log := List.count_pos_iff.mp (by omega)
  obtain ⟨e, he, hevent⟩ := List.mem_filterMap.mp hmem
  cases e with
  | accepted token q' submission count =>
    simp only [TxEvent.slotEvent] at hevent
    split at hevent <;> cases hevent
  | completed q' result =>
    cases hevent
    exact ⟨result, he⟩
  | delivered => cases hevent
  | sent => cases hevent
  | received => cases hevent

/-- An occupied cell holds a submission that was accepted. -/
theorem Inv.occupied (h : b.Inv) {i : Fin n} {q : ℕ}
    (hi : (b.cells i).phase = .waiting q ∨ (b.cells i).phase = .held q) :
    ∃ submission count, .accepted ⟨i, (b.cells i).generation⟩ q submission count ∈ b.log := by
  obtain ⟨e, he, hevent⟩ := List.mem_filterMap.mp (h.table.occupied i q hi)
  cases e with
  | accepted token q' submission count =>
    simp only [TxEvent.slotEvent] at hevent
    split at hevent
    · next hlt =>
      simp only [Option.some.injEq, Slots.Event.accepted.injEq] at hevent
      obtain ⟨rfl, hgeneration, rfl⟩ := hevent
      have htoken : token = ⟨token.slot, (b.cells ⟨token.slot, hlt⟩).generation⟩ :=
        congrArg (TxToken.mk token.slot) hgeneration
      exact ⟨submission, count, htoken ▸ he⟩
    · cases hevent
  | completed => cases hevent
  | delivered => cases hevent
  | sent => cases hevent
  | received => cases hevent

/-- A submission into a free slot keeps the invariant. -/
theorem Inv.accept (h : b.Inv) {i : Fin n} {submission : TxSubmission} {count : UInt8}
    (hi : (b.cells i).phase = .free) (hreserved : submission.completion.isReserved b.tickets) :
    (b.accept i submission count).Inv := by
  have hlog : ∀ token q submission' count',
      .accepted token q submission' count' ∈ (b.accept i submission count).log ↔
        .accepted token q submission' count' ∈ b.log ∨ token = ⟨i, (b.cells i).generation⟩ ∧
          q = b.next ∧ submission' = submission ∧ count' = count := by
    intro token q submission' count'
    simp [Binding.accept]
  simp only [CompletionToken.isReserved, Bool.decide_and, Bool.decide_eq_true, Bool.and_eq_true]
    at hreserved
  refine ⟨?_, h.tickets, fun j q hq => ?_, fun token q submission' count' hmem => ?_, ?_, ?_, ?_⟩
  · rw [table_accept]
    exact h.table.step (.accept i hi)
  · by_cases hj : j = i
    · subst hj
      simp only [Binding.accept, Function.update_self, Phase.waiting.injEq] at hq ⊢
      exact ⟨submission, count, rfl, by simp [hq]⟩
    · simp only [Binding.accept, Function.update_of_ne hj] at hq ⊢
      obtain ⟨submission', count', hsub, hmem⟩ := h.waiting j q hq
      exact ⟨submission', count', hsub, List.mem_append_left _ hmem⟩
  · show token.slot < n ∧ q < b.next + 1 ∧ _
    rcases (hlog _ _ _ _).mp hmem with hold | ⟨rfl, rfl, rfl, rfl⟩
    · obtain ⟨hslot, hlt, hrest⟩ := h.accepted _ _ _ _ hold
      exact ⟨hslot, by omega, hrest⟩
    · exact ⟨i.isLt, by omega, hreserved.1, .inl hreserved.2⟩
  · -- the number is new
    intro token q sub count' token' sub' count'' hmem hmem'
    rcases (hlog _ _ _ _).mp hmem with hold | ⟨-, hq, hsub, -⟩ <;>
      rcases (hlog _ _ _ _).mp hmem' with hold' | ⟨-, hq', hsub', -⟩
    · exact h.unique _ _ _ _ _ _ _ hold hold'
    · have := (h.accepted _ _ _ _ hold).2.1
      omega
    · have := (h.accepted _ _ _ _ hold').2.1
      omega
    · exact hsub.trans hsub'.symm
  · intro token q sub count' result hmem hdone
    have hdone' : .completed q result ∈ b.log := by
      simpa [Binding.accept] using hdone
    rcases (hlog _ _ _ _).mp hmem with hold | ⟨-, rfl, -, -⟩
    · exact h.completed _ _ _ _ _ hold hdone'
    · have hevent : Slots.Event.completed b.next ∈ b.table.log :=
        List.mem_filterMap.mpr ⟨_, hdone', rfl⟩
      have := h.table.completed_lt _ hevent
      exact absurd this (Nat.lt_irrefl _)
  · -- the cell was free, so what it held is gone
    refine traced_concat.mpr ⟨h.reuse, fun token q sub count' he token' q' sub' count'' hmem hslot => ?_⟩
    cases he
    obtain ⟨hlt, hfate⟩ := h.fate hmem
    obtain rfl : i = ⟨token'.slot, hlt⟩ := Fin.ext hslot.symm
    have hcell : b.table.cells = b.cells := rfl
    rcases hfate with hw | hw | hgone
    · rw [hcell] at hw
      rw [hw] at hi
      cases hi
    · rw [hcell] at hw
      rw [hw] at hi
      cases hi
    · next hone =>
      rw [hcell] at hgone
      refine ⟨hgone.resolve_right ?_, exists_completed hone⟩
      rw [hi]
      exact nofun

/-- A submission that waits is completed; its slot becomes free or is held. -/
theorem Inv.complete (h : b.Inv) {i : Fin n} {submission : TxSubmission} {q : ℕ}
    {result : CompletionResult} {c : Cell} (hi : (b.cells i).phase = .waiting q)
    (hsub : b.submissions i = some submission)
    (hc : c = { b.cells i with phase := .held q } ∨ c = (b.cells i).vacated lastGeneration) :
    (b.complete i submission q result c).Inv := by
  obtain ⟨_, count, hsub', hmine⟩ := h.waiting i q hi
  obtain rfl : submission = _ := Option.some.inj (hsub.symm.trans hsub')
  obtain ⟨-, -, hactive, hdue⟩ := h.accepted _ _ _ _ hmine
  have htickets : (b.complete i submission q result c).tickets =
      (b.tickets.publish submission.completion.ticket result).2 := by
    simp only [Binding.complete, CompletionToken.publish, if_pos hactive]
  have hlog : ∀ token q' submission' count',
      .accepted token q' submission' count' ∈ (b.complete i submission q result c).log ↔
        .accepted token q' submission' count' ∈ b.log := by
    intro token q' submission' count'
    simp [Binding.complete]
  refine ⟨?_, ?_, fun j q' hq' => ?_, fun token q' submission' count' hmem => ?_, ?_, ?_, ?_⟩
  · rw [table_complete]
    rcases hc with rfl | rfl
    · exact h.table.step (.hold i q hi)
    · exact h.table.step (.complete i q hi)
  · rw [htickets]
    exact h.tickets.publish
  · by_cases hj : j = i
    · subst hj
      simp only [Binding.complete, Function.update_self] at hq'
      rcases hc with rfl | rfl
      · cases hq'
      · exact absurd hq' (Cell.vacated_unoccupied _ _).1
    · simp only [Binding.complete, Function.update_of_ne hj] at hq' ⊢
      obtain ⟨submission', count', hsub'', hmem⟩ := h.waiting j q' hq'
      exact ⟨submission', count', hsub'', List.mem_append_left _ hmem⟩
  · obtain ⟨hslot, hlt, hactive', hdue'⟩ := h.accepted _ _ _ _ ((hlog _ _ _ _).mp hmem)
    refine ⟨hslot, hlt, hactive', ?_⟩
    rw [htickets]
    exact hdue'.publish h.tickets
  · intro token q' sub count' token' sub' count'' hmem hmem'
    exact h.unique _ _ _ _ _ _ _ ((hlog _ _ _ _).mp hmem) ((hlog _ _ _ _).mp hmem')
  · intro token q' sub count' result' hmem hdone
    have hold := (hlog _ _ _ _).mp hmem
    rw [htickets]
    rcases List.mem_append.mp hdone with hdone | hdone
    · exact published_publish h.tickets (h.completed _ _ _ _ _ hold hdone)
    · -- the submission that is being completed
      simp only [List.mem_singleton, TxEvent.completed.injEq] at hdone
      obtain rfl : sub = submission := by
        rw [hdone.1] at hold
        exact h.unique _ _ _ _ _ _ _ hold hmine
      exact publications_of_due h.tickets hdue
  · exact traced_concat.mpr ⟨h.reuse, fun _ _ _ _ he => nomatch he⟩

/-- The tickets change, but what is due stays due. -/
theorem Inv.withTickets (h : b.Inv) {t : Tickets} (ht : TicketsOk t)
    (hdue : ∀ ticket, Due b.tickets ticket → Due t ticket)
    (hone : ∀ ticket, b.tickets.publications ticket = 1 → t.publications ticket = 1) :
    Inv { b with tickets := t } where
  table := h.table
  tickets := ht
  waiting := h.waiting
  accepted := by
    intro token q submission count hmem
    obtain ⟨hslot, hlt, hactive, hdue'⟩ := h.accepted _ _ _ _ hmem
    exact ⟨hslot, hlt, hactive, hdue _ hdue'⟩
  unique := h.unique
  completed := by
    intro token q submission count result hmem hdone
    exact hone _ (h.completed _ _ _ _ _ hmem hdone)
  reuse := h.reuse

/-- Every step keeps it. -/
theorem Inv.step (h : b.Inv) (hstep : Step b b') : b'.Inv := by
  cases hstep with
  | accept i submission count hi hreserved => exact h.accept hi hreserved
  | complete i submission q result hi hsub => exact h.complete hi hsub (.inr rfl)
  | hold i submission q result hi hsub => exact h.complete hi hsub (.inl rfl)
  | release i q hi =>
    refine ⟨h.table.step (.release i q hi), h.tickets, fun j q' hq' => ?_, h.accepted, h.unique,
      h.completed, h.reuse⟩
    by_cases hj : j = i
    · subst hj
      simp only [Function.update_self] at hq'
      exact absurd hq' (Cell.vacated_unoccupied _ _).1
    · simp only [Function.update_of_ne hj] at hq' ⊢
      exact h.waiting j q' hq'
  | note e hnone haccepted =>
    have hlog : ∀ token q submission count, .accepted token q submission count ∈ b.log ++ [e] ↔
        .accepted token q submission count ∈ b.log := by
      intro token q submission count
      simp [(haccepted token q submission count).symm]
    have htable : Binding.table { b with log := b.log ++ [e] } = b.table := by
      simp [Binding.table, hnone, List.filterMap_append]
    refine ⟨htable ▸ h.table, h.tickets, fun i q hq => ?_, fun token q submission count hmem => ?_,
      ?_, ?_, ?_⟩
    · obtain ⟨submission, count, hsub, hmem⟩ := h.waiting i q hq
      exact ⟨submission, count, hsub, (hlog _ _ _ _).mpr hmem⟩
    · exact h.accepted _ _ _ _ ((hlog _ _ _ _).mp hmem)
    · intro token q sub count token' sub' count' hmem hmem'
      exact h.unique _ _ _ _ _ _ _ ((hlog _ _ _ _).mp hmem) ((hlog _ _ _ _).mp hmem')
    · intro token q sub count result hmem hdone
      refine h.completed _ _ _ _ result ((hlog _ _ _ _).mp hmem) ?_
      rcases List.mem_append.mp hdone with hdone | hdone
      · exact hdone
      · rw [← List.mem_singleton.mp hdone] at hnone
        cases hnone
    · exact traced_concat.mpr ⟨h.reuse, fun token q sub count he => absurd he (haccepted _ _ _ _)⟩
  | reserve ticket =>
    refine h.withTickets h.tickets.reserve (fun _ => Due.reserve) fun ticket' hone => ?_
    rw [publications_reserve]
    exact hone
  | publish ticket result =>
    exact h.withTickets h.tickets.publish (fun _ => Due.publish h.tickets)
      fun _ => published_publish h.tickets

theorem Inv.steps (h : b.Inv) (hsteps : Steps b b') : b'.Inv := by
  induction hsteps with
  | refl => exact h
  | tail _ hstep ih => exact ih.step hstep

/-- Every step goes on with the life of the tickets. -/
theorem Step.leads (h : b.Inv) (hstep : Step b b') (ticket : ℕ) :
    (life b.tickets ticket).Leads (life b'.tickets ticket) := by
  have hcomplete : ∀ (submission : TxSubmission) (result : CompletionResult),
      (life b.tickets ticket).Leads (life (submission.completion.publish result b.tickets).2 ticket) := by
    intro submission result
    unfold CompletionToken.publish
    split
    · exact h.tickets.leads_publish
    · exact .refl _
  cases hstep with
  | accept | release | note => exact .refl _
  | complete i submission q result => exact hcomplete submission result
  | hold i submission q result => exact hcomplete submission result
  | reserve => exact leads_reserve
  | publish => exact h.tickets.leads_publish

theorem Steps.leads (h : b.Inv) (hsteps : Steps b b') (ticket : ℕ) :
    (life b.tickets ticket).Leads (life b'.tickets ticket) := by
  induction hsteps with
  | refl => exact .refl _
  | tail hbefore hstep ih => exact ih.trans (hstep.leads (h.steps hbefore) ticket)

/-! ## What follows -/

/-- How often the transport has completed a submission. -/
def completions (log : List TxEvent) (q : ℕ) : ℕ :=
  log.countP fun e => match e with
    | .completed q' _ => q' = q
    | _ => false

/-- The completions of a ticket are counted in the log. -/
theorem completions_eq (q : ℕ) : b.table.log.count (.completed q) = completions b.log q := by
  show (b.log.filterMap TxEvent.slotEvent).count (Slots.Event.completed q) = _
  unfold completions
  induction b.log with
  | nil => rfl
  | cons e log ih =>
    rw [List.countP_cons, ← ih]
    cases e with
    | accepted token q' submission count =>
      by_cases h : token.slot < n
      · simp [TxEvent.slotEvent, h]
      · simp [TxEvent.slotEvent, h]
    | completed q' result =>
      simp [TxEvent.slotEvent, List.count_cons]
    | delivered => simp [List.filterMap_cons, TxEvent.slotEvent]
    | sent => simp [List.filterMap_cons, TxEvent.slotEvent]
    | received => simp [List.filterMap_cons, TxEvent.slotEvent]

/-- A token that is outstanding is of the submission that it was returned for. -/
theorem Inv.occupant (h : b.Inv) {token : TxToken} {q : ℕ} {submission : TxSubmission} {count : UInt8}
    (hmem : .accepted token q submission count ∈ b.log) (hout : b.outstanding token) :
    ∃ hlt : token.slot < n,
      b.cells ⟨token.slot, hlt⟩ = ⟨token.generation, .waiting q⟩ ∧
          b.submissions ⟨token.slot, hlt⟩ = some submission ∧ completions b.log q = 0 ∨
        b.cells ⟨token.slot, hlt⟩ = ⟨token.generation, .held q⟩ ∧ completions b.log q = 1 := by
  obtain ⟨hlt, hfate⟩ := h.fate hmem
  refine ⟨hlt, ?_⟩
  rw [← completions_eq]
  have hcells : b.table.cells = b.cells := rfl
  rcases hfate with hw | hw | hgone
  · rw [hcells] at hw
    obtain ⟨submission', count', hsub, hmem'⟩ := h.waiting ⟨token.slot, hlt⟩ q (by rw [hw])
    obtain rfl := h.unique _ _ _ _ _ _ _ hmem hmem'
    exact .inl ⟨hw, hsub, ‹_›⟩
  · exact .inr ⟨hw, ‹_›⟩
  · -- the cell has gone on to a later generation
    simp only [outstanding, decide_eq_true_eq] at hout
    obtain ⟨_, hgeneration, -, hretired⟩ := hout
    rw [hcells] at hgone
    rcases hgone with hlater | hgone
    · omega
    · exact absurd hgone hretired

/-- Once a submission is no longer outstanding, or only held, its ticket has been published, and the
transport has published it once. -/
theorem Inv.settled (h : b.Inv) {token : TxToken} {q : ℕ} {submission : TxSubmission} {count : UInt8}
    (hmem : .accepted token q submission count ∈ b.log)
    (hout : ¬b.outstanding token ∨ b.quarantined token) :
    completions b.log q = 1 ∧ b.tickets.publications submission.completion.ticket = 1 := by
  rw [← completions_eq]
  obtain ⟨hlt, hfate⟩ := h.fate hmem
  have hcells : b.table.cells = b.cells := rfl
  have hone : b.table.log.count (.completed q) = 1 := by
    rcases hfate with hw | hw | hgone
    · -- the submission still waits
      rw [hcells] at hw
      rcases hout with hout | ⟨_, q', hheld⟩
      · refine absurd ?_ hout
        simp only [outstanding, decide_eq_true_eq]
        exact ⟨hlt, by simp [hw]⟩
      · rw [hw] at hheld
        cases hheld
    · assumption
    · assumption
  obtain ⟨result, hdone⟩ := exists_completed hone
  exact ⟨hone, h.completed _ _ _ _ result hmem hdone⟩

/-- A slot that serves the least number of its lane serves the lane in order. -/
theorem Inv.completed_of_least (h : b.Inv) {q : ℕ} {l : List (Fin n)}
    (hleast : ∀ j ∈ l, ∀ q', (b.cells j).phase = .waiting q' → q ≤ q') {token : TxToken} {q' : ℕ}
    {submission : TxSubmission} {count : UInt8}
    (hmem : .accepted token q' submission count ∈ b.log) (hl : ∃ j ∈ l, token.slot = j)
    (hlt : q' < q) : ∃ result, .completed q' result ∈ b.log := by
  obtain ⟨hslot, hfate⟩ := h.fate hmem
  obtain ⟨j, hj, hjslot⟩ := hl
  obtain rfl : j = ⟨token.slot, hslot⟩ := Fin.ext hjslot.symm
  rcases hfate with hw | hw | hgone
  · have hcells : b.table.cells = b.cells := rfl
    rw [hcells] at hw
    have := hleast _ hj q' (by rw [hw])
    omega
  · exact exists_completed ‹_›
  · exact exists_completed ‹_›

end Binding

end Vita.Transport
