import Vita.Transaction.Completion

/-!
# One capability at a time

At most one field is running, and only its capability can be completed. What the backend still holds of
earlier fields is dead, and the tickets of later fields are reserved for their turn.

Main results:
- `Port.Inv`: what holds of the port while one capability can be completed;
- `Port.Claimed`: a completion that was begun or published;
- `Port.Inv.act`: whatever the backend does, the invariant holds and what was claimed stays so;
- `Port.Lives`: the tickets go on with the life that the arena gives them;
- `Port.Takes`, `Port.Sheds`: tickets that are consumed or given up.
-/

namespace Vita.Transaction

open Checked Timing State

/-! ## The life of a ticket -/

/-- A result as the arena stores it. -/
def CompletionResult.stored (r : CompletionResult) : Completion.CompletionResult :=
  { status := r.status, value := .ofNat r.value }

/-- The ticket of the arena that a slot is. The port does not number its writers and consumers. -/
def CompletionSlot.life (t : CompletionSlot) : Completion.Ticket where
  generation := t.generation
  phase := match t.state with
    | .free => .free
    | .reserved => .reserved (.ofNat t.operation)
    | .writing => .writing (.ofNat t.operation) 0
    | .ready => .ready (.ofNat t.operation) t.payload.stored
    | .retired => .retired

namespace CompletionSlot

variable {t : CompletionSlot}

theorem leads_reserve (h : t.state = .free) (operation : ℕ) :
    t.life.Leads { t with state := .reserved, operation }.life := by
  refine ⟨[(t.generation, .reserve (.ofNat operation))], ?_⟩
  simp [life, h, Completion.Ticket.replay, Completion.Ticket.next]

theorem leads_claim (h : t.state = .reserved) : t.life.Leads { t with state := .writing }.life := by
  refine ⟨[(t.generation, .claim 0)], ?_⟩
  simp [life, h, Completion.Ticket.replay, Completion.Ticket.next]

theorem leads_finish (h : t.state = .writing) (r : CompletionResult) :
    t.life.Leads { t with state := .ready, payload := r }.life := by
  refine ⟨[(t.generation, .finish 0 r.stored)], ?_⟩
  simp [life, h, Completion.Ticket.replay, Completion.Ticket.next]

/-- A claim and the publication after it. -/
theorem leads_publish (h : t.state = .reserved) (r : CompletionResult) :
    t.life.Leads { t with state := .ready, payload := r }.life :=
  (leads_claim h).trans (leads_finish (t := { t with state := .writing }) rfl r)

/-- The record of a ticket is taken and handed over. -/
theorem leads_consume (h : t.state = .ready) :
    t.life.Leads (Completion.Ticket.released t.generation) := by
  refine ⟨[(t.generation, .take 0), (t.generation, .obtain 0 ⟨.ofNat t.operation, t.payload.stored⟩)], ?_⟩
  simp [life, h, Completion.Ticket.replay, Completion.Ticket.next]

end CompletionSlot

namespace Port

variable {port port' port'' : Port} {cur : Option AsyncResult} {cap : AsyncResult}

/-- Every ticket goes on with its life. -/
def Lives (port port' : Port) : Prop := ∀ i, (port.tickets i).life.Leads (port'.tickets i).life

namespace Lives

theorem of_tickets (h : port'.tickets = port.tickets) : Lives port port' := by
  intro i
  rw [h]
  exact .refl _

theorem refl (port : Port) : Lives port port := of_tickets rfl

theorem trans (h : Lives port port') (h' : Lives port' port'') : Lives port port'' :=
  fun i => (h i).trans (h' i)

/-- One ticket goes on. -/
theorem update {i : ℕ} {t : CompletionSlot} (htickets : port'.tickets = Function.update port.tickets i t)
    (h : (port.tickets i).life.Leads t.life) : Lives port port' := by
  intro k
  rw [htickets]
  by_cases hk : k = i
  · subst hk
    rw [Function.update_self]
    exact h
  · rw [Function.update_of_ne hk]
    exact .refl _

end Lives

/-- The ticket of a publisher is in use. -/
def Live (port : Port) (q : Publisher) : Prop :=
  (port.tickets q.slot).generation = q.generation ∧ (port.tickets q.slot).pending

/-- The ticket of a publisher was consumed. -/
def Dead (port : Port) (q : Publisher) : Prop :=
  q.generation < (port.tickets q.slot).generation ∨
    (port.tickets q.slot).generation = q.generation ∧ (port.tickets q.slot).state = .retired

theorem Dead.not_live {q : Publisher} (h : port.Dead q) : ¬port.Live q := by
  rintro ⟨hgeneration, hpending⟩
  rcases h with h | ⟨-, h⟩
  · omega
  · simp [CompletionSlot.pending, h] at hpending

theorem isReserved_iff {q : Publisher} : port.isReserved q ↔
    (port.tickets q.slot).generation = q.generation ∧ (port.tickets q.slot).state = .reserved := by
  simp [isReserved]

theorem live_of_isReserved {q : Publisher} (h : port.isReserved q) : port.Live q := by
  obtain ⟨hgeneration, hstate⟩ := isReserved_iff.mp h
  exact ⟨hgeneration, by simp [CompletionSlot.pending, hstate]⟩

/-- No ticket is given out or taken back. -/
structure Evolves (port port' : Port) : Prop where
  generation : ∀ t, (port'.tickets t).generation = (port.tickets t).generation
  operation : ∀ t, (port'.tickets t).operation = (port.tickets t).operation
  state : ∀ t, (port'.tickets t).state = (port.tickets t).state ∨
    (port.tickets t).pending ∧ (port'.tickets t).pending

namespace Evolves

theorem refl (port : Port) : Evolves port port := ⟨fun _ => rfl, fun _ => rfl, fun _ => .inl rfl⟩

theorem of_tickets (h : port'.tickets = port.tickets) : Evolves port port' := by
  refine ⟨fun t => ?_, fun t => ?_, fun t => .inl ?_⟩ <;> rw [h]

theorem pending (h : Evolves port port') (t : ℕ) :
    (port'.tickets t).pending = (port.tickets t).pending := by
  rcases h.state t with hstate | ⟨h₁, h₂⟩
  · simp [CompletionSlot.pending, hstate]
  · rw [h₁, h₂]

theorem trans (h : Evolves port port') (h' : Evolves port' port'') : Evolves port port'' := by
  refine ⟨fun t => (h'.generation t).trans (h.generation t),
    fun t => (h'.operation t).trans (h.operation t), fun t => ?_⟩
  rcases h.state t with h₁ | ⟨h₁, -⟩
  · rcases h'.state t with h₂ | ⟨h₂, h₃⟩
    · exact .inl (h₂.trans h₁)
    · exact .inr ⟨by rw [← h.pending]; exact h₂, h₃⟩
  · exact .inr ⟨h₁, by rw [h'.pending, h.pending]; exact h₁⟩

theorem live (h : Evolves port port') {q : Publisher} : port'.Live q ↔ port.Live q := by
  rw [Live, Live, h.generation, h.pending]

theorem dead (h : Evolves port port') {q : Publisher} (hq : port.Dead q) : port'.Dead q := by
  rcases hq with hq | ⟨hq, hretired⟩
  · exact .inl (by rw [h.generation]; exact hq)
  · refine .inr ⟨by rw [h.generation]; exact hq, ?_⟩
    rcases h.state q.slot with hstate | ⟨hpending, -⟩
    · exact hstate.trans hretired
    · simp [CompletionSlot.pending, hretired] at hpending

end Evolves

/-- What holds while `cur` is the only capability that can be completed. -/
structure Inv (cur : Option AsyncResult) (port : Port) : Prop where
  positive : ∀ t, 1 ≤ (port.tickets t).generation
  held : ∀ a ∈ port.held, cur = some a ∨ port.Dead a.publisher
  busy : ∀ t, (port.tickets t).state = .writing ∨ (port.tickets t).state = .ready →
    ∃ a, cur = some a ∧ a.publisher = ⟨t, (port.tickets t).generation⟩
  writer : ∀ w ∈ port.writers, cur = some w.capability ∧ w.capability ∈ port.held ∧
    (port.tickets w.capability.publisher.slot).generation = w.capability.publisher.generation ∧
    (port.tickets w.capability.publisher.slot).state = .writing
  single : port.writers.length ≤ 1
  writing : ∀ t, (port.tickets t).state = .writing → port.writers ≠ []
  payload : ∀ a, cur = some a → (port.tickets a.publisher.slot).state = .ready →
    (port.tickets a.publisher.slot).payload.status = .succeeded →
      (port.tickets a.publisher.slot).payload.value = a.index

/-- A completion of a capability has begun, with its outcome or as a failure without one. -/
inductive Claimed (port : Port) (cap : AsyncResult) : Option FieldOutcome → Prop
  | writing {w : Writer} (hmem : w ∈ port.writers) (hcap : w.capability = cap) :
      Claimed port cap w.outcome
  | succeeded (hgeneration : (port.tickets cap.publisher.slot).generation = cap.publisher.generation)
      (hstate : (port.tickets cap.publisher.slot).state = .ready)
      (hpayload : (port.tickets cap.publisher.slot).payload = { value := cap.index }) :
      Claimed port cap (some (port.results cap.index).outcome)
  | failed (hgeneration : (port.tickets cap.publisher.slot).generation = cap.publisher.generation)
      (hstate : (port.tickets cap.publisher.slot).state = .ready)
      (hpayload : (port.tickets cap.publisher.slot).payload.status ≠ .succeeded) :
      Claimed port cap none

/-- A completion stays where its ticket and its results stay. -/
theorem Claimed.of_tickets {o : Option FieldOutcome} (h : Claimed port cap o)
    (hticket : port'.tickets cap.publisher.slot = port.tickets cap.publisher.slot)
    (hwriters : port'.writers = port.writers)
    (hresults : ∀ r, (port'.results r).outcome = (port.results r).outcome) : Claimed port' cap o := by
  cases h with
  | writing hmem hcap => exact .writing (hwriters ▸ hmem) hcap
  | succeeded hg hs hp =>
    rw [← hresults cap.index]
    exact .succeeded (by rw [hticket]; exact hg) (by rw [hticket]; exact hs) (by rw [hticket]; exact hp)
  | failed hg hs hp =>
    exact .failed (by rw [hticket]; exact hg) (by rw [hticket]; exact hs) (by rw [hticket]; exact hp)

/-- What happens to the port while `cur` can be completed: the tickets stay where they are, and what
was claimed stays so. -/
structure Step (cur : Option AsyncResult) (port port' : Port) : Prop where
  inv : Inv cur port'
  evolves : Evolves port port'
  lives : Lives port port'
  claimed : ∀ cap, cur = some cap → ∀ o, Claimed port cap o → Claimed port' cap o

theorem Step.refl (h : Inv cur port) : Step cur port port :=
  ⟨h, .refl port, .refl port, fun _ _ _ h => h⟩

theorem Step.trans (h : Step cur port port') (h' : Step cur port' port'') : Step cur port port'' :=
  ⟨h'.inv, h.evolves.trans h'.evolves, h.lives.trans h'.lives,
    fun cap hcap o hc => h'.claimed cap hcap o (h.claimed cap hcap o hc)⟩

/-- Marks on the guards of the results. -/
theorem Inv.guard (h : Inv cur port) (htickets : port'.tickets = port.tickets)
    (hheld : ∀ a ∈ port'.held, cur = some a ∨ a ∈ port.held)
    (hkept : ∀ w ∈ port.writers, w.capability ∈ port'.held) (hwriters : port'.writers = port.writers)
    (hresults : ∀ r, (port'.results r).outcome = (port.results r).outcome) : Step cur port port' := by
  refine ⟨⟨?_, ?_, ?_, ?_, ?_, ?_, ?_⟩, .of_tickets htickets, .of_tickets htickets, ?_⟩
  · rw [htickets]
    exact h.positive
  · intro a ha
    rcases hheld a ha with hcur | ha
    · exact .inl hcur
    · exact (h.held a ha).imp_right (Evolves.of_tickets htickets).dead
  · rw [htickets]
    exact h.busy
  · rw [hwriters, htickets]
    intro w hw
    obtain ⟨hcur, -, hticket⟩ := h.writer w hw
    exact ⟨hcur, hkept w hw, hticket⟩
  · rw [hwriters]
    exact h.single
  · rw [hwriters, htickets]
    exact h.writing
  · rw [htickets]
    exact h.payload
  · exact fun cap _ o hclaimed => hclaimed.of_tickets (by rw [htickets]) hwriters hresults

/-- The ticket of a completion is being written or published. -/
theorem Inv.claimed_busy (h : Inv cur port) {o : Option FieldOutcome} (hc : Claimed port cap o) :
    (port.tickets cap.publisher.slot).state = .writing ∨
      (port.tickets cap.publisher.slot).state = .ready := by
  cases hc with
  | writing hmem hcap =>
    have hwriting := (h.writer _ hmem).2.2.2
    rw [hcap] at hwriting
    exact .inl hwriting
  | succeeded _ hready => exact .inr hready
  | failed _ hready => exact .inr hready

theorem Inv.claimed_state (h : Inv cur port) {o : Option FieldOutcome} (hc : Claimed port cap o) :
    (port.tickets cap.publisher.slot).state ≠ .reserved := by
  intro hstate
  have hbusy := h.claimed_busy hc
  rw [hstate] at hbusy
  rcases hbusy with hbusy | hbusy <;> cases hbusy

/-- There is at most one completion of a capability. -/
theorem Inv.claimed_unique (h : Inv cur port) {o o' : Option FieldOutcome} (hc : Claimed port cap o)
    (hc' : Claimed port cap o') : o = o' := by
  have hwriting : ∀ w ∈ port.writers, w.capability = cap →
      (port.tickets cap.publisher.slot).state = .writing := by
    intro w hmem hcap
    have := (h.writer w hmem).2.2.2
    rwa [hcap] at this
  have hready : ∀ w ∈ port.writers, w.capability = cap →
      (port.tickets cap.publisher.slot).state ≠ .ready := by
    intro w hmem hcap hstate
    rw [hwriting w hmem hcap] at hstate
    cases hstate
  cases hc with
  | @writing w hmem hcap =>
    cases hc' with
    | @writing w' hmem' hcap' =>
      rcases hws : port.writers with _ | ⟨x, rest⟩
      · rw [hws] at hmem
        cases hmem
      · have hsingle := h.single
        rw [hws] at hmem hmem' hsingle
        obtain rfl : rest = [] := by simpa using hsingle
        rw [List.mem_singleton.mp hmem, List.mem_singleton.mp hmem']
    | succeeded _ hstate => exact absurd hstate (hready w hmem hcap)
    | failed _ hstate => exact absurd hstate (hready w hmem hcap)
  | succeeded _ hstate hpayload =>
    cases hc' with
    | @writing w' hmem' hcap' => exact absurd hstate (hready w' hmem' hcap')
    | succeeded => rfl
    | failed _ _ hpayload' => exact absurd (by rw [hpayload]) hpayload'
  | failed _ hstate hpayload =>
    cases hc' with
    | @writing w' hmem' hcap' => exact absurd hstate (hready w' hmem' hcap')
    | succeeded _ _ hpayload' => exact absurd (by rw [hpayload']) hpayload
    | failed => rfl

/-- There is no completion of a ticket that is still reserved. -/
theorem Inv.not_claimed (h : Inv cur port) (hreserved : port.isReserved cap.publisher)
    {o : Option FieldOutcome} : ¬Claimed port cap o :=
  fun hc => h.claimed_state hc (isReserved_iff.mp hreserved).2

/-- While the ticket of the current capability is reserved, nothing is written. -/
theorem Inv.no_writer (h : Inv (some cap) port) (hreserved : port.isReserved cap.publisher) :
    port.writers = [] := by
  rcases hw : port.writers with _ | ⟨w, rest⟩
  · rfl
  · obtain ⟨hcur, -⟩ := h.writer w (by rw [hw]; exact List.mem_cons_self)
    exact absurd (.writing (by rw [hw]; exact List.mem_cons_self) (Option.some.inj hcur).symm)
      (h.not_claimed (o := w.outcome) hreserved)

/-- Only the current capability can be claimed. -/
theorem Inv.current (h : Inv cur port) (hheld : cap ∈ port.held)
    (hreserved : port.isReserved cap.publisher) : cur = some cap := by
  rcases h.held cap hheld with hcur | hdead
  · exact hcur
  · exact absurd (live_of_isReserved hreserved) hdead.not_live

section Ticket

variable {t : CompletionSlot}

/-- The ticket of the current capability moves on. -/
theorem evolves_update (hlive : port.Live cap.publisher)
    (htickets : port'.tickets = Function.update port.tickets cap.publisher.slot t)
    (hgeneration : t.generation = cap.publisher.generation)
    (hoperation : t.operation = (port.tickets cap.publisher.slot).operation) (hpending : t.pending) :
    Evolves port port' := by
  refine ⟨fun k => ?_, fun k => ?_, fun k => ?_⟩ <;> rw [htickets] <;>
    by_cases hk : k = cap.publisher.slot
  · subst hk
    rw [Function.update_self, hgeneration, hlive.1]
  · rw [Function.update_of_ne hk]
  · subst hk
    rw [Function.update_self, hoperation]
  · rw [Function.update_of_ne hk]
  · subst hk
    rw [Function.update_self]
    exact .inr ⟨hlive.2, hpending⟩
  · rw [Function.update_of_ne hk]
    exact .inl rfl

/-- A claim of the current capability. -/
theorem Inv.claim (h : Inv (some cap) port) (hheld : cap ∈ port.held)
    (hreserved : port.isReserved cap.publisher) (o : Option FieldOutcome)
    (htickets : port'.tickets = Function.update port.tickets cap.publisher.slot
      { port.tickets cap.publisher.slot with state := .writing })
    (hheld' : port'.held = port.held)
    (hwriters : port'.writers = port.writers ++ [{ capability := cap, outcome := o }]) :
    Step (some cap) port port' := by
  obtain ⟨hgeneration, hstate⟩ := isReserved_iff.mp hreserved
  have hev : Evolves port port' := evolves_update (live_of_isReserved hreserved) htickets hgeneration rfl rfl
  have hself : port'.tickets cap.publisher.slot =
      { port.tickets cap.publisher.slot with state := .writing } := by
    rw [htickets, Function.update_self]
  rw [h.no_writer hreserved, List.nil_append] at hwriters
  refine ⟨⟨?_, ?_, ?_, ?_, ?_, ?_, ?_⟩, hev, .update htickets (CompletionSlot.leads_claim hstate), ?_⟩
  · intro k
    rw [hev.generation]
    exact h.positive k
  · rw [hheld']
    exact fun a ha => (h.held a ha).imp_right hev.dead
  · intro k hk
    by_cases hslot : k = cap.publisher.slot
    · subst hslot
      exact ⟨cap, rfl, by rw [hev.generation, hgeneration]⟩
    · rw [htickets, Function.update_of_ne hslot] at hk ⊢
      exact h.busy k hk
  · rw [hwriters]
    intro w hw
    obtain rfl := List.mem_singleton.mp hw
    rw [hself, hheld']
    exact ⟨rfl, hheld, hgeneration, rfl⟩
  · rw [hwriters]
    exact le_rfl
  · rw [hwriters]
    exact fun _ _ => List.cons_ne_nil _ _
  · intro a ha hready
    cases ha
    rw [hself] at hready
    cases hready
  · intro a ha o hclaimed
    cases ha
    exact absurd hclaimed (h.not_claimed hreserved)

/-- The current capability is published. -/
theorem Inv.publish (h : Inv (some cap) port) (hlive : port.Live cap.publisher)
    (htickets : port'.tickets = Function.update port.tickets cap.publisher.slot t)
    (hgeneration : t.generation = cap.publisher.generation)
    (hoperation : t.operation = (port.tickets cap.publisher.slot).operation) (hstate : t.state = .ready)
    (hpayload : t.payload.status = .succeeded → t.payload.value = cap.index)
    (hheld : port'.held = port.held) (hwriters : port'.writers = []) :
    Inv (some cap) port' ∧ Evolves port port' := by
  have hev : Evolves port port' := evolves_update hlive htickets hgeneration hoperation
    (by simp [CompletionSlot.pending, hstate])
  have hself : port'.tickets cap.publisher.slot = t := by rw [htickets, Function.update_self]
  have hother : ∀ k, k ≠ cap.publisher.slot → port'.tickets k = port.tickets k := by
    intro k hk
    rw [htickets, Function.update_of_ne hk]
  refine ⟨⟨?_, ?_, ?_, ?_, ?_, ?_, ?_⟩, hev⟩
  · intro k
    rw [hev.generation]
    exact h.positive k
  · rw [hheld]
    exact fun a ha => (h.held a ha).imp_right hev.dead
  · intro k hk
    by_cases hslot : k = cap.publisher.slot
    · subst hslot
      exact ⟨cap, rfl, by rw [hev.generation, hlive.1]⟩
    · rw [hother k hslot] at hk ⊢
      exact h.busy k hk
  · rw [hwriters]
    simp
  · rw [hwriters]
    exact Nat.zero_le _
  · intro k hk
    by_cases hslot : k = cap.publisher.slot
    · subst hslot
      rw [hself, hstate] at hk
      cases hk
    · rw [hother k hslot] at hk
      -- only the ticket of the current capability is written
      obtain ⟨a, ha, hpub⟩ := h.busy k (.inl hk)
      cases ha
      exact absurd (by rw [hpub]) hslot
  · intro a ha hready
    cases ha
    rw [hself]
    exact hpayload

end Ticket

/-! ### What a backend does -/

theorem tryClaim_eq (port : Port) (q : Publisher) : port.tryClaim q =
    if port.isReserved q then (true, port.setTicket q.slot fun t => { t with state := .writing })
    else (false, port) := rfl

theorem setGuard_outcome (port : Port) (i : ℕ) (f : ResultGuard → ResultGuard) (r : ℕ) :
    ((port.setGuard i f).results r).outcome = (port.results r).outcome := by
  by_cases hr : r = i
  · subst hr
    simp [setGuard, setResult]
  · simp [setGuard, setResult, Function.update_of_ne hr]

/-- A refused claim leaves a mark at most. -/
theorem claim_refused {c : AsyncResult} (outcome : FieldOutcome) (h : ¬port.isReserved c.publisher) :
    (port.claim c outcome).1 = false ∧ (port.claim c outcome).2.tickets = port.tickets ∧
      (port.claim c outcome).2.held = port.held ∧ (port.claim c outcome).2.writers = port.writers ∧
      ∀ r, ((port.claim c outcome).2.results r).outcome = (port.results r).outcome := by
  unfold claim
  rw [tryClaim_eq, if_neg h]
  dsimp only
  split
  · exact ⟨rfl, rfl, rfl, rfl, setGuard_outcome port _ _⟩
  · exact ⟨rfl, rfl, rfl, rfl, fun _ => rfl⟩

/-- A claim that succeeds begins to write the ticket. -/
theorem claim_accepted {c : AsyncResult} (outcome : FieldOutcome) (h : port.isReserved c.publisher) :
    (port.claim c outcome).1 = true ∧
      (port.claim c outcome).2.tickets = Function.update port.tickets c.publisher.slot
        { port.tickets c.publisher.slot with state := .writing } ∧
      (port.claim c outcome).2.held = port.held ∧ (port.claim c outcome).2.writers = port.writers ∧
      ∀ r, ((port.claim c outcome).2.results r).outcome = (port.results r).outcome := by
  unfold claim
  rw [tryClaim_eq, if_pos h]
  dsimp only
  split
  · exact ⟨rfl, rfl, rfl, rfl, setGuard_outcome (port.setTicket _ _) _ _⟩
  · exact ⟨rfl, rfl, rfl, rfl, fun _ => rfl⟩

/-- A ticket that is being written is published. -/
theorem finish_lives {q : Publisher} (hgeneration : (port.tickets q.slot).generation = q.generation)
    (hstate : (port.tickets q.slot).state = .writing) (r : CompletionResult)
    (htickets : port'.tickets = (port.finish q r).tickets) : Lives port port' := by
  refine .update htickets ?_
  rw [← hgeneration]
  exact CompletionSlot.leads_finish hstate r

/-- A writer publishes what it was made for. -/
theorem Inv.write (h : Inv cur port) {w : Writer} (hw : w ∈ port.writers) :
    Step cur port (match w.outcome with
      | some outcome => { port with writers := [] }.deliver w.capability outcome
      | none => { port with writers := [] }.finish w.capability.publisher { status := .failed }) := by
  obtain ⟨hcur, -, hgeneration, hstate⟩ := h.writer w hw
  subst hcur
  have hlive : port.Live w.capability.publisher :=
    ⟨hgeneration, by simp [CompletionSlot.pending, hstate]⟩
  have honly : ∀ w' ∈ port.writers, w' = w := by
    intro w' hw'
    obtain ⟨x, hx⟩ := List.length_eq_one_iff.mp
      (le_antisymm h.single (List.length_pos_of_mem hw))
    rw [hx, List.mem_singleton] at hw hw'
    exact hw'.trans hw.symm
  have hclaimed : ∀ o, Claimed port w.capability o → o = w.outcome := by
    intro o hc
    cases hc with
    | writing hmem => rw [honly _ hmem]
    | succeeded _ hready => rw [hstate] at hready; cases hready
    | failed _ hready => rw [hstate] at hready; cases hready
  rcases ho : w.outcome with _ | outcome
  · obtain ⟨hinv, hev⟩ : Inv (some w.capability) (Port.finish { port with writers := [] }
        w.capability.publisher { status := .failed }) ∧ Evolves port (Port.finish
        { port with writers := [] } w.capability.publisher { status := .failed }) :=
      h.publish (t := { generation := w.capability.publisher.generation, state := .ready
                        operation := (port.tickets w.capability.publisher.slot).operation
                        payload := { status := .failed } })
        hlive rfl rfl rfl rfl (fun hs => by cases hs) rfl rfl
    refine ⟨hinv, hev, finish_lives hgeneration hstate _ rfl, fun cap hcap o hc => ?_⟩
    cases hcap
    rw [hclaimed o hc, ho]
    refine .failed ?_ ?_ ?_ <;> simp [finish, setTicket]
  · obtain ⟨hinv, hev⟩ : Inv (some w.capability) (Port.deliver { port with writers := [] }
        w.capability outcome) ∧ Evolves port (Port.deliver { port with writers := [] }
        w.capability outcome) :=
      h.publish (t := { generation := w.capability.publisher.generation, state := .ready
                        operation := (port.tickets w.capability.publisher.slot).operation
                        payload := { value := w.capability.index } })
        hlive rfl rfl rfl rfl (fun _ => rfl) rfl rfl
    refine ⟨hinv, hev, finish_lives hgeneration hstate _ rfl, fun cap hcap o hc => ?_⟩
    cases hcap
    rw [hclaimed o hc, ho]
    have houtcome : (({ port with writers := [] }.deliver w.capability outcome).results
        w.capability.index).outcome = outcome := by
      simp [deliver, finish, setTicket, setResult]
    have hready : Claimed (Port.deliver { port with writers := [] } w.capability outcome) w.capability _ :=
      .succeeded (by simp [deliver, finish, setTicket]) (by simp [deliver, finish, setTicket])
        (by simp [deliver, finish, setTicket])
    rw [houtcome] at hready
    exact hready

/-- What a backend does is a step of the port. -/
theorem Inv.act (h : Inv cur port) (action : Action) : Step cur port (port.act action) := by
  cases action with
  | copy c =>
    simp only [Port.act]
    split
    · next hc =>
      refine h.guard rfl (fun a ha => .inr ?_) (fun w hw => ?_) rfl fun _ => rfl
      · rcases List.mem_cons.mp ha with rfl | ha
        · exact hc
        · exact ha
      · exact List.mem_cons_of_mem _ (h.writer w hw).2.1
    · exact .refl h
  | drop c =>
    simp only [Port.act]
    split
    · next hcount =>
      refine h.guard rfl (fun a ha => .inr (List.mem_of_mem_erase ha)) (fun w hw => ?_) rfl fun _ => rfl
      -- a capability with a writer is held once more
      by_cases hcap : w.capability = c
      · subst hcap
        have hwriter : 0 < port.writers.countP (·.capability = w.capability) :=
          List.countP_pos_iff.mpr ⟨w, hw, by simp⟩
        refine List.count_pos_iff.mp ?_
        rw [List.count_erase_self]
        omega
      · exact (List.mem_erase_of_ne hcap).mpr (h.writer w hw).2.1
    · exact .refl h
  | claim c outcome =>
    simp only [Port.act]
    split
    · next hheld =>
      by_cases hreserved : port.isReserved c.publisher
      · obtain ⟨hdone, htickets, hheld', hwriters, -⟩ := claim_accepted outcome hreserved
        have hcur := h.current hheld hreserved
        subst hcur
        rw [show port.claim c outcome = (true, (port.claim c outcome).2) from Prod.ext hdone rfl]
        refine h.claim hheld hreserved (some outcome) htickets hheld' ?_
        show (port.claim c outcome).2.writers ++ _ = _
        rw [hwriters]
      · obtain ⟨hdone, htickets, hheld', hwriters, hresults⟩ := claim_refused outcome hreserved
        rw [show port.claim c outcome = (false, (port.claim c outcome).2) from Prod.ext hdone rfl]
        refine h.guard htickets (fun a ha => .inr (hheld' ▸ ha)) (fun w hw => ?_) hwriters hresults
        rw [hheld']
        exact (h.writer w hw).2.1
    · exact .refl h
  | fail c =>
    simp only [Port.act]
    split
    · next hheld =>
      rw [tryClaim_eq]
      by_cases hreserved : port.isReserved c.publisher
      · rw [if_pos hreserved]
        have hcur := h.current hheld hreserved
        subst hcur
        exact h.claim hheld hreserved none rfl rfl rfl
      · rw [if_neg hreserved]
        exact .refl h
    · exact .refl h
  | write k =>
    simp only [Port.act]
    split
    · exact .refl h
    · next w hk =>
      have hmem := List.mem_of_getElem? hk
      have herase : port.writers.eraseIdx k = [] := by
        rw [← List.length_eq_zero_iff, List.length_eraseIdx_of_lt (List.getElem?_eq_some_iff.mp hk).1]
        have := h.single
        omega
      rw [herase]
      exact h.write hmem

theorem Inv.actAll (h : Inv cur port) (actions : List Action) : Step cur port (port.actAll actions) := by
  induction actions generalizing port with
  | nil => exact .refl h
  | cons action actions ih => exact (h.act action).trans (ih (h.act action).inv)

/-- The engine completes the current capability. -/
theorem Inv.complete (h : Inv (some cap) port) (outcome : FieldOutcome) :
    Step (some cap) port (port.complete cap outcome).2 := by
  unfold Port.complete
  by_cases hreserved : port.isReserved cap.publisher
  · obtain ⟨hdone, htickets, hheld, hwriters, -⟩ := claim_accepted outcome hreserved
    rw [show port.claim cap outcome = (true, (port.claim cap outcome).2) from Prod.ext hdone rfl]
    generalize (port.claim cap outcome).2 = port₁ at htickets hheld hwriters
    have hoperation : (port₁.tickets cap.publisher.slot).operation =
        (port.tickets cap.publisher.slot).operation := by
      rw [htickets, Function.update_self]
    have hdelivered : (port₁.deliver cap outcome).tickets = Function.update port.tickets
        cap.publisher.slot { generation := cap.publisher.generation, state := .ready
                             operation := (port.tickets cap.publisher.slot).operation
                             payload := { value := cap.index } } := by
      rw [← hoperation]
      funext t
      by_cases ht : t = cap.publisher.slot
      · subst ht
        simp [deliver, finish, setTicket, setResult]
      · simp [deliver, finish, setTicket, setResult, Function.update_of_ne ht, htickets]
    obtain ⟨hinv, hev⟩ := h.publish (live_of_isReserved hreserved) hdelivered rfl rfl rfl
      (fun _ => rfl) hheld (hwriters.trans (h.no_writer hreserved))
    have hlives : Lives port (port₁.deliver cap outcome) := by
      obtain ⟨hgeneration, hstate⟩ := isReserved_iff.mp hreserved
      refine .update hdelivered ?_
      rw [← hgeneration]
      exact CompletionSlot.leads_publish hstate _
    refine ⟨hinv, hev, hlives, fun a ha o hc => ?_⟩
    cases ha
    exact absurd hc (h.not_claimed hreserved)
  · obtain ⟨hdone, htickets, hheld, hwriters, hresults⟩ := claim_refused outcome hreserved
    rw [show port.claim cap outcome = (false, (port.claim cap outcome).2) from Prod.ext hdone rfl]
    refine h.guard htickets (fun a ha => .inr (hheld ▸ ha)) (fun w hw => ?_) hwriters hresults
    rw [hheld]
    exact (h.writer w hw).2.1

theorem complete_held (port : Port) (c : AsyncResult) (outcome : FieldOutcome) :
    (port.complete c outcome).2.held = port.held := by
  unfold Port.complete
  by_cases hreserved : port.isReserved c.publisher
  · obtain ⟨hdone, -, hheld, -⟩ := claim_accepted outcome hreserved
    rw [show port.claim c outcome = (true, (port.claim c outcome).2) from Prod.ext hdone rfl]
    exact hheld
  · obtain ⟨hdone, -, hheld, -⟩ := claim_refused outcome hreserved
    rw [show port.claim c outcome = (false, (port.claim c outcome).2) from Prod.ext hdone rfl]
    exact hheld

theorem Inv.hold (h : Inv (some cap) port) : Step (some cap) port (port.hold cap) := by
  refine h.guard rfl (fun a ha => ?_) (fun w hw => ?_) rfl fun _ => rfl
  · rcases List.mem_cons.mp ha with rfl | ha
    · exact .inl rfl
    · exact .inr ha
  · exact List.mem_cons_of_mem _ (h.writer w hw).2.1

/-! ### The arena -/

/-- The ticket of a publisher is consumed. -/
structure Takes (q : Publisher) (port port' : Port) : Prop where
  live : port.Live q
  tickets : ∃ t, port'.tickets = Function.update port.tickets q.slot t ∧
    t.operation = (port.tickets q.slot).operation ∧
    (t.generation = q.generation + 1 ∧ t.state = .free ∨ t.generation = q.generation ∧ t.state = .retired)

namespace Takes

variable {q q' : Publisher}

theorem dead (h : Takes q port port') : port'.Dead q := by
  obtain ⟨t, ht, -, ⟨hg, -⟩ | ⟨hg, hs⟩⟩ := h.tickets
  · refine .inl ?_
    rw [ht, Function.update_self]
    omega
  · refine .inr ?_
    rw [ht, Function.update_self]
    exact ⟨hg, hs⟩

theorem other (h : Takes q port port') {k : ℕ} (hk : k ≠ q.slot) : port'.tickets k = port.tickets k := by
  obtain ⟨t, ht, -⟩ := h.tickets
  rw [ht, Function.update_of_ne hk]

/-- A ticket that is dead stays so when another one is taken. -/
theorem dead_other (h : Takes q port port') (hq' : port.Dead q') : port'.Dead q' := by
  by_cases hslot : q'.slot = q.slot
  · obtain ⟨t, ht, -, hcases⟩ := h.tickets
    have hlive := h.live
    have hlt : q'.generation < (port.tickets q'.slot).generation := by
      rcases hq' with hlt | ⟨-, hretired⟩
      · exact hlt
      · rw [hslot] at hretired
        simp [Live, CompletionSlot.pending, hretired] at hlive
    refine .inl ?_
    rw [hslot] at hlt ⊢
    rw [ht, Function.update_self]
    rw [hlive.1] at hlt
    rcases hcases with ⟨hg, -⟩ | ⟨hg, -⟩ <;> omega
  · rw [Dead, h.other hslot]
    exact hq'

/-- Another ticket in use stays in use. -/
theorem live_other (h : Takes q port port') (hq' : port.Live q') (hne : q' ≠ q) :
    q'.slot ≠ q.slot ∧ port'.Live q' := by
  have hslot : q'.slot ≠ q.slot := by
    intro hslot
    refine hne ?_
    have h₁ := h.live.1
    have h₂ := hq'.1
    rw [hslot] at h₂
    cases q
    cases q'
    simp_all
  refine ⟨hslot, ?_⟩
  rw [Live, h.other hslot]
  exact hq'

end Takes

/-- A ticket that was published is consumed. -/
theorem consume_takes {n t : ℕ} {record : CompletionRecord} (h : port.consume n t = (some record, port')) :
    t < n ∧ (port.tickets t).state = .ready ∧ record.operation = (port.tickets t).operation ∧
      record.result = (port.tickets t).payload ∧ Takes ⟨t, (port.tickets t).generation⟩ port port' ∧
      port'.held = port.held ∧ port'.writers = port.writers ∧ port'.results = port.results := by
  unfold Port.consume at h
  dsimp only at h
  split at h
  · next hcond =>
    obtain ⟨hrecord, rfl⟩ := Prod.mk.inj h
    obtain rfl := Option.some.inj hrecord
    refine ⟨hcond.1, hcond.2, rfl, rfl, ⟨⟨rfl, by simp [CompletionSlot.pending, hcond.2]⟩, _, rfl, ?_, ?_⟩,
      rfl, rfl, rfl⟩
    · split <;> rfl
    · split
      · exact .inr ⟨rfl, rfl⟩
      · exact .inl ⟨rfl, rfl⟩
  · cases h

/-- The record that a consumer gets is that of the ticket. -/
theorem consume_lives (port : Port) (n t : ℕ) : Lives port (port.consume n t).2 := by
  unfold Port.consume
  dsimp only
  split
  · next hcond =>
    refine .update rfl ?_
    have hlife := CompletionSlot.leads_consume hcond.2
    rw [Completion.Ticket.released] at hlife
    split
    · next hmax =>
      rw [if_pos hmax] at hlife
      exact hlife
    · next hmax =>
      rw [if_neg hmax] at hlife
      exact hlife
  · exact .refl port

/-- A reserved ticket is claimed and published. -/
theorem publish_tickets {q : Publisher} (hreserved : port.isReserved q) (r : CompletionResult) :
    (port.publish q r).tickets = Function.update port.tickets q.slot
      { port.tickets q.slot with state := .ready, payload := r } := by
  rw [Port.publish, tryClaim_eq, if_pos hreserved]
  funext k
  by_cases hk : k = q.slot
  · subst hk
    simp [finish, setTicket, (isReserved_iff.mp hreserved).1]
  · simp [finish, setTicket, Function.update_of_ne hk]

/-- A publication leaves what is not a ticket. -/
theorem publish_rest (port : Port) (q : Publisher) (r : CompletionResult) :
    (port.publish q r).held = port.held ∧ (port.publish q r).writers = port.writers ∧
      (port.publish q r).results = port.results := by
  rw [Port.publish, tryClaim_eq]
  by_cases hreserved : port.isReserved q
  · rw [if_pos hreserved]
    exact ⟨rfl, rfl, rfl⟩
  · rw [if_neg hreserved]
    exact ⟨rfl, rfl, rfl⟩

/-- A token that is given up takes its ticket with it. -/
theorem dropToken_takes {n : ℕ} {q : Publisher} (hreserved : port.isReserved q) (hlt : q.slot < n) :
    Takes q port (port.dropToken n (some q)) ∧ (port.dropToken n (some q)).held = port.held ∧
      (port.dropToken n (some q)).writers = port.writers ∧
      (port.dropToken n (some q)).results = port.results := by
  have hgeneration := (isReserved_iff.mp hreserved).1
  rw [dropToken, if_pos hreserved]
  have htickets := publish_tickets hreserved { status := .abandoned }
  obtain ⟨hheld, hwriters, hresults⟩ := publish_rest port q { status := .abandoned }
  generalize port.publish q { status := .abandoned } = port₁ at htickets hheld hwriters hresults
  have hself : port₁.tickets q.slot =
      { port.tickets q.slot with state := .ready, payload := { status := .abandoned } } := by
    rw [htickets, Function.update_self]
  obtain ⟨record, port₂, hconsume⟩ : ∃ record port₂, port₁.consume n q.slot = (some record, port₂) := by
    unfold Port.consume
    rw [if_pos ⟨hlt, by rw [hself]⟩]
    exact ⟨_, _, rfl⟩
  rw [hconsume]
  obtain ⟨-, -, -, -, htakes, hh, hw, hr⟩ := consume_takes hconsume
  obtain ⟨t, ht, hop, hcases⟩ := htakes.tickets
  refine ⟨⟨live_of_isReserved hreserved, t, ?_, ?_, ?_⟩, hh.trans hheld, hw.trans hwriters,
    hr.trans hresults⟩
  · rw [ht, htickets, Function.update_idem]
  · rw [hop, hself]
  · rw [hself, hgeneration] at hcases
    exact hcases

theorem dropToken_lives (port : Port) (n : ℕ) (token : Token) : Lives port (port.dropToken n token) := by
  rcases token with _ | q
  · exact .refl port
  · rw [dropToken]
    split
    · next hreserved =>
      have hpublish : Lives port (port.publish q { status := .abandoned }) :=
        .update (publish_tickets hreserved _) (CompletionSlot.leads_publish (isReserved_iff.mp hreserved).2 _)
      exact hpublish.trans (consume_lives _ n q.slot)
    · exact .refl port

theorem dropTokens_lives (n : ℕ) (tokens : ℕ → Token) (l : List ℕ) (port : Port) :
    Lives port (l.foldl (fun p f => p.dropToken n (tokens f)) port) := by
  induction l generalizing port with
  | nil => exact .refl port
  | cons f l ih => exact (dropToken_lives port n (tokens f)).trans (ih _)

/-- The current capability was completed and its ticket consumed. -/
theorem Inv.consumed (h : Inv (some cap) port) (htakes : Takes cap.publisher port port')
    (hready : (port.tickets cap.publisher.slot).state = .ready) (hheld : port'.held = port.held)
    (hwriters : port'.writers = port.writers) : Inv none port' := by
  have hnone : port.writers = [] := by
    rcases hw : port.writers with _ | ⟨w, rest⟩
    · rfl
    · obtain ⟨hcur, -, -, hwriting⟩ := h.writer w (by rw [hw]; exact List.mem_cons_self)
      rw [← Option.some.inj hcur, hready] at hwriting
      cases hwriting
  have hidle : ∀ k, ¬((port'.tickets k).state = .writing ∨ (port'.tickets k).state = .ready) := by
    intro k hk
    by_cases hslot : k = cap.publisher.slot
    · obtain ⟨t, ht, -, hcases⟩ := htakes.tickets
      rw [hslot, ht, Function.update_self] at hk
      rcases hcases with ⟨-, hs⟩ | ⟨-, hs⟩ <;> simp [hs] at hk
    · rw [htakes.other hslot] at hk
      obtain ⟨a, ha, hpub⟩ := h.busy k hk
      cases ha
      exact hslot (by rw [hpub])
  refine ⟨fun k => ?_, fun a ha => .inr ?_, fun k hk => absurd hk (hidle k), ?_, ?_,
    fun k hk => absurd (.inl hk) (hidle k), fun a ha => by cases ha⟩
  · by_cases hslot : k = cap.publisher.slot
    · obtain ⟨t, ht, -, hcases⟩ := htakes.tickets
      have hpos := h.positive cap.publisher.slot
      rw [htakes.live.1] at hpos
      rw [hslot, ht, Function.update_self]
      rcases hcases with ⟨hg, -⟩ | ⟨hg, -⟩ <;> omega
    · rw [htakes.other hslot]
      exact h.positive k
  · rw [hheld] at ha
    rcases h.held a ha with hcur | hdead
    · cases hcur
      exact htakes.dead
    · exact htakes.dead_other hdead
  · rw [hwriters, hnone]
    simp
  · rw [hwriters, hnone]
    exact Nat.zero_le _

/-- A ticket that waits for its turn is given up. -/
theorem Inv.dropped (h : Inv cur port) {q : Publisher} (htakes : Takes q port port')
    (hreserved : port.isReserved q) (hheld : port'.held = port.held)
    (hwriters : port'.writers = port.writers) : Inv cur port' := by
  obtain ⟨t, ht, -, hcases⟩ := htakes.tickets
  have hstate : t.state ≠ .writing ∧ t.state ≠ .ready := by
    rcases hcases with ⟨-, hs⟩ | ⟨-, hs⟩ <;> simp [hs]
  have hbusy : ∀ k, (port'.tickets k).state = .writing ∨ (port'.tickets k).state = .ready →
      k ≠ q.slot := by
    rintro k hk rfl
    rw [ht, Function.update_self] at hk
    exact hk.elim hstate.1 hstate.2
  refine ⟨fun k => ?_, fun a ha => ?_, fun k hk => ?_, fun w hw => ?_, ?_, fun k hk => ?_,
    fun a ha hready => ?_⟩
  · by_cases hslot : k = q.slot
    · have hpos := h.positive q.slot
      rw [htakes.live.1] at hpos
      rw [hslot, ht, Function.update_self]
      rcases hcases with ⟨hg, -⟩ | ⟨hg, -⟩ <;> omega
    · rw [htakes.other hslot]
      exact h.positive k
  · rw [hheld] at ha
    exact (h.held a ha).imp_right htakes.dead_other
  · have hslot := hbusy k hk
    rw [htakes.other hslot] at hk ⊢
    exact h.busy k hk
  · rw [hwriters] at hw
    obtain ⟨hc, hmem, hg, hs⟩ := h.writer w hw
    have hslot : w.capability.publisher.slot ≠ q.slot := by
      intro heq
      rw [heq, (isReserved_iff.mp hreserved).2] at hs
      cases hs
    rw [hheld, htakes.other hslot]
    exact ⟨hc, hmem, hg, hs⟩
  · rw [hwriters]
    exact h.single
  · rw [htakes.other (hbusy k (.inl hk))] at hk
    rw [hwriters]
    exact h.writing k hk
  · have hslot := hbusy _ (.inr hready)
    rw [htakes.other hslot] at hready ⊢
    exact h.payload a ha hready

/-- A free ticket is reserved. -/
theorem reserve_spec {n operation : ℕ} {q : Publisher} (h : port.reserve n operation = .ok (q, port')) :
    q.slot < n ∧ (port.tickets q.slot).state = .free ∧
      (port.tickets q.slot).generation = q.generation ∧ port'.tickets = Function.update port.tickets q.slot
        { port.tickets q.slot with state := .reserved, operation } ∧
      port'.held = port.held ∧ port'.writers = port.writers ∧ port'.results = port.results := by
  unfold Port.reserve at h
  split at h
  · cases h
  · next i hfind =>
    obtain ⟨rfl, rfl⟩ := Prod.mk.inj (Except.ok.inj h)
    have hstate := List.find?_some hfind
    simp only [decide_eq_true_eq] at hstate
    exact ⟨List.mem_range.mp (List.mem_of_find?_eq_some hfind), hstate, rfl, rfl, rfl, rfl, rfl⟩

section Reserve

variable {q q' : Publisher} {operation : ℕ} (hfree : (port.tickets q.slot).state = .free)
  (hgeneration : (port.tickets q.slot).generation = q.generation)
  (htickets : port'.tickets = Function.update port.tickets q.slot
    { port.tickets q.slot with state := .reserved, operation })

include hgeneration htickets

theorem reserve_live : port'.Live q ∧ (port'.tickets q.slot).operation = operation := by
  rw [Live, htickets, Function.update_self]
  exact ⟨⟨hgeneration, rfl⟩, rfl⟩

include hfree

/-- The tickets of the other tokens stay as they are. -/
theorem reserve_other (hq' : port.Live q' ∨ port.Dead q') : q' ≠ q ∧
    (port.Live q' → port'.Live q' ∧
      (port'.tickets q'.slot).operation = (port.tickets q'.slot).operation) ∧
    (port.Dead q' → port'.Dead q') := by
  by_cases hslot : q'.slot = q.slot
  · have hlt : q'.generation < q.generation := by
      rcases hq' with ⟨-, hpending⟩ | hlt | ⟨-, hretired⟩
      · rw [hslot] at hpending
        simp [CompletionSlot.pending, hfree] at hpending
      · rw [hslot, hgeneration] at hlt
        exact hlt
      · rw [hslot, hfree] at hretired
        cases hretired
    have hdead : port'.Dead q' := by
      refine .inl ?_
      rw [hslot, htickets, Function.update_self]
      show q'.generation < (port.tickets q.slot).generation
      omega
    refine ⟨fun heq => ?_, fun hlive => ?_, fun _ => hdead⟩
    · rw [heq] at hlt
      omega
    · have := hlive.1
      rw [hslot] at this
      omega
  · have hother : port'.tickets q'.slot = port.tickets q'.slot := by
      rw [htickets, Function.update_of_ne hslot]
    rw [Live, Live, Dead, Dead, hother]
    exact ⟨fun heq => hslot (by rw [heq]), fun h => ⟨h, rfl⟩, fun h => h⟩

/-- The reservation of a ticket keeps the invariant. -/
theorem Inv.reserve (h : Inv cur port) (hheld : port'.held = port.held)
    (hwriters : port'.writers = port.writers) : Inv cur port' := by
  have hself : port'.tickets q.slot = { port.tickets q.slot with state := .reserved, operation } := by
    rw [htickets, Function.update_self]
  have hother : ∀ k, k ≠ q.slot → port'.tickets k = port.tickets k := by
    intro k hk
    rw [htickets, Function.update_of_ne hk]
  have hbusy : ∀ k, (port'.tickets k).state = .writing ∨ (port'.tickets k).state = .ready →
      k ≠ q.slot := by
    rintro k hk rfl
    rw [hself] at hk
    simp at hk
  refine ⟨fun k => ?_, fun a ha => ?_, fun k hk => ?_, fun w hw => ?_, ?_, fun k hk => ?_,
    fun a ha hready => ?_⟩
  · by_cases hslot : k = q.slot
    · rw [hslot, hself]
      exact h.positive q.slot
    · rw [hother k hslot]
      exact h.positive k
  · rw [hheld] at ha
    rcases h.held a ha with hcur | hdead
    · exact .inl hcur
    · exact .inr ((reserve_other hfree hgeneration htickets (.inr hdead)).2.2 hdead)
  · have hslot := hbusy k hk
    rw [hother k hslot] at hk ⊢
    exact h.busy k hk
  · rw [hwriters] at hw
    obtain ⟨hc, hmem, hg, hs⟩ := h.writer w hw
    have hslot : w.capability.publisher.slot ≠ q.slot := by
      intro heq
      rw [heq, hfree] at hs
      cases hs
    rw [hheld, hother _ hslot]
    exact ⟨hc, hmem, hg, hs⟩
  · rw [hwriters]
    exact h.single
  · rw [hother k (hbusy k (.inl hk))] at hk
    rw [hwriters]
    exact h.writing k hk
  · have hslot := hbusy _ (.inr hready)
    rw [hother _ hslot] at hready ⊢
    exact h.payload a ha hready

end Reserve

theorem reserve_lives {n operation : ℕ} {q : Publisher} (h : port.reserve n operation = .ok (q, port')) :
    Lives port port' := by
  obtain ⟨-, hfree, -, htickets, -⟩ := reserve_spec h
  exact .update htickets (CompletionSlot.leads_reserve hfree operation)

/-- Some tickets that wait for their turn may be given up, the others stay. -/
structure Sheds (S : Publisher → Prop) (port port' : Port) : Prop where
  inv : ∀ cur, Inv cur port → Inv cur port'
  live : ∀ q, ¬S q → port.Live q → port'.Live q ∧
    (port'.tickets q.slot).operation = (port.tickets q.slot).operation
  dead : ∀ q, port.Dead q → port'.Dead q
  held : port'.held = port.held
  claimed : ∀ cap o, port.Inv (some cap) → Claimed port cap o → Claimed port' cap o

theorem Sheds.refl (S : Publisher → Prop) (port : Port) : Sheds S port port :=
  ⟨fun _ h => h, fun _ _ h => ⟨h, rfl⟩, fun _ h => h, rfl, fun _ _ _ h => h⟩

theorem Sheds.trans {S : Publisher → Prop} (h : Sheds S port port') (h' : Sheds S port' port'') :
    Sheds S port port'' := by
  refine ⟨fun cur hc => h'.inv cur (h.inv cur hc), fun q hq hlive => ?_,
    fun q hd => h'.dead q (h.dead q hd), h'.held.trans h.held,
    fun cap o hinv hc => h'.claimed cap o (h.inv _ hinv) (h.claimed cap o hinv hc)⟩
  obtain ⟨hlive₁, hop₁⟩ := h.live q hq hlive
  obtain ⟨hlive₂, hop₂⟩ := h'.live q hq hlive₁
  exact ⟨hlive₂, hop₂.trans hop₁⟩

/-- A token that is given up sheds its own ticket only. -/
theorem dropToken_sheds {S : Publisher → Prop} {n : ℕ} (token : Token)
    (htoken : ∀ q, token = some q → S q ∧ q.slot < n) : Sheds S port (port.dropToken n token) := by
  rcases token with _ | q
  · exact .refl S port
  · obtain ⟨hS, hlt⟩ := htoken q rfl
    by_cases hreserved : port.isReserved q
    · obtain ⟨htakes, hheld, hwriters, hresults⟩ := dropToken_takes hreserved hlt
      refine ⟨fun cur h => h.dropped htakes hreserved hheld hwriters, fun q' hq' hlive => ?_,
        fun q' hd => htakes.dead_other hd, hheld, fun cap o hinv hc => ?_⟩
      · obtain ⟨hslot, hlive'⟩ := htakes.live_other hlive fun heq => hq' (heq ▸ hS)
        exact ⟨hlive', by rw [htakes.other hslot]⟩
      · refine hc.of_tickets (htakes.other fun heq => ?_) hwriters fun _ => by rw [hresults]
        exact hinv.claimed_state hc (by rw [heq]; exact (isReserved_iff.mp hreserved).2)
    · rw [dropToken, if_neg hreserved]
      exact .refl S port

theorem dropTokens_sheds {S : Publisher → Prop} {n : ℕ} {tokens : ℕ → Token} (l : List ℕ)
    (htokens : ∀ f q, tokens f = some q → S q ∧ q.slot < n) :
    Sheds S port (l.foldl (fun p f => p.dropToken n (tokens f)) port) := by
  induction l generalizing port with
  | nil => exact .refl S port
  | cons f l ih => exact (dropToken_sheds (tokens f) (htokens f)).trans ih

/-- A field is begun. -/
theorem Inv.start (h : Inv none port) (cap : AsyncResult) : Inv (some cap) port := by
  refine ⟨h.positive, fun a ha => .inr ?_, fun t ht => ?_, fun w hw => ?_, h.single, h.writing,
    fun a _ hready => ?_⟩
  · rcases h.held a ha with hcur | hdead
    · cases hcur
    · exact hdead
  · obtain ⟨a, ha, -⟩ := h.busy t ht
    cases ha
  · cases (h.writer w hw).1
  · obtain ⟨b, hb, -⟩ := h.busy _ (.inr hready)
    cases hb

end Port

end Vita.Transaction
