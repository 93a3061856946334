import Vita.Transaction.Lane
import Vita.Transaction.Ports

/-!
# The tickets of an engine

An engine and its backend use the tickets of the completion arena as the arena provides for it: every
ticket is reserved, claimed, finished, taken and handed over in this order, generation by generation.

Main results:
- `Act.lives`: every act of the engine goes on with the life of the tickets;
- `tickets_live`: what follows for two states of a run.
-/

namespace Vita.Transaction.Engine

open Checked Timing State Codec

variable {σ : Type} {c : Config σ} {p p' : Phase} {w w' : Engine σ}

/-- Every act goes on with the life of the tickets. -/
theorem Act.lives {i : ℕ} (h : Ports c w) (hb : Base c p w) (hact : Act c i p w p' w') :
    w.env.port.Lives w'.env.port := by
  by_cases hp : p = .idle
  · subst hp
    cases hact with
    | @settle _ t record port htake hfind =>
      obtain ⟨-, -, hinv, -⟩ := h.consumed hb htake hfind
      obtain ⟨reported, heq, -⟩ := consume_applied port hfind
      obtain ⟨actions, hactions⟩ :=
        (applyOutcome_applied (c := c) true i (w.slots i).runningField reported (w.setPort port)).env
      have htaken := Port.consume_lives w.env.port (c.transactions * 4) t
      rw [htake] at htaken
      rw [heq, hactions]
      exact htaken.trans (hinv.actAll actions).lives
    | own | enter | query | drain | scratch | activate | disarm | confirm => exact .refl _
    | reserve hidle hf hheld _ hreserve =>
      obtain ⟨q, port, field, hport, rfl⟩ := reserveTicket_spec hreserve
      exact (Port.reserve_lives hport).trans (.of_tickets rfl)
    | drop hidle => exact Port.dropTokens_lives _ _ _ _
    | release hrelease =>
      obtain ⟨-, -, hw'⟩ := release_spec hrelease
      subst hw'
      exact (Port.dropTokens_lives _ _ _ _).trans (.of_tickets (releasedPort_spec i w).1)
  · rcases hact.turn_cases hb hp with hplain | ⟨now, field, rfl, -, hbegun, rfl⟩
    · exact (h.plain hb hact hplain).2.2.lives
    · exact .refl _

/-- Between two states of a run every ticket goes on with its life. -/
theorem Reachable.lives (h : Reachable c w) (inputs : List (Input σ)) :
    w.env.port.Lives (Engine.run c w inputs).env.port := by
  obtain ⟨hb, hp, -⟩ := ports_invariant (P := fun _ _ => True) (fun _ _ _ _ => trivial)
    (fun _ _ _ _ _ _ _ _ _ => trivial) (fun _ _ _ _ _ _ _ => trivial) h
  refine ((run_moves inputs w).invariant
    (P := fun p v => Base c p v ∧ Ports c v ∧ w.env.port.Lives v.env.port)
    (fun p v p' v' ⟨hb, hp, hlives⟩ hmove => ?_) ⟨hb, hp, .refl _⟩).2.2
  refine ⟨hb.move hmove, ?_⟩
  rcases hmove.rest hp hb with ⟨i, hact⟩ | ⟨rfl, hrest⟩
  · exact ⟨hp.act hb hact, hlives.trans (hact.lives hp hb)⟩
  · exact ⟨hp.rest hb hrest, hlives.trans hrest.port.lives⟩

/-- A ticket of a run has lived since its first generation. -/
theorem Reachable.lived (h : Reachable c w) (i : ℕ) :
    Completion.Ticket.Leads ⟨1, .free⟩ (w.env.port.tickets i).life := by
  obtain ⟨ext, pool, state, timeline, inputs, rfl⟩ := h
  have hstart : Reachable c (initial ext pool state timeline : Engine σ) :=
    ⟨ext, pool, state, timeline, [], rfl⟩
  exact hstart.lives inputs i

/-- In every run, and whatever the backend does with its capabilities, the tickets of the port are used as
the arena provides for it. The events of a ticket are ordered by generation and kind, a record is handed
over with the operation that was reserved and the result that was finished, and that is what `consume`
returns. Generations only grow up to the last one, and a ticket that is retired stays so. -/
theorem tickets_live (h : Reachable c w) (inputs : List (Input σ)) (i : ℕ) :
    ∃ before after,
      Completion.Ticket.replay ⟨1, .free⟩ before = some (w.env.port.tickets i).life ∧
      (w.env.port.tickets i).life.replay after = some ((run c w inputs).env.port.tickets i).life ∧
      ((before ++ after).map Completion.place).Pairwise (· < ·) ∧
      (∀ g k record, (g, .obtain k record) ∈ before ++ after → ∃ k',
        (g, .reserve record.operation) ∈ before ++ after ∧ (g, .claim k') ∈ before ++ after ∧
        (g, .finish k' record.result) ∈ before ++ after) ∧
      (∀ n record port, w.env.port.consume n i = (some record, port) → ∃ k,
        ((w.env.port.tickets i).generation, .reserve (.ofNat record.operation)) ∈ before ∧
        ((w.env.port.tickets i).generation, .claim k) ∈ before ∧
        ((w.env.port.tickets i).generation, .finish k record.result.stored) ∈ before) ∧
      (w.env.port.tickets i).generation ≤ ((run c w inputs).env.port.tickets i).generation ∧
      ((run c w inputs).env.port.tickets i).generation ≤ Completion.maxTicketGeneration ∧
      ((w.env.port.tickets i).state = .retired →
        ((run c w inputs).env.port.tickets i).life = (w.env.port.tickets i).life) := by
  have hlater := h.lives inputs i
  have hlast := (h.run inputs).lived i
  obtain ⟨before, hbefore⟩ := h.lived i
  obtain ⟨after, hafter⟩ := h.lives inputs i
  have hall : Completion.Ticket.replay ⟨1, .free⟩ (before ++ after) =
      some ((run c w inputs).env.port.tickets i).life := by
    rw [Completion.Ticket.replay_append, hbefore, Option.bind_some, hafter]
  refine ⟨before, after, hbefore, hafter, (Completion.Ticket.replay_places hall).1,
    (Completion.Ticket.obtained_sound rfl hall).2, fun n record port hconsume => ?_, hlater.generation_le,
    hlast.le_max (by decide), fun hretired => hlater.retired ?_⟩
  · obtain ⟨-, hready, hoperation, hresult, -⟩ := Port.consume_takes hconsume
    have hrecorded := (Completion.Ticket.obtained_sound rfl hbefore).1
    unfold Completion.Ticket.Recorded CompletionSlot.life at hrecorded
    rw [hready] at hrecorded
    rw [hoperation, hresult]
    exact hrecorded
  · simp only [CompletionSlot.life, hretired]

namespace Bench

/-- A device has completed a field, and the engine has not looked yet. -/
def published : Engine Unit :=
  run config start
    [.accept (command 1 immediate {} [(Field.referencePoint, 1)]) (now 1 []), .progress (now 2 []),
      execute 0 Field.referencePoint 1]

theorem published_consumed : (published.env.port.consume 8 0).1.map (fun r => (r.operation, r.result.value)) =
    some (1, 0) ∧ (published.env.port.tickets 0).generation = 1 ∧
    ((run config published [.progress (now 3 [])]).env.port.tickets 0).generation = 2 := by
  decide +kernel

end Bench

open Bench in
/-- The ticket of a field that is executed: its record is taken, and its next generation is free. -/
theorem tickets_live_published : Reachable config published ∧
    ((run config published [.progress (now 3 [])]).env.port.tickets 0).generation = 2 ∧
    ∃ before after, Completion.Ticket.replay ⟨1, .free⟩ before = some (published.env.port.tickets 0).life ∧
      (published.env.port.tickets 0).life.replay after =
        some ((run config published [.progress (now 3 [])]).env.port.tickets 0).life ∧
      (1, .reserve 1) ∈ before ∧ ∃ k, (1, .claim k) ∈ before := by
  have hreachable : Reachable config published := ⟨(), _, {}, none, _, rfl⟩
  obtain ⟨before, after, hbefore, hafter, -, -, hconsumed, -⟩ :=
    tickets_live hreachable [.progress (now 3 [])] 0
  obtain ⟨hrecord, hgeneration, hlater⟩ := published_consumed
  obtain ⟨⟨r, port⟩, hconsume⟩ : ∃ x, published.env.port.consume 8 0 = x := ⟨_, rfl⟩
  rw [hconsume] at hrecord
  obtain ⟨record, rfl, hvalues⟩ := Option.map_eq_some_iff.mp hrecord
  obtain ⟨k, hreserve, hclaim, -⟩ := hconsumed 8 record port hconsume
  rw [hgeneration] at hreserve hclaim
  rw [(Prod.mk.inj hvalues).1] at hreserve
  exact ⟨hreachable, hlater, before, after, hbefore, hafter, hreserve, k, hclaim⟩

end Vita.Transaction.Engine
