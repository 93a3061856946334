import Vita.Core.Error
import Mathlib.Data.List.Induction
import Mathlib.Data.List.Nodup
import Mathlib.Order.Nat

/-!
# The life of a completion ticket

What a slot of the arena is for, without threads and without its tagged word: a generation of a ticket
is reserved for an operation, claimed by a writer, finished with a result, taken by a consumer and
handed over, each once and in this order. The last generation is not followed by another one.

Main results:
- `replay_places`: the events of a ticket are strictly ordered by generation and kind;
- `obtained_sound`: what a consumer obtains is what was reserved and finished;
- `Leads`: where a ticket can come to stand.
-/

namespace Vita.Completion

inductive CompletionStatus where
  | succeeded | failed | cancelled | abandoned
deriving DecidableEq

structure CompletionResult where
  status : CompletionStatus := .succeeded
  error : Error := { code := .invalidState }
  value : UInt64 := 0
  effectiveMonotonicNs : UInt64 := 0
deriving DecidableEq

structure CompletionRecord where
  operation : UInt64 := 0
  result : CompletionResult := {}
deriving DecidableEq

def maxTicketGeneration : ℕ := 2 ^ 56 - 1

/-- What happens to a generation of a ticket; writers and consumers are numbered. -/
inductive Act where
  | reserve (operation : UInt64)
  | claim (writer : ℕ)
  | finish (writer : ℕ) (result : CompletionResult)
  | take (consumer : ℕ)
  | obtain (consumer : ℕ) (record : CompletionRecord)
deriving DecidableEq

/-- Where a generation of a ticket is, with what is known of it. -/
inductive Phase where
  | free
  | reserved (operation : UInt64)
  | writing (operation : UInt64) (writer : ℕ)
  | ready (operation : UInt64) (result : CompletionResult)
  | reading (operation : UInt64) (result : CompletionResult) (consumer : ℕ)
  | retired

structure Ticket where
  generation : ℕ
  phase : Phase

namespace Ticket

/-- The ticket once its record was handed over. -/
def released (generation : ℕ) : Ticket :=
  if generation = maxTicketGeneration then ⟨generation, .retired⟩ else ⟨generation + 1, .free⟩

/-- The ticket after an event of a generation, if it may happen. -/
def next (t : Ticket) (generation : ℕ) (act : Act) : Option Ticket :=
  if generation ≠ t.generation then none
  else match t.phase, act with
    | .free, .reserve operation => some ⟨generation, .reserved operation⟩
    | .reserved operation, .claim k => some ⟨generation, .writing operation k⟩
    | .writing operation k, .finish k' result =>
      if k' = k then some ⟨generation, .ready operation result⟩ else none
    | .ready operation result, .take c => some ⟨generation, .reading operation result c⟩
    | .reading operation result c, .obtain c' record =>
      if c' = c ∧ record = ⟨operation, result⟩ then some (released generation) else none
    | _, _ => none

def replay (t : Ticket) : List (ℕ × Act) → Option Ticket
  | [] => some t
  | (g, act) :: rest => (t.next g act).bind (replay · rest)

theorem replay_append (t : Ticket) (events more : List (ℕ × Act)) :
    t.replay (events ++ more) = (t.replay events).bind (replay · more) := by
  induction events generalizing t with
  | nil => rfl
  | cons e events ih =>
    rw [List.cons_append, replay, replay, Option.bind_assoc]
    congr 1
    funext u
    exact ih u

theorem replay_concat {t u u' : Ticket} {events : List (ℕ × Act)} {g : ℕ} {act : Act}
    (h : t.replay events = some u) (hnext : u.next g act = some u') :
    t.replay (events ++ [(g, act)]) = some u' := by
  rw [replay_append, h, Option.bind_some, replay, hnext]
  rfl

/-- The five ways in which a ticket moves. -/
theorem next_eq_some {t t' : Ticket} {g : ℕ} {act : Act} (h : t.next g act = some t') :
    g = t.generation ∧
      ((∃ operation, act = .reserve operation ∧ t.phase = .free ∧ t' = ⟨g, .reserved operation⟩) ∨
      (∃ operation k, act = .claim k ∧ t.phase = .reserved operation ∧
        t' = ⟨g, .writing operation k⟩) ∨
      (∃ operation k result, act = .finish k result ∧ t.phase = .writing operation k ∧
        t' = ⟨g, .ready operation result⟩) ∨
      (∃ operation result c, act = .take c ∧ t.phase = .ready operation result ∧
        t' = ⟨g, .reading operation result c⟩) ∨
      ∃ operation result c, act = .obtain c ⟨operation, result⟩ ∧
        t.phase = .reading operation result c ∧ t' = released g) := by
  unfold next at h
  split at h
  · cases h
  · next hg =>
    refine ⟨not_not.mp hg, ?_⟩
    split at h
    · next operation hphase =>
      cases h
      exact .inl ⟨_, rfl, hphase, rfl⟩
    · next hphase =>
      cases h
      exact .inr (.inl ⟨_, _, rfl, hphase, rfl⟩)
    · next hphase =>
      split at h
      · next hk =>
        cases h
        subst hk
        exact .inr (.inr (.inl ⟨_, _, _, rfl, hphase, rfl⟩))
      · cases h
    · next hphase =>
      cases h
      exact .inr (.inr (.inr (.inl ⟨_, _, _, rfl, hphase, rfl⟩)))
    · next hphase =>
      split at h
      · next hc =>
        cases h
        obtain ⟨rfl, rfl⟩ := hc
        exact .inr (.inr (.inr (.inr ⟨_, _, _, rfl, hphase, rfl⟩)))
      · cases h
    · cases h

end Ticket

/-! ## The order of the events -/

/-- The place of an event within its generation. -/
def Act.rank : Act → ℕ
  | .reserve _ => 0
  | .claim _ => 1
  | .finish .. => 2
  | .take _ => 3
  | .obtain .. => 4

/-- The event that a phase waits for. -/
def Phase.rank : Phase → ℕ
  | .free => 0
  | .reserved _ => 1
  | .writing .. => 2
  | .ready .. => 3
  | .reading .. => 4
  | .retired => 5

/-- Generation and kind of an event, as one number. -/
def place (e : ℕ × Act) : ℕ := 6 * e.1 + e.2.rank

def Ticket.place (t : Ticket) : ℕ := 6 * t.generation + t.phase.rank

namespace Ticket

variable {t t' u : Ticket} {g : ℕ} {act : Act} {events : List (ℕ × Act)}

theorem released_place (g : ℕ) : 6 * g + 4 < (released g).place := by
  unfold released
  split
  all_goals
    simp only [place, Phase.rank]
    omega

/-- An event happens at the ticket's place and moves the ticket on. -/
theorem next_place (h : t.next g act = some t') :
    Completion.place (g, act) = t.place ∧ t.place < t'.place := by
  obtain ⟨rfl, hcases⟩ := next_eq_some h
  rcases hcases with ⟨operation, rfl, hp, rfl⟩ | ⟨operation, k, rfl, hp, rfl⟩ |
    ⟨operation, k, result, rfl, hp, rfl⟩ | ⟨operation, result, c, rfl, hp, rfl⟩ |
    ⟨operation, result, c, rfl, hp, rfl⟩
  case inr.inr.inr.inr =>
    refine ⟨by simp [Completion.place, place, hp, Act.rank, Phase.rank], ?_⟩
    have h := released_place t.generation
    rw [place, hp]
    exact h
  all_goals simp [Completion.place, place, hp, Act.rank, Phase.rank]

theorem next_generation_le (h : t.next g act = some t') : t.generation ≤ t'.generation := by
  obtain ⟨rfl, hcases⟩ := next_eq_some h
  rcases hcases with ⟨operation, rfl, hp, rfl⟩ | ⟨operation, k, rfl, hp, rfl⟩ |
    ⟨operation, k, result, rfl, hp, rfl⟩ | ⟨operation, result, c, rfl, hp, rfl⟩ |
    ⟨operation, result, c, rfl, hp, rfl⟩
  case inr.inr.inr.inr =>
    unfold released
    split <;> simp
  all_goals exact le_rfl

/-- The events of a ticket come in strictly increasing places, all before where it stands. -/
theorem replay_places (h : t.replay events = some u) :
    (events.map Completion.place).Pairwise (· < ·) ∧
      ∀ e ∈ events, Completion.place e < u.place := by
  induction events using List.reverseRecOn generalizing u with
  | nil => simp
  | append_singleton events e ih =>
    obtain ⟨g, act⟩ := e
    rw [replay_append, Option.bind_eq_some_iff] at h
    obtain ⟨v, hv, hlast⟩ := h
    rw [replay, Option.bind_eq_some_iff] at hlast
    obtain ⟨u', hnext, hu⟩ := hlast
    cases hu
    obtain ⟨hsorted, hbefore⟩ := ih hv
    obtain ⟨hplace, hlt⟩ := next_place hnext
    constructor
    · rw [List.map_append, List.pairwise_append]
      refine ⟨hsorted, List.pairwise_singleton _ _, ?_⟩
      intro a ha b hb
      obtain ⟨e, he, rfl⟩ := List.mem_map.mp ha
      rw [List.map_singleton, List.mem_singleton] at hb
      rw [hb, hplace]
      exact hbefore e he
    · intro e he
      rcases List.mem_append.mp he with he | he
      · exact (hbefore e he).trans hlt
      · rw [List.mem_singleton] at he
        rw [he, hplace]
        exact hlt

/-- Each kind of event happens at most once in a generation. -/
theorem replay_once (h : t.replay events = some u) (n : ℕ) :
    (events.map Completion.place).count n ≤ 1 :=
  List.nodup_iff_count_le_one.mp ((replay_places h).1.imp fun hlt => hlt.ne) n

/-- Two events of one kind in one generation are the same event. -/
theorem replay_unique (h : t.replay events = some u) {act' : Act} (hmem : (g, act) ∈ events)
    (hmem' : (g, act') ∈ events) (hrank : act.rank = act'.rank) : act = act' := by
  have hnodup : (events.map Completion.place).Nodup := (replay_places h).1.imp fun hlt => hlt.ne
  have heq := List.inj_on_of_nodup_map hnodup hmem hmem' (by rw [Completion.place, Completion.place, hrank])
  cases heq
  rfl

/-! ## What is handed over -/

/-- What the events say about where the ticket stands. -/
def Recorded (events : List (ℕ × Act)) (t : Ticket) : Prop :=
  match t.phase with
  | .reserved operation => (t.generation, .reserve operation) ∈ events
  | .writing operation k =>
    (t.generation, .reserve operation) ∈ events ∧ (t.generation, .claim k) ∈ events
  | .ready operation result => ∃ k, (t.generation, .reserve operation) ∈ events ∧
      (t.generation, .claim k) ∈ events ∧ (t.generation, .finish k result) ∈ events
  | .reading operation result _ => ∃ k, (t.generation, .reserve operation) ∈ events ∧
      (t.generation, .claim k) ∈ events ∧ (t.generation, .finish k result) ∈ events
  | .free => True
  | .retired => True

theorem recorded_released (g : ℕ) : Recorded events (released g) := by
  unfold released
  by_cases hmax : g = maxTicketGeneration
  · rw [if_pos hmax]
    trivial
  · rw [if_neg hmax]
    trivial

/-- Every event records what the ticket knows of it. -/
theorem Recorded.next (h : Recorded events t) (hnext : t.next g act = some t') :
    Recorded (events ++ [(g, act)]) t' := by
  have hlast : (g, act) ∈ events ++ [(g, act)] := by simp
  have hold : ∀ {e}, e ∈ events → e ∈ events ++ [(g, act)] := fun he => List.mem_append_left _ he
  obtain ⟨hg, hcases⟩ := next_eq_some hnext
  unfold Recorded at h
  rcases hcases with ⟨operation, rfl, hp, rfl⟩ | ⟨operation, k, rfl, hp, rfl⟩ |
    ⟨operation, k, result, rfl, hp, rfl⟩ | ⟨operation, result, c, rfl, hp, rfl⟩ |
    ⟨operation, result, c, rfl, hp, rfl⟩ <;> rw [hp] at h
  · exact hlast
  · exact ⟨hold (hg ▸ h), hlast⟩
  · exact ⟨k, hold (hg ▸ h.1), hold (hg ▸ h.2), hlast⟩
  · obtain ⟨k, hreserve, hclaim, hfinish⟩ := h
    exact ⟨k, hold (hg ▸ hreserve), hold (hg ▸ hclaim), hold (hg ▸ hfinish)⟩
  · exact recorded_released g

/-- A record that was handed over holds the operation that was reserved and the result that was
finished by the writer with the claim. -/
theorem obtained_sound (hstart : t.phase = .free) (h : t.replay events = some u) :
    Recorded events u ∧ ∀ g c record, (g, .obtain c record) ∈ events →
      ∃ k, (g, .reserve record.operation) ∈ events ∧ (g, .claim k) ∈ events ∧
        (g, .finish k record.result) ∈ events := by
  induction events using List.reverseRecOn generalizing u with
  | nil =>
    cases h
    unfold Recorded
    rw [hstart]
    simp
  | append_singleton events e ih =>
    obtain ⟨g, act⟩ := e
    rw [replay_append, Option.bind_eq_some_iff] at h
    obtain ⟨v, hv, hlast⟩ := h
    rw [replay, Option.bind_eq_some_iff] at hlast
    obtain ⟨u', hnext, hu⟩ := hlast
    cases hu
    obtain ⟨hrecorded, hsound⟩ := ih hv
    refine ⟨hrecorded.next hnext, ?_⟩
    intro g' c record hmem
    have hold : ∀ {e}, e ∈ events → e ∈ events ++ [(g, act)] := fun he => List.mem_append_left _ he
    rcases List.mem_append.mp hmem with hmem | hmem
    · obtain ⟨k, hreserve, hclaim, hfinish⟩ := hsound g' c record hmem
      exact ⟨k, hold hreserve, hold hclaim, hold hfinish⟩
    · -- the last event: the ticket was being read
      rw [List.mem_singleton] at hmem
      cases hmem
      obtain ⟨rfl, hcases⟩ := next_eq_some hnext
      rcases hcases with ⟨_, ⟨⟩, _⟩ | ⟨_, _, ⟨⟩, _⟩ | ⟨_, _, _, ⟨⟩, _⟩ | ⟨_, _, _, ⟨⟩, _⟩ |
        ⟨operation, result, c, hact, hp, -⟩
      cases hact
      unfold Recorded at hrecorded
      rw [hp] at hrecorded
      obtain ⟨k, hreserve, hclaim, hfinish⟩ := hrecorded
      exact ⟨k, hold hreserve, hold hclaim, hold hfinish⟩

/-! ## Where a ticket can come to stand -/

/-- A ticket comes to stand elsewhere. -/
def Leads (t u : Ticket) : Prop := ∃ events, t.replay events = some u

theorem Leads.refl (t : Ticket) : t.Leads t := ⟨[], rfl⟩

theorem Leads.trans {v : Ticket} (h : t.Leads u) (h' : u.Leads v) : t.Leads v := by
  obtain ⟨events, hevents⟩ := h
  obtain ⟨more, hmore⟩ := h'
  refine ⟨events ++ more, ?_⟩
  rw [replay_append, hevents, Option.bind_some, hmore]

/-- What every event keeps holds wherever the ticket comes to stand. -/
theorem Leads.invariant {P : Ticket → Prop} (hnext : ∀ t g act t', P t → t.next g act = some t' → P t')
    (h : t.Leads u) (ht : P t) : P u := by
  obtain ⟨events, hevents⟩ := h
  induction events generalizing t with
  | nil =>
    cases hevents
    exact ht
  | cons e events ih =>
    rw [replay, Option.bind_eq_some_iff] at hevents
    obtain ⟨t', ht', hrest⟩ := hevents
    exact ih (hnext _ _ _ _ ht ht') hrest

/-- No generation follows the last one. -/
theorem Leads.le_max (h : t.Leads u) (ht : t.generation ≤ maxTicketGeneration) :
    u.generation ≤ maxTicketGeneration := by
  refine h.invariant (P := fun v => v.generation ≤ maxTicketGeneration) (fun v g act v' hle hnext => ?_) ht
  obtain ⟨rfl, hcases⟩ := next_eq_some hnext
  rcases hcases with ⟨_, -, -, rfl⟩ | ⟨_, _, -, -, rfl⟩ | ⟨_, _, _, -, -, rfl⟩ | ⟨_, _, _, -, -, rfl⟩ |
    ⟨_, _, _, -, -, rfl⟩
  case inr.inr.inr.inr =>
    unfold released
    split
    · exact hle
    · next hne => exact Nat.lt_of_le_of_ne hle hne
  all_goals exact hle

theorem Leads.generation_le (h : t.Leads u) : t.generation ≤ u.generation :=
  h.invariant (P := fun v => t.generation ≤ v.generation)
    (fun _ _ _ _ hle hnext => hle.trans (next_generation_le hnext)) le_rfl

/-- A ticket that is retired stays where it is. -/
theorem Leads.retired (hretired : t.phase = .retired) (h : t.Leads u) : u = t := by
  obtain ⟨events, hevents⟩ := h
  cases events with
  | nil =>
    cases hevents
    rfl
  | cons e events =>
    rw [replay, Option.bind_eq_some_iff] at hevents
    obtain ⟨t', hnext, -⟩ := hevents
    obtain ⟨-, hcases⟩ := next_eq_some hnext
    simp [hretired] at hcases

end Ticket

end Vita.Completion
