import Vita.Completion.Ticket
import Mathlib.Data.Nat.Bitwise

/-!
# Completion tickets deliver exactly once

Every slot of the arena follows the life of a ticket, whatever the order of the steps. The phase of a
ticket names the thread that may change the slot: the allocator while it is free, the writer that
claimed it, the consumer that took it. A thread in the middle of its work finds the slot as it left it,
because no other thread owns the slot then.

Main results:
- `Inv`: slots, threads and log fit the tickets; `inv_of_reachable`;
- `tickets_deliver_once`: what follows for every interleaving.
-/

namespace Vita.Completion

/-! ## The tagged word -/

theorem TicketState.code_lt (s : TicketState) : s.code.toNat < 256 := by
  cases s <;> decide

theorem TicketState.code_injective {s s' : TicketState} (h : s.code = s'.code) : s = s' := by
  cases s <;> cases s' <;> first | rfl | exact absurd h (by decide)

theorem maxGeneration_toNat : maxGeneration.toNat = maxTicketGeneration := by decide

/-- Generation and state do not overlap in the tagged word. -/
theorem tag_toNat {g : UInt64} (hg : g.toNat ≤ maxTicketGeneration) (s : TicketState) :
    (tag g s).toNat = g.toNat * 256 + s.code.toNat := by
  have hcode := s.code_lt
  have hsmall : g.toNat * 256 < 2 ^ 64 := by
    unfold maxTicketGeneration at hg
    omega
  have hshift : (g <<< 8).toNat = g.toNat <<< 8 := by
    rw [UInt64.toNat_shiftLeft]
    show g.toNat <<< 8 % 2 ^ 64 = _
    rw [Nat.mod_eq_of_lt]
    rw [Nat.shiftLeft_eq]
    exact hsmall
  rw [tag, UInt64.toNat_or, hshift, ← Nat.shiftLeft_add_eq_or_of_lt hcode, Nat.shiftLeft_eq]

theorem tag_state {g : UInt64} (hg : g.toNat ≤ maxTicketGeneration) (s : TicketState) :
    tag g s &&& 255 = s.code := by
  have hcode := s.code_lt
  apply UInt64.toNat_inj.mp
  rw [UInt64.toNat_and, tag_toNat hg]
  show (_ : ℕ) &&& (2 ^ 8 - 1) = _
  rw [Nat.and_two_pow_sub_one_eq_mod]
  omega

theorem tag_generation {g : UInt64} (hg : g.toNat ≤ maxTicketGeneration) (s : TicketState) :
    tag g s >>> 8 = g := by
  have hcode := s.code_lt
  apply UInt64.toNat_inj.mp
  rw [UInt64.toNat_shiftRight, tag_toNat hg]
  show (_ : ℕ) >>> 8 = _
  rw [Nat.shiftRight_eq_div_pow]
  omega

theorem tag_injective {g g' : UInt64} {s s' : TicketState} (hg : g.toNat ≤ maxTicketGeneration)
    (hg' : g'.toNat ≤ maxTicketGeneration) (h : tag g s = tag g' s') : g = g' ∧ s = s' := by
  constructor
  · rw [← tag_generation hg s, h, tag_generation hg']
  · apply TicketState.code_injective
    rw [← tag_state hg s, h, tag_state hg']

/-! ## Slots and tickets -/

def Phase.state : Phase → TicketState
  | .free => .free
  | .reserved _ => .reserved
  | .writing .. => .writing
  | .ready .. => .ready
  | .reading .. => .reading
  | .retired => .retired

/-- What a slot holds besides its tagged word. -/
def Phase.Fits (slot : CompletionSlot) : Phase → Prop
  | .free => True
  | .reserved operation => slot.operation = operation
  | .writing operation _ => slot.operation = operation
  | .ready operation result => slot.operation = operation ∧ slot.payload = result
  | .reading operation _ _ => slot.operation = operation
  | .retired => True

structure Matches (slot : CompletionSlot) (t : Ticket) : Prop where
  bounded : t.generation ≤ maxTicketGeneration
  tagged : slot.tagged = tag (UInt64.ofNat t.generation) t.phase.state
  fits : t.phase.Fits slot

theorem toNat_ofNat_generation {g : ℕ} (h : g ≤ maxTicketGeneration) : (UInt64.ofNat g).toNat = g := by
  unfold maxTicketGeneration at h
  rw [UInt64.toNat_ofNat']
  exact Nat.mod_eq_of_lt (by omega)

variable {slot : CompletionSlot} {t : Ticket}

namespace Matches

theorem state (h : Matches slot t) : slot.tagged &&& 255 = t.phase.state.code := by
  rw [h.tagged, tag_state]
  rw [toNat_ofNat_generation h.bounded]
  exact h.bounded

theorem generation (h : Matches slot t) : slot.tagged >>> 8 = UInt64.ofNat t.generation := by
  rw [h.tagged, tag_generation]
  rw [toNat_ofNat_generation h.bounded]
  exact h.bounded

theorem generation_toNat (h : Matches slot t) : (slot.tagged >>> 8).toNat = t.generation := by
  rw [h.generation, toNat_ofNat_generation h.bounded]

/-- A tagged word that was compared tells generation and state. -/
theorem of_tag {g : UInt64} {s : TicketState} (h : Matches slot t)
    (hg : g.toNat ≤ maxTicketGeneration) (htag : slot.tagged = tag g s) :
    t.generation = g.toNat ∧ t.phase.state = s := by
  have hbound : (UInt64.ofNat t.generation).toNat ≤ maxTicketGeneration := by
    rw [toNat_ofNat_generation h.bounded]
    exact h.bounded
  obtain ⟨hgen, hstate⟩ := tag_injective hbound hg (h.tagged.symm.trans htag)
  refine ⟨?_, hstate⟩
  rw [← hgen, toNat_ofNat_generation h.bounded]

end Matches

/-! ## Threads -/

/-- The threads that own a slot for a while. -/
inductive Owner where
  | allocator
  | writer (k : ℕ)
  | consumer (c : ℕ)
deriving DecidableEq

def Phase.owner : Phase → Option Owner
  | .free => some .allocator
  | .writing _ k => some (.writer k)
  | .reading _ _ c => some (.consumer c)
  | _ => none

variable {n : ℕ}

/-- What `reserve` relies on between its steps. -/
def Allocator.Holds (i : Fin n) (slot : CompletionSlot) (t : Ticket) : Allocator n → Prop
  | .idle => True
  | .scanning .. => True
  | .found _ j generation => j = i → t = ⟨generation.toNat, .free⟩
  | .filled operation j generation =>
    j = i → t = ⟨generation.toNat, .free⟩ ∧ slot.operation = operation

/-- What a writer relies on between its steps. -/
def Writer.Holds (k : ℕ) (i : Fin n) (slot : CompletionSlot) (t : Ticket) (w : Writer n) : Prop :=
  match w.stage with
  | .claimed => w.publisher.slot = i → ∃ operation,
      t = ⟨w.publisher.generation.toNat, .writing operation k⟩
  | .written result => w.publisher.slot = i → (∃ operation,
      t = ⟨w.publisher.generation.toNat, .writing operation k⟩) ∧ slot.payload = result
  | .spent => True

/-- What `consume` relies on between its steps. -/
def Consumer.Holds (c : ℕ) (i : Fin n) (slot : CompletionSlot) (t : Ticket) : Consumer n → Prop
  | .idle => True
  | .loaded _ expected => expected &&& 255 = TicketState.ready.code
  | .reading j generation => j = i → ∃ operation,
      t = ⟨generation.toNat, .reading operation slot.payload c⟩
  | .fetched j generation operation => j = i →
      t = ⟨generation.toNat, .reading operation slot.payload c⟩
  | .copied j generation record => j = i →
      t = ⟨generation.toNat, .reading record.operation record.result c⟩
  | .cleared j generation record => j = i →
      t = ⟨generation.toNat, .reading record.operation record.result c⟩

/-- The allocator does not look at a slot that another thread owns. -/
theorem Allocator.Holds.other {i : Fin n} {slot' : CompletionSlot} {t' : Ticket} {a : Allocator n}
    (h : a.Holds i slot t) (hne : t.phase.owner ≠ some .allocator) : a.Holds i slot' t' := by
  cases a with
  | idle => trivial
  | scanning => trivial
  | found operation j g =>
    intro hj
    rw [h hj] at hne
    exact absurd rfl hne
  | filled operation j g =>
    intro hj
    rw [(h hj).1] at hne
    exact absurd rfl hne

/-- Nor does a writer. -/
theorem Writer.Holds.other {k : ℕ} {i : Fin n} {slot' : CompletionSlot} {t' : Ticket} {w : Writer n}
    (h : w.Holds k i slot t) (hne : t.phase.owner ≠ some (.writer k)) : w.Holds k i slot' t' := by
  obtain ⟨p, bound, stage⟩ := w
  cases stage with
  | claimed =>
    intro hj
    obtain ⟨operation, heq⟩ := h hj
    rw [heq] at hne
    exact absurd rfl hne
  | written result =>
    intro hj
    obtain ⟨⟨operation, heq⟩, -⟩ := h hj
    rw [heq] at hne
    exact absurd rfl hne
  | spent => trivial

/-- A consumer that does not own the ticket holds what it held, whatever the slot is now. -/
theorem Consumer.Holds.other {c : ℕ} {i : Fin n} {slot' : CompletionSlot} {t' : Ticket}
    {a : Consumer n} (h : a.Holds c i slot t) (hne : t.phase.owner ≠ some (.consumer c)) :
    a.Holds c i slot' t' := by
  cases a with
  | idle => trivial
  | loaded j expected => exact h
  | reading j g =>
    intro hj
    obtain ⟨operation, heq⟩ := h hj
    rw [heq] at hne
    exact absurd rfl hne
  | fetched j g operation =>
    intro hj
    rw [h hj] at hne
    exact absurd rfl hne
  | copied j g record =>
    intro hj
    rw [h hj] at hne
    exact absurd rfl hne
  | cleared j g record =>
    intro hj
    rw [h hj] at hne
    exact absurd rfl hne

namespace Arena

variable {s s' : Arena n}

def Holds (s : Arena n) (i : Fin n) (slot : CompletionSlot) (t : Ticket) : Owner → Prop
  | .allocator => s.allocator.Holds i slot t
  | .writer k => ∀ w, s.writers[k]? = some w → w.Holds k i slot t
  | .consumer c => (s.consumers c).Holds c i slot t

/-- A thread relies on nothing in a slot that it does not own. -/
theorem Holds.other {i : Fin n} {slot' : CompletionSlot} {t' : Ticket} {o : Owner}
    (h : s.Holds i slot t o) (hne : t.phase.owner ≠ some o) : s.Holds i slot' t' o := by
  cases o with
  | allocator => exact Allocator.Holds.other h hne
  | writer k => exact fun w hw => Writer.Holds.other (h w hw) hne
  | consumer c => exact Consumer.Holds.other h hne

/-! ## The invariant -/

/-- The events of a slot. -/
def history (s : Arena n) (i : Fin n) : List (ℕ × Act) :=
  (s.log.filter (·.slot = i)).map fun e => (e.generation.toNat, e.act)

structure Inv (start : Ticket) (s : Arena n) (t : Fin n → Ticket) : Prop where
  history : ∀ i, start.replay (s.history i) = some (t i)
  slots : ∀ i, Matches (s.slots i) (t i)
  tokens : ∀ p ∈ s.tokens, p.1.generation.toNat ≤ maxTicketGeneration
  threads : ∀ i o, s.Holds i (s.slots i) (t i) o

variable {start : Ticket} {t : Fin n → Ticket}

/-- The threads' own variables, but for those of one thread, stay as they are. -/
def Apart (s s' : Arena n) (o : Owner) : Prop :=
  ∀ o', o' ≠ o → ∀ i slot t, s.Holds i slot t o' → s'.Holds i slot t o'

/-- A step of one thread that leaves the slots alone. -/
theorem Inv.quiet (h : Inv start s t) (o : Owner) (hslots : s'.slots = s.slots) (hlog : s'.log = s.log)
    (htokens : ∀ p ∈ s'.tokens, p.1.generation.toNat ≤ maxTicketGeneration)
    (happart : Apart s s' o) (hown : ∀ i, s'.Holds i (s.slots i) (t i) o) : Inv start s' t where
  history i := by
    rw [Arena.history, hlog]
    exact h.history i
  slots i := by
    rw [hslots]
    exact h.slots i
  tokens := htokens
  threads i o' := by
    rw [hslots]
    by_cases ho : o' = o
    · rw [ho]
      exact hown i
    · exact happart o' ho i _ _ (h.threads i o')

theorem history_of_log (hlog : s'.log = s.log) (i : Fin n) : s'.history i = s.history i := by
  rw [history, hlog]
  rfl

theorem history_of_event {i : Fin n} {g : UInt64} {act : Act} (hlog : s'.log = s.log ++ [⟨i, g, act⟩])
    (j : Fin n) :
    s'.history j = if j = i then s.history j ++ [(g.toNat, act)] else s.history j := by
  rw [history, hlog, List.filter_append, List.map_append]
  by_cases hj : j = i
  · rw [if_pos hj, hj]
    simp [history]
  · rw [if_neg hj]
    have hij : ¬i = j := fun h => hj h.symm
    simp [history, hij]

/-- A step of one thread on a slot that no other thread owns. -/
theorem Inv.change {i : Fin n} {t' : Ticket} (h : Inv start s t) (o : Owner)
    (howner : ∀ o', (t i).phase.owner = some o' → o' = o)
    (hslots : s'.slots = Function.update s.slots i slot)
    (hhistory : ∀ j, start.replay (s'.history j) = some (Function.update t i t' j))
    (hmatches : Matches slot t')
    (htokens : ∀ p ∈ s'.tokens, p.1.generation.toNat ≤ maxTicketGeneration)
    (happart : Apart s s' o) (hown : s'.Holds i slot t' o)
    (hfree : ∀ j, j ≠ i → s'.Holds j (s.slots j) (t j) o) :
    Inv start s' (Function.update t i t') where
  history := hhistory
  slots j := by
    rw [hslots]
    by_cases hj : j = i
    · subst hj
      rw [Function.update_self, Function.update_self]
      exact hmatches
    · rw [Function.update_of_ne hj, Function.update_of_ne hj]
      exact h.slots j
  tokens := htokens
  threads j o' := by
    rw [hslots]
    by_cases hj : j = i
    · subst hj
      rw [Function.update_self, Function.update_self]
      by_cases ho : o' = o
      · rw [ho]
        exact hown
      · refine happart o' ho j _ _ ((h.threads j o').other fun howns => ho (howner o' howns))
    · rw [Function.update_of_ne hj, Function.update_of_ne hj]
      by_cases ho : o' = o
      · rw [ho]
        exact hfree j hj
      · exact happart o' ho j _ _ (h.threads j o')

/-- A write that is no event. -/
theorem Inv.touch {i : Fin n} (h : Inv start s t) (o : Owner) (howner : (t i).phase.owner = some o)
    (hslots : s'.slots = Function.update s.slots i slot) (hlog : s'.log = s.log)
    (hmatches : Matches slot (t i)) (htokens : s'.tokens = s.tokens)
    (happart : Apart s s' o) (hown : s'.Holds i slot (t i) o)
    (hfree : ∀ j, j ≠ i → s'.Holds j (s.slots j) (t j) o) : Inv start s' t := by
  rw [← Function.update_eq_self i t]
  refine h.change o (fun o' ho' => ?_) hslots (fun j => ?_) hmatches ?_ happart hown hfree
  · rw [howner] at ho'
    exact (Option.some.inj ho').symm
  · rw [Function.update_eq_self, history_of_log hlog]
    exact h.history j
  · rw [htokens]
    exact h.tokens

/-- An event of a slot. -/
theorem Inv.event {i : Fin n} {g : UInt64} {act : Act} {t' : Ticket} (h : Inv start s t) (o : Owner)
    (howner : ∀ o', (t i).phase.owner = some o' → o' = o)
    (hslots : s'.slots = Function.update s.slots i slot)
    (hlog : s'.log = s.log ++ [⟨i, g, act⟩]) (hnext : (t i).next g.toNat act = some t')
    (hmatches : Matches slot t')
    (htokens : ∀ p ∈ s'.tokens, p.1.generation.toNat ≤ maxTicketGeneration)
    (happart : Apart s s' o) (hown : s'.Holds i slot t' o)
    (hfree : ∀ j, j ≠ i → s'.Holds j (s.slots j) (t j) o) :
    Inv start s' (Function.update t i t') := by
  refine h.change o howner hslots (fun j => ?_) hmatches htokens happart hown hfree
  rw [history_of_event hlog]
  by_cases hj : j = i
  · rw [if_pos hj, hj, Function.update_self]
    exact Ticket.replay_concat (h.history i) hnext
  · rw [if_neg hj, Function.update_of_ne hj]
    exact h.history j

/-- A step of the allocator leaves the other threads where they are. -/
theorem apart_allocator (hwriters : s'.writers = s.writers) (hconsumers : s'.consumers = s.consumers) :
    Apart s s' .allocator := by
  intro o' ho i slot t h
  cases o' with
  | allocator => exact absurd rfl ho
  | writer k =>
    unfold Holds
    rw [hwriters]
    exact h
  | consumer c =>
    unfold Holds
    rw [hconsumers]
    exact h

/-- A move of one writer leaves the others alone. -/
theorem apart_writer {k : ℕ} (hallocator : s'.allocator = s.allocator)
    (hwriters : ∀ j, j ≠ k → s'.writers[j]? = s.writers[j]?) (hconsumers : s'.consumers = s.consumers) :
    Apart s s' (.writer k) := by
  intro o' ho i slot t h
  cases o' with
  | allocator =>
    unfold Holds
    rw [hallocator]
    exact h
  | writer j =>
    show ∀ w, s'.writers[j]? = some w → w.Holds j i slot t
    rw [hwriters j fun hj => ho (by rw [hj])]
    exact h
  | consumer c =>
    unfold Holds
    rw [hconsumers]
    exact h

/-- A move of one consumer leaves the others alone. -/
theorem apart_consumer {c : ℕ} (hallocator : s'.allocator = s.allocator)
    (hwriters : s'.writers = s.writers) (hconsumers : ∀ d, d ≠ c → s'.consumers d = s.consumers d) :
    Apart s s' (.consumer c) := by
  intro o' ho i slot t h
  cases o' with
  | allocator =>
    unfold Holds
    rw [hallocator]
    exact h
  | writer j =>
    unfold Holds
    rw [hwriters]
    exact h
  | consumer d =>
    show (s'.consumers d).Holds d i slot t
    rw [hconsumers d fun hd => ho (by rw [hd])]
    exact h

/-! ## The allocator -/

theorem Phase.free_of_state {p : Phase} (h : p.state = .free) : p = .free := by
  cases p <;> first | rfl | cases h

theorem Phase.reserved_of_state {p : Phase} (h : p.state = .reserved) :
    ∃ operation, p = .reserved operation := by
  cases p <;> first | exact ⟨_, rfl⟩ | cases h

theorem Phase.ready_of_state {p : Phase} (h : p.state = .ready) :
    ∃ operation result, p = .ready operation result := by
  cases p <;> first | exact ⟨_, _, rfl⟩ | cases h

/-- A slot that was seen free is free until the allocator takes it. -/
theorem Inv.seen_free (h : Inv start s t) {i : Fin n}
    (hfree : (s.slots i).tagged &&& 255 = TicketState.free.code) :
    t i = ⟨((s.slots i).tagged >>> 8).toNat, .free⟩ := by
  have hstate := (h.slots i).state
  rw [hfree] at hstate
  have hphase := Phase.free_of_state (TicketState.code_injective hstate).symm
  rw [(h.slots i).generation_toNat, ← hphase]

/-- A step of the allocator is a reservation, or nothing. -/
theorem Inv.allocate (h : Inv start s t) : ∃ t', Inv start s.allocate t' := by
  have hold : ∀ i, s.allocator.Holds i (s.slots i) (t i) := fun i => h.threads i .allocator
  unfold Arena.allocate
  split
  · exact ⟨t, h⟩
  · next operation index hpc =>
    split
    · next hlt =>
      dsimp only
      split
      · exact ⟨t, h.quiet .allocator rfl rfl h.tokens (apart_allocator rfl rfl) fun _ => trivial⟩
      · next hseen =>
        refine ⟨t, h.quiet .allocator rfl rfl h.tokens (apart_allocator rfl rfl) fun i => ?_⟩
        intro hi
        subst hi
        exact h.seen_free (not_not.mp hseen)
    · exact ⟨t, h.quiet .allocator rfl rfl h.tokens (apart_allocator rfl rfl) fun _ => trivial⟩
  · next operation i g hpc =>
    have hi : t i = ⟨g.toNat, .free⟩ := by
      have := hold i
      rw [hpc] at this
      exact this rfl
    refine ⟨t, h.touch (i := i) .allocator (by rw [hi]; rfl) rfl rfl ?_ rfl (apart_allocator rfl rfl)
      ?_ fun j hj hij => absurd hij.symm hj⟩
    · have hslot := h.slots i
      rw [hi] at hslot ⊢
      exact ⟨hslot.bounded, hslot.tagged, trivial⟩
    · exact fun _ => ⟨hi, rfl⟩
  · next operation i g hpc =>
    obtain ⟨hi, hoperation⟩ : t i = ⟨g.toNat, .free⟩ ∧ (s.slots i).operation = operation := by
      have := hold i
      rw [hpc] at this
      exact this rfl
    have hbounded : g.toNat ≤ maxTicketGeneration := by
      have := (h.slots i).bounded
      rw [hi] at this
      exact this
    have hnext : (t i).next g.toNat (.reserve operation) = some ⟨g.toNat, .reserved operation⟩ := by
      rw [hi]
      simp [Ticket.next]
    refine ⟨_, h.event (i := i) .allocator ?_ rfl rfl hnext ?_ ?_ (apart_allocator rfl rfl) trivial
      fun _ _ => trivial⟩
    · intro o' ho'
      rw [hi] at ho'
      exact (Option.some.inj ho').symm
    · refine ⟨hbounded, ?_, hoperation⟩
      rw [UInt64.ofNat_toNat]
      rfl
    · intro p hp
      rcases List.mem_append.mp hp with hp | hp
      · exact h.tokens p hp
      · rw [List.mem_singleton] at hp
        rw [hp]
        exact hbounded

/-! ## Publishers -/

/-- A claim by the exchange of the tagged word is a claim of the ticket, or nothing. -/
theorem Inv.tryClaim (h : Inv start s t) {p : Publisher n} {bound : Option CompletionResult}
    (hp : p.generation.toNat ≤ maxTicketGeneration) : ∃ t', Inv start (s.tryClaim p bound) t' := by
  unfold Arena.tryClaim
  split
  · next htag =>
    obtain ⟨hgeneration, hstate⟩ := (h.slots p.slot).of_tag hp htag
    obtain ⟨operation, hphase⟩ := Phase.reserved_of_state hstate
    have hslot := h.slots p.slot
    have hnext : (t p.slot).next p.generation.toNat (.claim s.writers.length) =
        some ⟨p.generation.toNat, .writing operation s.writers.length⟩ := by
      have hi : t p.slot = ⟨p.generation.toNat, .reserved operation⟩ := by
        rw [← hgeneration, ← hphase]
      rw [hi]
      simp [Ticket.next]
    refine ⟨_, h.event (i := p.slot) (.writer s.writers.length) ?_ rfl rfl hnext ?_ h.tokens
      (apart_writer rfl ?_ rfl) ?_ ?_⟩
    · intro o' ho'
      rw [hphase] at ho'
      cases ho'
    · refine ⟨hp, ?_, ?_⟩
      · rw [UInt64.ofNat_toNat]
        rfl
      · have hfits := hslot.fits
        rw [hphase] at hfits
        exact hfits
    · intro j hj
      show (s.writers ++ [_])[j]? = _
      rcases Nat.lt_or_gt_of_ne hj with hlt | hgt
      · exact List.getElem?_append_left hlt
      · rw [List.getElem?_eq_none (by simp; omega), List.getElem?_eq_none (by omega)]
    · intro w hw
      have hw : (s.writers ++ [{ publisher := p, bound }])[s.writers.length]? = some w := hw
      rw [List.getElem?_concat_length] at hw
      cases hw
      exact fun _ => ⟨operation, rfl⟩
    · intro j hj w hw
      have hw : (s.writers ++ [{ publisher := p, bound }])[s.writers.length]? = some w := hw
      rw [List.getElem?_concat_length] at hw
      cases hw
      exact fun hij => absurd hij.symm hj
  · exact ⟨t, h.quiet .allocator rfl rfl h.tokens (apart_allocator rfl rfl)
      fun i => h.threads i .allocator⟩

/-- A token claims the slot that it has reserved. -/
theorem Inv.claimToken (h : Inv start s t) (k : ℕ) (result : CompletionResult) :
    ∃ t', Inv start (s.claimToken k result) t' := by
  unfold Arena.claimToken
  split
  · next p hp =>
    have hmem : (p, true) ∈ s.tokens := List.mem_of_getElem? hp
    have hinv : Inv start { s with tokens := s.tokens.set k (p, false) } t := by
      refine h.quiet .allocator rfl rfl ?_ (apart_allocator rfl rfl) fun i => h.threads i .allocator
      intro q hq
      rcases List.mem_or_eq_of_mem_set hq with hq | rfl
      · exact h.tokens q hq
      · exact h.tokens (p, true) hmem
    exact hinv.tryClaim (h.tokens (p, true) hmem)
  · exact ⟨t, h⟩

/-- The writers but for one stay where they are. -/
theorem getElem?_setWriter {k j : ℕ} {w : Writer n} (hj : j ≠ k) :
    (s.writers.set k w)[j]? = s.writers[j]? :=
  List.getElem?_set_ne fun h => hj h.symm

/-- A writer that was set. -/
theorem eq_of_setWriter {k : ℕ} {w w' : Writer n} (hw : (s.writers.set k w)[k]? = some w') : w' = w := by
  obtain ⟨hlt, heq⟩ := List.getElem?_eq_some_iff.mp hw
  rw [List.getElem_set_self] at heq
  exact heq.symm

/-- The payload that a writer stores is not visible yet. -/
theorem Inv.writePayload (h : Inv start s t) (k : ℕ) (result : CompletionResult) :
    Inv start (s.writePayload k result) t := by
  unfold Arena.writePayload
  split
  · next p bound hw =>
    obtain ⟨operation, hp⟩ := h.threads p.slot (.writer k) _ hw rfl
    refine h.touch (i := p.slot) (.writer k) (by rw [hp]; rfl) rfl rfl ?_ rfl
      (apart_writer rfl (fun j hj => getElem?_setWriter hj) rfl) ?_ ?_
    · have hslot := h.slots p.slot
      have hfits := hslot.fits
      rw [hp] at hfits
      refine ⟨hslot.bounded, hslot.tagged, ?_⟩
      rw [hp]
      exact hfits
    · intro w hw'
      obtain rfl := eq_of_setWriter hw'
      exact fun _ => ⟨⟨operation, hp⟩, rfl⟩
    · intro j hj w hw'
      obtain rfl := eq_of_setWriter hw'
      exact fun hij => absurd hij.symm hj
  · exact h

/-- The release of the tagged word finishes the ticket. -/
theorem Inv.publish (h : Inv start s t) (k : ℕ) : ∃ t', Inv start (s.publish k) t' := by
  unfold Arena.publish
  split
  · next p bound result hw =>
    obtain ⟨⟨operation, hp⟩, hpayload⟩ := h.threads p.slot (.writer k) _ hw rfl
    have hslot := h.slots p.slot
    have hnext : (t p.slot).next p.generation.toNat (.finish k result) =
        some ⟨p.generation.toNat, .ready operation result⟩ := by
      rw [hp]
      simp [Ticket.next]
    have hspent : ∀ {j slot u}, Holds ((s.setSlot p.slot
        { s.slots p.slot with tagged := tag p.generation .ready }).setWriter k ⟨p, bound, .spent⟩)
        j slot u (.writer k) := by
      intro j slot u w hw'
      obtain rfl := eq_of_setWriter hw'
      trivial
    refine ⟨_, h.event (i := p.slot) (.writer k) ?_ rfl rfl hnext ?_ h.tokens
      (apart_writer rfl (fun j hj => getElem?_setWriter hj) rfl) hspent fun _ _ => hspent⟩
    · intro o' ho'
      rw [hp] at ho'
      exact (Option.some.inj ho').symm
    · have hbounded := hslot.bounded
      have hfits := hslot.fits
      rw [hp] at hbounded hfits
      refine ⟨hbounded, ?_, hfits, hpayload⟩
      rw [UInt64.ofNat_toNat]
      rfl
  · exact ⟨t, h⟩

/-! ## Consumers -/

/-- A consumer that looks at a slot changes nothing. -/
theorem Inv.load (h : Inv start s t) (c index : ℕ) : Inv start (s.load c index) t := by
  unfold Arena.load
  split
  · split
    · next hlt =>
      dsimp only
      split
      · exact h
      · next hseen =>
        refine h.quiet (.consumer c) rfl rfl h.tokens
          (apart_consumer rfl rfl fun d hd => Function.update_of_ne hd ..) fun i => ?_
        show Consumer.Holds c i _ _ (Function.update s.consumers c _ c)
        rw [Function.update_self]
        exact not_not.mp hseen
    · exact h
  · exact h

/-- A step of `consume` that only reads. -/
theorem Inv.read (h : Inv start s t) (c : ℕ) {a : Consumer n}
    (ha : ∀ i, a.Holds c i (s.slots i) (t i)) : Inv start (s.setConsumer c a) t := by
  refine h.quiet (.consumer c) rfl rfl h.tokens
    (apart_consumer rfl rfl fun d hd => Function.update_of_ne hd ..) fun i => ?_
  show Consumer.Holds c i _ _ (Function.update s.consumers c a c)
  rw [Function.update_self]
  exact ha i

/-- The tag that a consumer leaves behind is that of the next generation, or of none. -/
theorem released_matches {g : UInt64} (hg : g.toNat ≤ maxTicketGeneration) (slot : CompletionSlot) :
    Matches { slot with tagged := releasedTag g } (Ticket.released g.toNat) := by
  unfold releasedTag Ticket.released
  have hmax : g = maxGeneration ↔ g.toNat = maxTicketGeneration := by
    rw [← maxGeneration_toNat]
    exact UInt64.toNat_inj.symm
  by_cases heq : g = maxGeneration
  · rw [if_pos heq, if_pos (hmax.mp heq)]
    refine ⟨hg, ?_, trivial⟩
    rw [UInt64.ofNat_toNat]
    rfl
  · have hne : g.toNat ≠ maxTicketGeneration := fun h => heq (hmax.mpr h)
    rw [if_neg heq, if_neg hne]
    have hsucc : UInt64.ofNat (g.toNat + 1) = g + 1 := by
      rw [UInt64.ofNat_add, UInt64.ofNat_toNat]
      rfl
    refine ⟨by show g.toNat + 1 ≤ _; omega, ?_, trivial⟩
    rw [hsucc]
    rfl

/-- A step of a consumer takes the ticket, hands its record over or does nothing. -/
theorem Inv.consume (h : Inv start s t) (c : ℕ) : ∃ t', Inv start (s.consume c) t' := by
  have hold : ∀ i, (s.consumers c).Holds c i (s.slots i) (t i) := fun i => h.threads i (.consumer c)
  have hothers : ∀ {a : Consumer n}, ∀ d, d ≠ c → Function.update s.consumers c a d = s.consumers d :=
    fun d hd => Function.update_of_ne hd ..
  have hown : ∀ {a : Consumer n} {s' : Arena n} {i slot u}, s'.consumers = Function.update s.consumers c a →
      a.Holds c i slot u → s'.Holds i slot u (.consumer c) := by
    intro a s' i slot u hs ha
    show Consumer.Holds c i slot u (s'.consumers c)
    rw [hs, Function.update_self]
    exact ha
  unfold Arena.consume
  split
  · exact ⟨t, h⟩
  · next i expected hpc =>
    split
    · next htag =>
      have hslot := h.slots i
      have hready : expected &&& 255 = TicketState.ready.code := by
        have := hold i
        rw [hpc] at this
        exact this
      have hgeneration := hslot.generation_toNat
      rw [htag] at hgeneration
      have hstate := hslot.state
      rw [htag, hready] at hstate
      obtain ⟨operation, result, hphase⟩ :=
        Phase.ready_of_state (TicketState.code_injective hstate).symm
      have hnext : (t i).next (expected >>> 8).toNat (.take c) =
          some ⟨(expected >>> 8).toNat, .reading operation result c⟩ := by
        have hi : t i = ⟨(expected >>> 8).toNat, .ready operation result⟩ := by
          rw [hgeneration, ← hphase]
        rw [hi]
        simp [Ticket.next]
      have hfits := hslot.fits
      rw [hphase] at hfits
      refine ⟨_, h.event (i := i) (.consumer c) ?_ rfl rfl hnext ?_ h.tokens
        (apart_consumer rfl rfl hothers) (hown rfl ?_) fun j hj => hown rfl ?_⟩
      · intro o' ho'
        rw [hphase] at ho'
        cases ho'
      · refine ⟨?_, ?_, hfits.1⟩
        · rw [hgeneration]
          exact hslot.bounded
        · rw [UInt64.ofNat_toNat]
          rfl
      · exact fun _ => ⟨operation, by rw [hfits.2]⟩
      · exact fun hij => absurd hij.symm hj
    · exact ⟨t, h.read c fun _ => trivial⟩
  · next i g hpc =>
    obtain ⟨operation, hi⟩ : ∃ operation, t i = ⟨g.toNat, .reading operation (s.slots i).payload c⟩ := by
      have := hold i
      rw [hpc] at this
      exact this rfl
    refine ⟨t, h.read c fun j hij => ?_⟩
    subst hij
    have hfits := (h.slots i).fits
    rw [hi] at hfits
    rw [hi, hfits]
  · next i g operation hpc =>
    have hi : t i = ⟨g.toNat, .reading operation (s.slots i).payload c⟩ := by
      have := hold i
      rw [hpc] at this
      exact this rfl
    refine ⟨t, h.read c fun j hij => ?_⟩
    subst hij
    exact hi
  · next i g record hpc =>
    have hi : t i = ⟨g.toNat, .reading record.operation record.result c⟩ := by
      have := hold i
      rw [hpc] at this
      exact this rfl
    refine ⟨t, h.touch (i := i) (.consumer c) (by rw [hi]; rfl) rfl rfl ?_ rfl
      (apart_consumer rfl rfl hothers) (hown rfl fun _ => hi)
      fun j hj => hown rfl fun hij => absurd hij.symm hj⟩
    have hslot := h.slots i
    have hfits := hslot.fits
    rw [hi] at hfits
    refine ⟨hslot.bounded, hslot.tagged, ?_⟩
    rw [hi]
    exact hfits
  · next i g record hpc =>
    have hi : t i = ⟨g.toNat, .reading record.operation record.result c⟩ := by
      have := hold i
      rw [hpc] at this
      exact this rfl
    have hbounded := (h.slots i).bounded
    rw [hi] at hbounded
    have hnext : (t i).next g.toNat (.obtain c record) = some (Ticket.released g.toNat) := by
      rw [hi]
      simp [Ticket.next]
    refine ⟨_, h.event (i := i) (.consumer c) ?_ rfl rfl hnext (released_matches hbounded _) h.tokens
      (apart_consumer rfl rfl hothers) (hown rfl trivial) fun _ _ => hown rfl trivial⟩
    intro o' ho'
    rw [hi] at ho'
    exact (Option.some.inj ho').symm

/-! ## Every interleaving -/

/-- Every move is followed by the tickets. -/
theorem Inv.step (h : Inv start s t) (move : Move n) : ∃ t', Inv start (s.step move) t' := by
  cases move with
  | reserve operation =>
    unfold Arena.step
    dsimp only
    split
    · exact ⟨t, h.quiet .allocator rfl rfl h.tokens (apart_allocator rfl rfl) fun _ => trivial⟩
    · exact ⟨t, h⟩
  | allocate => exact h.allocate
  | claim p bound =>
    unfold Arena.step
    dsimp only
    split
    · next hp =>
      obtain ⟨q, hq, rfl⟩ := List.mem_map.mp hp
      exact h.tryClaim (h.tokens q hq)
    · exact ⟨t, h⟩
  | token k result => exact h.claimToken k result
  | abandon k => exact h.claimToken k abandoned
  | write k result => exact ⟨t, h.writePayload k result⟩
  | publish k => exact h.publish k
  | load c index => exact ⟨t, h.load c index⟩
  | consume c => exact h.consume c

/-- The tickets of a new arena. -/
def firstTicket (generation : UInt64) : Ticket := ⟨(initialGeneration generation).toNat, .free⟩

/-- In a new arena every ticket is free. -/
theorem inv_new (n : ℕ) (generation : UInt64) :
    Inv (firstTicket generation) (new n generation) fun _ => firstTicket generation where
  history _ := rfl
  slots i := by
    refine ⟨?_, ?_, trivial⟩
    · unfold firstTicket initialGeneration
      rw [← maxGeneration_toNat]
      split
      · next hle => exact hle
      · exact le_rfl
    · show tag _ _ = tag (UInt64.ofNat (initialGeneration generation).toNat) _
      rw [UInt64.ofNat_toNat]
      rfl
  tokens := by
    intro p hp
    cases hp
  threads i o := by
    cases o with
    | allocator => trivial
    | writer k =>
      intro w hw
      cases hw
    | consumer c => trivial

theorem inv_of_reachable {generation : UInt64} (h : s.Reachable generation) :
    ∃ t, Inv (firstTicket generation) s t := by
  obtain ⟨moves, rfl⟩ := h
  induction moves using List.reverseRecOn with
  | nil => exact ⟨_, inv_new n generation⟩
  | append_singleton moves move ih =>
    obtain ⟨t, ht⟩ := ih
    rw [run, List.foldl_append]
    exact ht.step move

theorem tryClaim_log (s : Arena n) (p : Publisher n) (bound : Option CompletionResult) :
    (s.tryClaim p bound).log = s.log ∨ ∃ e, (s.tryClaim p bound).log = s.log ++ [e] := by
  unfold tryClaim
  split
  · exact .inr ⟨_, rfl⟩
  · exact .inl rfl

theorem claimToken_log (s : Arena n) (k : ℕ) (result : CompletionResult) :
    (s.claimToken k result).log = s.log ∨ ∃ e, (s.claimToken k result).log = s.log ++ [e] := by
  unfold claimToken
  split
  · exact tryClaim_log ..
  · exact .inl rfl

/-- A step is at most one event. -/
theorem step_log (s : Arena n) (move : Move n) :
    (s.step move).log = s.log ∨ ∃ e, (s.step move).log = s.log ++ [e] := by
  cases move with
  | reserve operation =>
    unfold step
    dsimp only
    split <;> exact .inl rfl
  | allocate =>
    unfold step allocate
    dsimp only
    split
    · exact .inl rfl
    · split
      · split <;> exact .inl rfl
      · exact .inl rfl
    · exact .inl rfl
    · exact .inr ⟨_, rfl⟩
  | claim p bound =>
    unfold step
    dsimp only
    split
    · exact tryClaim_log ..
    · exact .inl rfl
  | token k result => exact claimToken_log ..
  | abandon k => exact claimToken_log ..
  | write k result =>
    unfold step writePayload
    dsimp only
    split <;> exact .inl rfl
  | publish k =>
    unfold step publish
    dsimp only
    split
    · exact .inr ⟨_, rfl⟩
    · exact .inl rfl
  | load c index =>
    unfold step load
    dsimp only
    split
    · split
      · split <;> exact .inl rfl
      · exact .inl rfl
    · exact .inl rfl
  | consume c =>
    unfold step consume
    dsimp only
    split
    · exact .inl rfl
    · split
      · exact .inr ⟨_, rfl⟩
      · exact .inl rfl
    · exact .inl rfl
    · exact .inl rfl
    · exact .inl rfl
    · exact .inr ⟨_, rfl⟩

/-- A step moves a ticket by at most one event. -/
theorem Inv.follows {t' : Fin n → Ticket} {move : Move n} (h : Inv start s t)
    (h' : Inv start (s.step move) t') (i : Fin n) :
    t' i = t i ∨ ∃ g act, (t i).next g act = some (t' i) := by
  have hafter := h'.history i
  rcases s.step_log move with hlog | ⟨⟨j, g, act⟩, hlog⟩
  · rw [history_of_log hlog, h.history i] at hafter
    exact .inl (Option.some.inj hafter).symm
  · rw [history_of_event hlog] at hafter
    split at hafter
    · rw [Ticket.replay_append, h.history i, Option.bind_some, Ticket.replay,
        Option.bind_eq_some_iff] at hafter
      obtain ⟨u, hnext, hu⟩ := hafter
      cases hu
      exact .inr ⟨_, _, hnext⟩
    · rw [h.history i] at hafter
      exact .inl (Option.some.inj hafter).symm

/-! ## What follows -/

theorem mem_history {i : Fin n} {g : UInt64} {act : Act} (h : ⟨i, g, act⟩ ∈ s.log) :
    (g.toNat, act) ∈ s.history i :=
  List.mem_map.mpr ⟨_, List.mem_filter.mpr ⟨h, by simp⟩, rfl⟩

theorem mem_log {i : Fin n} {g : UInt64} {act : Act} (h : (g.toNat, act) ∈ s.history i) :
    ⟨i, g, act⟩ ∈ s.log := by
  obtain ⟨⟨j, g', act'⟩, hmem, heq⟩ := List.mem_map.mp h
  obtain ⟨hmem, hj⟩ := List.mem_filter.mp hmem
  have hj : j = i := by simpa using hj
  simp only [Prod.mk.injEq] at heq
  obtain ⟨hg, rfl⟩ := heq
  rw [← hj, ← UInt64.toNat_inj.mp hg]
  exact hmem

/-- The events of one kind for a generation of a slot. -/
def occurrences (s : Arena n) (i : Fin n) (g : UInt64) (rank : ℕ) : List (Event n) :=
  s.log.filter fun e => e.slot = i ∧ e.generation = g ∧ e.act.rank = rank

theorem Inv.once (h : Inv start s t) (i : Fin n) (g : UInt64) (rank : ℕ) :
    (s.occurrences i g rank).length ≤ 1 := by
  have hcount := Ticket.replay_once (h.history i) (6 * g.toNat + rank)
  rw [Arena.history, List.map_map, List.count, List.countP_map, List.countP_filter] at hcount
  rw [occurrences, ← List.countP_eq_length_filter]
  refine le_trans (List.countP_mono_left fun e _ he => ?_) hcount
  simp only [decide_eq_true_eq] at he
  obtain ⟨hi, hg, hrank⟩ := he
  simp [place, hi, hg, hrank]

/-- Publishers and writers of another generation do not change the slots. -/
theorem Inv.stale (h : Inv start s t) {move : Move n} {p : Publisher n}
    (hp : s.publisher move = some p)
    (hstale : p.generation ≠ (s.slots p.slot).tagged >>> 8) : (s.step move).slots = s.slots := by
  have hgeneration : (t p.slot).generation ≠ p.generation.toNat := by
    intro heq
    rw [← (h.slots p.slot).generation_toNat] at heq
    exact hstale (UInt64.toNat_inj.mp heq.symm)
  have hclaim : ∀ (s' : Arena n) bound, s'.slots = s.slots →
      p.generation.toNat ≤ maxTicketGeneration → (s'.tryClaim p bound).slots = s.slots := by
    intro s' bound hs' hmax
    unfold Arena.tryClaim
    rw [if_neg]
    · exact hs'
    · rw [hs']
      intro htag
      exact hgeneration ((h.slots p.slot).of_tag hmax htag).1
  have htoken : ∀ k result, s.tokens[k]?.map Prod.fst = some p →
      (s.claimToken k result).slots = s.slots := by
    intro k result hk
    unfold Arena.claimToken
    split
    · next q hq =>
      rw [hq] at hk
      cases hk
      exact hclaim _ _ rfl (h.tokens _ (List.mem_of_getElem? hq))
    · rfl
  cases move with
  | reserve | allocate | load | consume => cases hp
  | claim q bound =>
    cases hp
    unfold Arena.step
    dsimp only
    split
    · next hmem =>
      obtain ⟨q, hq, rfl⟩ := List.mem_map.mp hmem
      exact hclaim s bound rfl (h.tokens q hq)
    · rfl
  | token k result => exact htoken k result hp
  | abandon k => exact htoken k abandoned hp
  | write k result =>
    unfold Arena.step Arena.writePayload
    dsimp only
    split
    · next q bound hw =>
      unfold Arena.publisher at hp
      dsimp only at hp
      rw [hw] at hp
      cases hp
      obtain ⟨operation, heq⟩ := h.threads _ (.writer k) _ hw rfl
      rw [heq] at hgeneration
      exact absurd rfl hgeneration
    · rfl
  | publish k =>
    unfold Arena.step Arena.publish
    dsimp only
    split
    · next q bound result hw =>
      unfold Arena.publisher at hp
      dsimp only at hp
      rw [hw] at hp
      cases hp
      obtain ⟨⟨operation, heq⟩, -⟩ := h.threads _ (.writer k) _ hw rfl
      rw [heq] at hgeneration
      exact absurd rfl hgeneration
    · rfl

/-- How a ticket in one of its later phases moves. -/
theorem next_of_phase {u u' : Ticket} {g : ℕ} {act : Act} (h : u.next g act = some u') :
    (u.phase.state = .writing → u'.generation = u.generation ∧ u'.phase.state = .ready) ∧
      (u.phase.state = .reading → u' = Ticket.released u.generation) ∧ u.phase.state ≠ .retired := by
  obtain ⟨rfl, hcases⟩ := Ticket.next_eq_some h
  rcases hcases with ⟨operation, rfl, hp, rfl⟩ | ⟨operation, k, rfl, hp, rfl⟩ |
    ⟨operation, k, result, rfl, hp, rfl⟩ | ⟨operation, result, c, rfl, hp, rfl⟩ |
    ⟨operation, result, c, rfl, hp, rfl⟩ <;> simp [hp, Phase.state]

/-- The word of a slot whose ticket stayed. -/
theorem tagged_of_eq {slot' : CompletionSlot} {u u' : Ticket} (h : Matches slot u)
    (h' : Matches slot' u') (heq : u' = u) : slot'.tagged = slot.tagged := by
  rw [h.tagged, h'.tagged, heq]

/-- What a step may do to the word of a slot. -/
theorem Inv.words {t' : Fin n → Ticket} {move : Move n} (h : Inv start s t)
    (h' : Inv start (s.step move) t') (i : Fin n) :
    ((s.slots i).tagged &&& 255 = TicketState.writing.code →
      ((s.step move).slots i).tagged = (s.slots i).tagged ∨
        ((s.step move).slots i).tagged = tag ((s.slots i).tagged >>> 8) .ready) ∧
    (s.slots i).tagged >>> 8 ≤ ((s.step move).slots i).tagged >>> 8 ∧
    ((s.step move).slots i).tagged >>> 8 ≤ maxGeneration ∧
    ((s.slots i).tagged = tag maxGeneration .reading →
      ((s.step move).slots i).tagged = (s.slots i).tagged ∨
        ((s.step move).slots i).tagged = tag maxGeneration .retired) ∧
    ((s.slots i).tagged &&& 255 = TicketState.retired.code →
      ((s.step move).slots i).tagged = (s.slots i).tagged) := by
  have hslot := h.slots i
  have hslot' := h'.slots i
  have hfollows := h.follows h' i
  refine ⟨fun hwriting => ?_, ?_, ?_, fun hreading => ?_, fun hretired => ?_⟩
  · have hphase : (t i).phase.state = .writing :=
      TicketState.code_injective (hslot.state.symm.trans hwriting)
    rcases hfollows with heq | ⟨g, act, hnext⟩
    · exact .inl (tagged_of_eq hslot hslot' heq)
    · obtain ⟨hgeneration, hready⟩ := (next_of_phase hnext).1 hphase
      right
      rw [hslot'.tagged, hgeneration, hready, hslot.generation]
  · rw [UInt64.le_iff_toNat_le, hslot.generation_toNat, hslot'.generation_toNat]
    rcases hfollows with heq | ⟨g, act, hnext⟩
    · rw [heq]
    · exact Ticket.next_generation_le hnext
  · rw [UInt64.le_iff_toNat_le, hslot'.generation_toNat, maxGeneration_toNat]
    exact hslot'.bounded
  · obtain ⟨hgeneration, hphase⟩ := hslot.of_tag maxGeneration_toNat.le hreading
    rcases hfollows with heq | ⟨g, act, hnext⟩
    · exact .inl (tagged_of_eq hslot hslot' heq)
    · right
      have hreleased := (next_of_phase hnext).2.1 hphase
      rw [Ticket.released, if_pos (hgeneration.trans maxGeneration_toNat), hgeneration] at hreleased
      rw [hslot'.tagged, hreleased, UInt64.ofNat_toNat]
      rfl
  · have hphase : (t i).phase.state = .retired :=
      TicketState.code_injective (hslot.state.symm.trans hretired)
    rcases hfollows with heq | ⟨g, act, hnext⟩
    · exact tagged_of_eq hslot hslot' heq
    · exact absurd hphase (next_of_phase hnext).2.2

/-- In every interleaving a generation of a slot is claimed at most once, taken and obtained by at most
one consumer, and the record that is obtained holds the operation that was reserved and the result that
the writer with the claim finished with. Publishers and tokens of older generations do not change a
slot, a slot in writing only becomes ready, and generations only grow up to the last one, which is
retired for good. -/
theorem tickets_deliver_once {generation : UInt64} (h : s.Reachable generation) :
    (∀ i g, (s.occurrences i g (Act.claim 0).rank).length ≤ 1 ∧
      (s.occurrences i g (Act.take 0).rank).length ≤ 1 ∧
      (s.occurrences i g (Act.obtain 0 {}).rank).length ≤ 1) ∧
    (∀ i g c record, ⟨i, g, .obtain c record⟩ ∈ s.log → ∃ k,
      ⟨i, g, .claim k⟩ ∈ s.log ∧
      (∀ operation, ⟨i, g, .reserve operation⟩ ∈ s.log ↔ operation = record.operation) ∧
      ∀ k' result, ⟨i, g, .finish k' result⟩ ∈ s.log ↔ k' = k ∧ result = record.result) ∧
    (∀ move p, s.publisher move = some p → p.generation < (s.slots p.slot).tagged >>> 8 →
      (s.step move).slots = s.slots) ∧
    ∀ move i,
      ((s.slots i).tagged &&& 255 = TicketState.writing.code →
        ((s.step move).slots i).tagged = (s.slots i).tagged ∨
          ((s.step move).slots i).tagged = tag ((s.slots i).tagged >>> 8) .ready) ∧
      (s.slots i).tagged >>> 8 ≤ ((s.step move).slots i).tagged >>> 8 ∧
      ((s.step move).slots i).tagged >>> 8 ≤ maxGeneration ∧
      ((s.slots i).tagged = tag maxGeneration .reading →
        ((s.step move).slots i).tagged = (s.slots i).tagged ∨
          ((s.step move).slots i).tagged = tag maxGeneration .retired) ∧
      ((s.slots i).tagged &&& 255 = TicketState.retired.code →
        ((s.step move).slots i).tagged = (s.slots i).tagged) := by
  obtain ⟨t, ht⟩ := inv_of_reachable h
  refine ⟨fun i g => ⟨ht.once .., ht.once .., ht.once ..⟩, fun i g c record hmem => ?_,
    fun move p hp hlt => ?_, fun move i => ?_⟩
  · have hreplay := ht.history i
    obtain ⟨k, hreserve, hclaim, hfinish⟩ :=
      (Ticket.obtained_sound rfl hreplay).2 g.toNat c record (mem_history hmem)
    refine ⟨k, mem_log hclaim, fun operation => ⟨fun hother => ?_, fun heq => ?_⟩,
      fun k' result => ⟨fun hother => ?_, fun heq => ?_⟩⟩
    · have heq := Ticket.replay_unique hreplay (mem_history hother) hreserve rfl
      cases heq
      rfl
    · rw [heq]
      exact mem_log hreserve
    · have heq := Ticket.replay_unique hreplay (mem_history hother) hfinish rfl
      cases heq
      exact ⟨rfl, rfl⟩
    · rw [heq.1, heq.2]
      exact mem_log hfinish
  · refine ht.stale hp fun heq => ?_
    rw [heq] at hlt
    exact absurd hlt (UInt64.lt_irrefl _)
  · obtain ⟨t', ht'⟩ := ht.step move
    exact ht.words ht' i

/-- One slot, reserved and published once by its token and once more by a copy of its publisher. -/
theorem tickets_deliver_once_published :
    ((run (new 1 7) [.reserve 5, .allocate, .allocate, .allocate, .token 0 { value := 9 }, .write 0 {},
      .claim ⟨0, 7⟩ none, .publish 0]).occurrences 0 7 (Act.claim 0).rank).length ≤ 1 :=
  ((tickets_deliver_once ⟨_, rfl⟩).1 0 7).1

end Arena

end Vita.Completion
