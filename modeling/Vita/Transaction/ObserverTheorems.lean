import Vita.Transaction.Observer

/-!
# The observer's history

An event finds the observation of its slot, or takes a slot of its own: no observation is lost, and one
that is there changes only to become contradictory.

Main results:
- `ControllerObserver.entry_merge`: the slots after an event;
- `ControllerObserver.merge_marks`: when an event makes an observation contradictory;
- `ControllerObserver.observe_late`: what an answer says, before and behind the deadline.
-/

namespace Vita.Transaction

open Checked Codec

theorem Observation.sameSlot_iff {a b : Observation} :
    a.sameSlot b ↔ a.kind = b.kind ∧ a.responseKind = b.responseKind := by
  rw [Observation.sameSlot, decide_eq_true_eq]

namespace ControllerObserver

/-- The observation that is kept in the slot of an event. -/
def entry (event : Observation) (history : List Observation) : Option Observation :=
  history.find? (·.sameSlot event)

/-- The observation of a slot once an event has come in. -/
def settle (event : Observation) : Option Observation → Observation
  | none => event
  | some o => if o ≠ event then o.contradict else o

/-- The entry of what was merged is settled with it. -/
theorem entry_merge_self (event : Observation) (history : List Observation) :
    entry event (merge event history) = some (settle event (entry event history)) := by
  induction history with
  | nil =>
    have hself : event.sameSlot event := Observation.sameSlot_iff.mpr ⟨rfl, rfl⟩
    exact List.find?_cons_of_pos hself
  | cons o rest ih =>
    unfold merge
    by_cases hslot : o.sameSlot event
    · rw [if_pos hslot]
      have hold : entry event (o :: rest) = some o := List.find?_cons_of_pos hslot
      rw [hold]
      refine List.find?_cons_of_pos ?_
      split
      · exact hslot
      · exact hslot
    · rw [if_neg hslot]
      have hold : entry event (o :: rest) = entry event rest := List.find?_cons_of_neg hslot
      rw [hold, ← ih]
      exact List.find?_cons_of_neg hslot

/-- Other slots are left alone. -/
theorem entry_merge_other {event other : Observation} (h : ¬event.sameSlot other)
    (history : List Observation) : entry other (merge event history) = entry other history := by
  induction history with
  | nil => exact List.find?_cons_of_neg h
  | cons o rest ih =>
    unfold merge
    by_cases hslot : o.sameSlot event
    · rw [if_pos hslot]
      have hnot : ¬o.sameSlot other := by
        rw [Observation.sameSlot_iff] at hslot h ⊢
        rwa [hslot.1, hslot.2]
      have hnot' : ¬(if o ≠ event then o.contradict else o).sameSlot other := by
        split
        · exact hnot
        · exact hnot
      have hold : entry other (o :: rest) = entry other rest := List.find?_cons_of_neg hnot
      rw [hold]
      exact List.find?_cons_of_neg hnot'
    · rw [if_neg hslot]
      show (o :: merge event rest).find? _ = (o :: rest).find? _
      rw [List.find?_cons, List.find?_cons]
      split
      · rfl
      · exact ih

/-- The slots after an event. -/
theorem entry_merge (event other : Observation) (history : List Observation) :
    entry other (merge event history) =
      if event.sameSlot other then some (settle event (entry other history))
      else entry other history := by
  by_cases hslot : event.sameSlot other
  · rw [if_pos hslot]
    have hsame : (fun o : Observation => o.sameSlot other) = fun o => o.sameSlot event := by
      funext o
      rw [Observation.sameSlot_iff] at hslot
      rw [Observation.sameSlot, Observation.sameSlot, hslot.1, hslot.2]
    rw [entry, entry, hsame]
    exact entry_merge_self event history
  · rw [if_neg hslot]
    exact entry_merge_other hslot history

/-! ## What is added, and what is marked -/

/-- An event adds at most one observation, at the end, and it is the event. -/
theorem merge_getElem? (event : Observation) (history : List Observation) (k : ℕ) :
    (merge event history)[k]? = history[k]? ∨
    (merge event history)[k]? = some event ∧ history[k]? = none ∨
    ∃ o, history[k]? = some o ∧ entry event history = some o ∧ o ≠ event ∧
      (merge event history)[k]? = some o.contradict := by
  induction history generalizing k with
  | nil =>
    cases k with
    | zero => exact .inr (.inl ⟨rfl, rfl⟩)
    | succ k => exact .inl rfl
  | cons o rest ih =>
    unfold merge
    by_cases hslot : o.sameSlot event
    · rw [if_pos hslot]
      cases k with
      | zero =>
        by_cases hne : o ≠ event
        · rw [if_pos hne]
          exact .inr (.inr ⟨o, rfl, List.find?_cons_of_pos hslot, hne, rfl⟩)
        · rw [if_neg hne]
          exact .inl rfl
      | succ k => exact .inl rfl
    · rw [if_neg hslot]
      cases k with
      | zero => exact .inl rfl
      | succ k =>
        have hold : entry event (o :: rest) = entry event rest := List.find?_cons_of_neg hslot
        rw [hold]
        exact ih k

/-- An entry that differs is contradicted where it stands. -/
theorem entry_getElem? {event o : Observation} {history : List Observation}
    (h : entry event history = some o) (hne : o ≠ event) :
    ∃ k : ℕ, history[k]? = some o ∧ (merge event history)[k]? = some o.contradict := by
  induction history with
  | nil => cases h
  | cons p rest ih =>
    unfold merge
    by_cases hslot : p.sameSlot event
    · have hold : entry event (p :: rest) = some p := List.find?_cons_of_pos hslot
      rw [hold] at h
      cases h
      rw [if_pos hslot, if_pos hne]
      exact ⟨0, rfl, rfl⟩
    · have hold : entry event (p :: rest) = entry event rest := List.find?_cons_of_neg hslot
      rw [hold] at h
      rw [if_neg hslot]
      obtain ⟨k, hk⟩ := ih h
      exact ⟨k + 1, hk⟩

/-- No observation becomes contradictory, and one that is added is not. -/
def Unmarked (history history' : List Observation) : Prop :=
  ∀ (k : ℕ) (o' : Observation), history'[k]? = some o' → o'.contradictory →
    ∃ o, history[k]? = some o ∧ o.contradictory

/-- An event makes an observation contradictory if it differs from the one of its slot, and only then. -/
theorem unmarked_merge {event : Observation} (hevent : ¬event.contradictory)
    (history : List Observation) :
    Unmarked history (merge event history) ↔
      ∀ o, entry event history = some o → o = event ∨ o.contradictory := by
  constructor
  · intro h o ho
    by_cases hne : o = event
    · exact .inl hne
    · obtain ⟨k, hk, hmerged⟩ := entry_getElem? ho hne
      obtain ⟨p, hp, hcontradictory⟩ := h k _ hmerged rfl
      rw [hk] at hp
      cases hp
      exact .inr hcontradictory
  · intro h k o' ho' hcontradictory
    rcases merge_getElem? event history k with heq | ⟨heq, -⟩ | ⟨o, ho, hentry, hne, -⟩
    · exact ⟨o', heq ▸ ho', hcontradictory⟩
    · rw [heq] at ho'
      cases ho'
      exact absurd hcontradictory hevent
    · exact ⟨o, ho, (h o hentry).resolve_left hne⟩

/-- An observation that is contradictory stays so. -/
theorem merge_contradictory (event : Observation) {o : Observation} {history : List Observation} {k : ℕ}
    (ho : history[k]? = some o) (h : o.contradictory) :
    ∃ o', (merge event history)[k]? = some o' ∧ o'.contradictory := by
  rcases merge_getElem? event history k with heq | ⟨-, hnone⟩ | ⟨p, -, -, -, heq⟩
  · exact ⟨o, heq.trans ho, h⟩
  · rw [ho] at hnone
    cases hnone
  · exact ⟨p.contradict, heq, rfl⟩

theorem Unmarked.trans {h₁ h₂ h₃ : List Observation} (h : Unmarked h₁ h₂) (h' : Unmarked h₂ h₃) :
    Unmarked h₁ h₃ := by
  intro k o ho hcontradictory
  obtain ⟨p, hp, hp'⟩ := h' k o ho hcontradictory
  exact h k p hp hp'

/-- The observations of late answers. -/
def lateCount (history : List Observation) : ℕ := history.countP (·.kind = .lateResponse)

/-- A merge adds one late response at most. -/
theorem lateCount_merge (event : Observation) (history : List Observation) :
    lateCount (merge event history) ≤ lateCount history + if event.kind = .lateResponse then 1 else 0 := by
  induction history with
  | nil =>
    unfold merge lateCount
    rw [List.countP_singleton]
    simp
  | cons o rest ih =>
    unfold merge
    by_cases hslot : o.sameSlot event
    · rw [if_pos hslot]
      have hkind : (if o ≠ event then o.contradict else o).kind = o.kind := by
        split <;> rfl
      unfold lateCount
      rw [List.countP_cons, List.countP_cons, hkind]
      omega
    · rw [if_neg hslot]
      unfold lateCount at ih ⊢
      rw [List.countP_cons, List.countP_cons]
      omega

/-! ## Observers over time -/

/-- A later observer of the same command. -/
structure Extends (o o' : ControllerObserver) : Prop where
  messageId : o'.messageId = o.messageId
  late : ∀ c, o.isLate c → o'.isLate c
  kept : ∀ event h, entry event o.history = some h →
    ∃ h', entry event o'.history = some h' ∧ (h' = h ∨ h'.contradictory)

theorem Extends.refl (o : ControllerObserver) : Extends o o :=
  ⟨rfl, fun _ h => h, fun _ h hh => ⟨h, hh, .inl rfl⟩⟩

theorem Extends.trans {o o' o'' : ControllerObserver} (h : Extends o o') (h' : Extends o' o'') :
    Extends o o'' := by
  refine ⟨h'.messageId.trans h.messageId, fun c hc => h'.late c (h.late c hc), fun event x hx => ?_⟩
  obtain ⟨y, hy, hxy⟩ := h.kept event x hx
  obtain ⟨z, hz, hyz⟩ := h'.kept event y hy
  refine ⟨z, hz, ?_⟩
  rcases hyz with rfl | hz
  · exact hxy
  · exact .inr hz

/-- A record extends the history. -/
theorem extends_record (o : ControllerObserver) (event : Observation) : Extends o (o.record event) := by
  refine ⟨rfl, fun c hc => ?_, fun other h hh => ?_⟩
  · cases c <;> exact hc
  · show ∃ h', entry other (merge event o.history) = some h' ∧ _
    rw [entry_merge, hh]
    split
    · refine ⟨_, rfl, ?_⟩
      show (if h ≠ event then h.contradict else h) = h ∨ _
      by_cases hne : h ≠ event
      · rw [settle, if_pos hne]
        exact .inr rfl
      · rw [if_neg hne]
        exact .inl rfl
    · exact ⟨h, rfl, .inl rfl⟩

/-- An event is recorded as it is, unless it is contradicted. -/
theorem entry_record (o : ControllerObserver) (event : Observation) :
    ∃ x, entry event (o.record event).history = some x ∧ (x = event ∨ x.contradictory) := by
  refine ⟨settle event (entry event o.history), entry_merge_self event o.history, ?_⟩
  rcases entry event o.history with _ | x
  · exact .inl rfl
  · show (if x ≠ event then x.contradict else x) = event ∨
      (if x ≠ event then x.contradict else x).contradictory
    by_cases hne : x ≠ event
    · rw [if_pos hne]
      exact .inr rfl
    · rw [if_neg hne]
      exact .inl (not_not.mp hne)

/-- A timeout only adds to the history. -/
theorem extends_timeout (o : ControllerObserver) (cancellation : Bool) :
    Extends o (o.timeout cancellation) := by
  cases cancellation with
  | false =>
    show Extends o (if o.timedOut then o else _)
    split
    · exact .refl o
    · have hflag : Extends o { o with timedOut := true } :=
        ⟨rfl, fun c hc => by cases c <;> first | rfl | exact hc, fun _ h hh => ⟨h, hh, .inl rfl⟩⟩
      exact hflag.trans (extends_record _ _)
  | true =>
    show Extends o (if o.cancellationTimedOut then o else _)
    split
    · exact .refl o
    · have hflag : Extends o { o with cancellationTimedOut := true } :=
        ⟨rfl, fun c hc => by cases c <;> first | rfl | exact hc, fun _ h hh => ⟨h, hh, .inl rfl⟩⟩
      exact hflag.trans (extends_record _ _)

/-! ## Timeouts -/

/-- What a timeout is recorded as. -/
def timeoutEvent (cancellation : Bool) : Observation :=
  if cancellation then { kind := .cancellationTimeout, cancellation := true } else { kind := .timeout }

/-- A timeout is recorded in one way only. -/
def Sound (o : ControllerObserver) : Prop :=
  ∀ c h, entry (timeoutEvent c) o.history = some h → h = timeoutEvent c

theorem sound_fresh (messageId : UInt32) : Sound { messageId } := by
  intro c h hh
  cases hh

/-- Events that are not timeouts. -/
def Ordinary (event : Observation) : Prop := event.kind ≠ .timeout ∧ event.kind ≠ .cancellationTimeout

theorem Ordinary.not_sameSlot {event : Observation} (h : Ordinary event) (c : Bool) :
    ¬event.sameSlot (timeoutEvent c) := by
  intro hslot
  have hkind := (Observation.sameSlot_iff.mp hslot).1
  cases c
  · exact h.1 hkind
  · exact h.2 hkind

theorem Sound.record {o : ControllerObserver} (h : o.Sound) {event : Observation}
    (hevent : Ordinary event) : (o.record event).Sound := by
  intro c x hx
  have hx : entry (timeoutEvent c) (merge event o.history) = some x := hx
  rw [entry_merge_other (hevent.not_sameSlot c)] at hx
  exact h c x hx

/-- A timeout is recorded unless the answers were late before. -/
theorem history_timeout (o : ControllerObserver) (c : Bool) :
    (o.timeout c).history = o.history ∧ o.isLate c ∨
    (o.timeout c).history = merge (timeoutEvent c) o.history := by
  cases c with
  | false =>
    show (if o.timedOut then o else _).history = _ ∧ _ ∨ (if o.timedOut then o else _).history = _
    split
    · next hlate => exact .inl ⟨rfl, hlate⟩
    · exact .inr rfl
  | true =>
    show (if o.cancellationTimedOut then o else _).history = _ ∧ _ ∨
      (if o.cancellationTimedOut then o else _).history = _
    split
    · next hlate => exact .inl ⟨rfl, hlate⟩
    · exact .inr rfl

/-- A timeout keeps the observer sound. -/
theorem Sound.timeout {o : ControllerObserver} (h : o.Sound) (c : Bool) : (o.timeout c).Sound := by
  intro d x hx
  rcases history_timeout o c with ⟨heq, -⟩ | heq
  · rw [heq] at hx
    exact h d x hx
  · rw [heq, entry_merge] at hx
    split at hx
    · next hslot =>
      have hcd : c = d := by
        have hkind := (Observation.sameSlot_iff.mp hslot).1
        cases c <;> cases d <;> first | rfl | cases hkind
      subst hcd
      have hx := Option.some.inj hx
      rw [← hx]
      unfold settle
      split
      · rfl
      · next y hy =>
        have heq := h c y hy
        rw [if_neg (not_not.mpr heq)]
        exact heq
    · exact h d x hx

@[simp] theorem isLate_timeout (o : ControllerObserver) (c : Bool) : (o.timeout c).isLate c := by
  cases c with
  | false =>
    show (if o.timedOut then o else _).timedOut
    split
    · assumption
    · rfl
  | true =>
    show (if o.cancellationTimedOut then o else _).cancellationTimedOut
    split
    · assumption
    · rfl

/-- A timeout contradicts nothing. -/
theorem Sound.timeout_unmarked {o : ControllerObserver} (h : o.Sound) (c : Bool) :
    Unmarked o.history (o.timeout c).history := by
  rcases history_timeout o c with ⟨heq, -⟩ | heq
  · rw [heq]
    exact fun k x hx hcontradictory => ⟨x, hx, hcontradictory⟩
  · rw [heq, unmarked_merge]
    · exact fun x hx => .inl (h c x hx)
    · cases c <;> exact Bool.false_ne_true

theorem entry_timeout {event : Observation} (h : Ordinary event) (o : ControllerObserver) (c : Bool) :
    entry event (o.timeout c).history = entry event o.history := by
  rcases history_timeout o c with ⟨heq, -⟩ | heq
  · rw [heq]
  · rw [heq]
    refine entry_merge_other (fun hslot => ?_) _
    have hkind := (Observation.sameSlot_iff.mp hslot).1
    cases c
    · exact h.1 hkind.symm
    · exact h.2 hkind.symm

/-- An event makes an observation contradictory if it differs from the one of its slot, also when a
timeout is noted before it. -/
theorem Sound.unmarked_timeout_merge {o : ControllerObserver} (h : o.Sound) (c : Bool)
    {event : Observation} (hordinary : Ordinary event) (hevent : ¬event.contradictory) :
    Unmarked o.history (merge event (o.timeout c).history) ↔
      ∀ x, entry event o.history = some x → x = event ∨ x.contradictory := by
  constructor
  · intro hunmarked x hx
    by_cases hne : x = event
    · exact .inl hne
    · rw [← entry_timeout hordinary o c] at hx
      obtain ⟨k, hk, hmerged⟩ := entry_getElem? hx hne
      obtain ⟨p, hp, hcontradictory⟩ := hunmarked k _ hmerged rfl
      right
      rcases history_timeout o c with ⟨heq, -⟩ | heq
      · rw [heq, hp] at hk
        cases hk
        exact hcontradictory
      · obtain ⟨q, hq, hmarked⟩ := merge_contradictory (timeoutEvent c) hp hcontradictory
        rw [heq, hq] at hk
        cases hk
        exact hmarked
  · intro hentry
    refine (h.timeout_unmarked c).trans ((unmarked_merge hevent _).mpr fun x hx => ?_)
    rw [entry_timeout hordinary] at hx
    exact hentry x hx

/-! ## Answers -/

/-- How an answer is recorded behind the deadline. -/
def behind (late : Bool) (event : Observation) : Observation :=
  { event with kind := if late then .lateResponse else event.kind, success := event.success && !late }

/-- Whether an answer is late changes what it is recorded as, and nothing else. -/
theorem observe_late (late : Bool) (messageId : UInt32) (response : PacketView) :
    observe late messageId response = behind late <$> observe false messageId response := by
  unfold observe
  dsimp only
  rcases response.envelope.envelope.command with _ | command
  · rfl
  · dsimp only
    rw [map_bind]
    refine bind_congr fun _ => ?_
    rw [map_bind]
    refine bind_congr fun _ => ?_
    rw [map_bind]
    refine bind_congr fun _ => ?_
    rw [map_bind]
    refine bind_congr fun _ => ?_
    cases late
    · rw [map_pure, behind]
      simp
    · rw [map_pure, behind]
      simp

/-- An answer is recorded for its phase. -/
structure Answers (event : Observation) : Prop where
  kind : event.kind = event.responseKind
  phase : ∃ cancel cam, event.kind = phaseOf cancel cam
  fresh : ¬event.contradictory

theorem answers_of_observe {messageId : UInt32} {response : PacketView} {event : Observation}
    (h : observe false messageId response = .ok event) : Answers event := by
  unfold observe at h
  dsimp only at h
  split at h
  · cases h
  · simp only [bind_eq_ok, pure_eq_ok, Except.ok.injEq] at h
    obtain ⟨_, -, _, -, _, -, _, -, rfl⟩ := h
    exact ⟨rfl, ⟨_, _, rfl⟩, Bool.false_ne_true⟩

/-- An answer, late or not, is an ordinary observation. -/
theorem Answers.ordinary {event : Observation} (h : Answers event) (late : Bool) :
    Ordinary (behind late event) := by
  cases late with
  | true => exact ⟨ObservationKind.noConfusion, ObservationKind.noConfusion⟩
  | false =>
    obtain ⟨cancel, cam, hphase⟩ := h.phase
    show event.kind ≠ _ ∧ event.kind ≠ _
    rw [hphase]
    unfold phaseOf
    split
    · split <;> exact ⟨ObservationKind.noConfusion, ObservationKind.noConfusion⟩
    · split
      · exact ⟨ObservationKind.noConfusion, ObservationKind.noConfusion⟩
      · split <;> exact ⟨ObservationKind.noConfusion, ObservationKind.noConfusion⟩

/-- An accepted response is recorded, and marked where it is late. -/
theorem receive_eq_ok {o o' : ControllerObserver} {response : PacketView} :
    o.receive response = .ok o' ↔ ∃ event, observe false o.messageId response = .ok event ∧
      o' = o.record (behind (o.isLate response.envelope.envelope.cancel) event) := by
  unfold receive
  rw [observe_late]
  rcases observe false o.messageId response with fault | event
  · constructor
    · intro h
      cases h
    · rintro ⟨_, h, -⟩
      cases h
  · constructor
    · intro h
      exact ⟨event, rfl, (Except.ok.inj h).symm⟩
    · rintro ⟨_, h, rfl⟩
      cases h
      rfl

theorem Sound.receive {o o' : ControllerObserver} (h : o.Sound) {response : PacketView}
    (hreceive : o.receive response = .ok o') : o'.Sound ∧ Extends o o' := by
  obtain ⟨event, hevent, rfl⟩ := receive_eq_ok.mp hreceive
  exact ⟨h.record ((answers_of_observe hevent).ordinary _), extends_record o _⟩

theorem Sound.localSend {o : ControllerObserver} (h : o.Sound) (succeeded : Bool) :
    (o.localSend succeeded).Sound := by
  refine h.record ?_
  cases succeeded <;> exact ⟨ObservationKind.noConfusion, ObservationKind.noConfusion⟩

end ControllerObserver

end Vita.Transaction
