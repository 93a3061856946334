import Vita.Transaction.ObserverTheorems

/-!
# How much an observer keeps

The history is an array of 16 observations, which the code indexes without a check. There are fewer
kinds of events and phases than that, and each has one observation at most. An observation that two
answers have made contradictory remains so.

Main result: `ControllerObserver.history_bounded`.
-/

namespace Vita.Transaction

open Checked Codec

/-- The size of the array `history_`. -/
def historyCapacity : ℕ := 16

namespace ControllerObserver

/-! ## Runs -/

inductive Call where
  | localSend (succeeded : Bool)
  | timeout (cancellation : Bool)
  | receive (response : PacketView)

/-- An answer that is refused changes nothing. -/
def step (o : ControllerObserver) : Call → ControllerObserver
  | .localSend succeeded => o.localSend succeeded
  | .timeout cancellation => o.timeout cancellation
  | .receive response =>
    match o.receive response with
    | .ok o' => o'
    | .error _ => o

def run (messageId : UInt32) (calls : List Call) : ControllerObserver :=
  calls.foldl step { messageId }

theorem run_append (messageId : UInt32) (calls calls' : List Call) :
    run messageId (calls ++ calls') = calls'.foldl step (run messageId calls) :=
  List.foldl_append

/-! ## Keys -/

/-- What an observation is kept under. -/
def key (event : Observation) : ObservationKind × ObservationKind := (event.kind, event.responseKind)

/-- The phases of answers. -/
def phases : List ObservationKind :=
  [.validation, .execution, .state, .cancellationExecution, .cancellationState]

/-- All keys of events. -/
def keys : List (ObservationKind × ObservationKind) :=
  [(.localSend, .unconfirmed), (.localFailure, .unconfirmed), (.timeout, .unconfirmed),
    (.cancellationTimeout, .unconfirmed)] ++ phases.map (fun k => (k, k)) ++
    phases.map fun k => (.lateResponse, k)

theorem phaseOf_mem (cancel : Bool) (cam : UInt32) : phaseOf cancel cam ∈ phases := by
  unfold phaseOf
  split
  · split <;> decide
  · split
    · decide
    · split <;> decide

/-- What a call records. -/
inductive Records (o : ControllerObserver) : Call → Observation → Prop
  | localSend (succeeded : Bool) :
    Records o (.localSend succeeded) { kind := if succeeded then .localSend else .localFailure }
  | timeout (cancellation : Bool) (h : ¬o.isLate cancellation) :
    Records o (.timeout cancellation) (timeoutEvent cancellation)
  | receive {response : PacketView} {event : Observation}
    (h : observe (o.isLate response.envelope.envelope.cancel) o.messageId response = .ok event) :
    Records o (.receive response) event

/-- What is observed is one of the phases, or late. -/
theorem key_of_observe {late : Bool} {messageId : UInt32} {response : PacketView} {event : Observation}
    (h : observe late messageId response = .ok event) :
    event.kind = (if late then .lateResponse else event.responseKind) ∧
      event.responseKind ∈ phases := by
  rw [observe_late] at h
  rcases hplain : observe false messageId response with fault | plain
  · rw [hplain] at h
    cases h
  · rw [hplain] at h
    obtain rfl := Except.ok.inj h
    obtain ⟨hkind, ⟨cancel, cam, hphase⟩, -⟩ := answers_of_observe hplain
    refine ⟨?_, ?_⟩
    · cases late
      · exact hkind
      · rfl
    · show plain.responseKind ∈ phases
      rw [← hkind, hphase]
      exact phaseOf_mem cancel cam

/-- The key of a recorded observation is one of the list. -/
theorem Records.key_mem {o : ControllerObserver} {call : Call} {event : Observation}
    (h : Records o call event) : key event ∈ keys := by
  cases h with
  | localSend succeeded => cases succeeded <;> decide
  | timeout cancellation => cases cancellation <;> decide
  | receive h =>
    obtain ⟨hkind, hphase⟩ := key_of_observe h
    rw [key, hkind]
    refine List.mem_append.mpr ?_
    split
    · exact .inr (List.mem_map.mpr ⟨_, hphase, rfl⟩)
    · exact .inl (List.mem_append.mpr (.inr (List.mem_map.mpr ⟨_, hphase, rfl⟩)))

/-- A call records one event, or leaves the history alone. -/
theorem step_history (o : ControllerObserver) (call : Call) :
    (o.step call).messageId = o.messageId ∧
      ((o.step call).history = o.history ∨
        ∃ event, Records o call event ∧ (o.step call).history = merge event o.history) := by
  cases call with
  | localSend succeeded => exact ⟨rfl, .inr ⟨_, .localSend succeeded, rfl⟩⟩
  | timeout cancellation =>
    by_cases hlate : o.isLate cancellation
    · cases cancellation <;> simp_all [step, timeout, isLate]
    · have hrecords := Records.timeout cancellation hlate
      cases cancellation
      · simp only [isLate, Bool.false_eq_true, if_false] at hlate
        exact ⟨by simp [step, timeout, hlate, record],
          .inr ⟨_, hrecords, by simp [step, timeout, hlate, record, timeoutEvent]⟩⟩
      · simp only [isLate, if_true] at hlate
        exact ⟨by simp [step, timeout, hlate, record],
          .inr ⟨_, hrecords, by simp [step, timeout, hlate, record, timeoutEvent]⟩⟩
  | receive response =>
    unfold step receive
    dsimp only
    rcases hevent : observe (o.isLate response.envelope.envelope.cancel) o.messageId response with _ | event
    · exact ⟨rfl, .inl rfl⟩
    · exact ⟨rfl, .inr ⟨event, .receive hevent, rfl⟩⟩

/-- An event brings at most its own key. -/
theorem keys_merge (event : Observation) (history : List Observation) :
    (merge event history).map key =
      if key event ∈ history.map key then history.map key else history.map key ++ [key event] := by
  induction history with
  | nil => rfl
  | cons o rest ih =>
    unfold merge
    by_cases hslot : o.sameSlot event
    · have hkey : key o = key event := Prod.ext_iff.mpr (Observation.sameSlot_iff.mp hslot)
      have hmem : key event ∈ (o :: rest).map key := by
        rw [List.map_cons, hkey]
        exact List.mem_cons_self
      rw [if_pos hslot, if_pos hmem]
      split
      · rfl
      · rfl
    · have hkey : key event ≠ key o := fun heq =>
        hslot (Observation.sameSlot_iff.mpr (Prod.ext_iff.mp heq.symm))
      rw [if_neg hslot, List.map_cons, ih, List.map_cons]
      by_cases hmem : key event ∈ rest.map key
      · rw [if_pos hmem, if_pos (List.mem_cons_of_mem _ hmem)]
      · rw [if_neg hmem, if_neg (by simp [hkey, hmem])]
        rfl

/-- Every observation has a key of its own. -/
structure Keyed (history : List Observation) : Prop where
  distinct : (history.map key).Nodup
  known : ∀ k ∈ history.map key, k ∈ keys

/-- A merged observation has one of the known keys. -/
theorem Keyed.merge {history : List Observation} (h : Keyed history) {event : Observation}
    (hevent : key event ∈ keys) : Keyed (merge event history) := by
  refine ⟨?_, ?_⟩
  · rw [keys_merge]
    split
    next => exact h.distinct
    next hnew =>
      refine List.nodup_append.mpr ⟨h.distinct, List.nodup_singleton _, ?_⟩
      rintro k hk _ hk' rfl
      obtain rfl := List.mem_singleton.mp hk'
      exact hnew hk
  · rw [keys_merge]
    split
    next => exact h.known
    next =>
      intro k hk
      rcases List.mem_append.mp hk with hk | hk
      · exact h.known k hk
      · obtain rfl := List.mem_singleton.mp hk
        exact hevent

theorem Keyed.step {o : ControllerObserver} (h : Keyed o.history) (call : Call) :
    Keyed (o.step call).history := by
  rcases (step_history o call).2 with hsame | ⟨event, hrecords, hmerge⟩
  · rwa [hsame]
  · rw [hmerge]
    exact h.merge hrecords.key_mem

theorem run_keyed (messageId : UInt32) (calls : List Call) : Keyed (run messageId calls).history := by
  have hrun : ∀ o : ControllerObserver, Keyed o.history → Keyed (calls.foldl step o).history := by
    induction calls with
    | nil => exact fun o h => h
    | cons call calls ih => exact fun o h => ih _ (h.step call)
  exact hrun _ ⟨List.nodup_nil, by simp⟩

/-- A keyed history fits into the array. -/
theorem Keyed.length_le {history : List Observation} (h : Keyed history) :
    history.length ≤ historyCapacity := by
  have hsub := (List.subperm_of_subset h.distinct h.known).length_le
  rw [List.length_map] at hsub
  exact hsub.trans (by decide)

/-! ## Contradictions -/

/-- Nothing that was said in a contradictory observation holds. -/
structure Contradicted (o : Observation) : Prop where
  contradictory : o.contradictory
  success : ¬o.success
  execution : ¬o.confirmsExecution
  cancellation : ¬o.confirmsCancellation
  validation : ¬o.validationAccepted

theorem contradicted_contradict (o : Observation) : Contradicted o.contradict :=
  ⟨rfl, Bool.false_ne_true, Bool.false_ne_true, Bool.false_ne_true, Bool.false_ne_true⟩

/-- What is kept in the slot of an event: the event, or something contradictory. -/
def Marked (event : Observation) (history : List Observation) : Prop :=
  ∃ o, entry event history = some o ∧ (Contradicted o ∨ o = event)

/-- The slot of an event has something contradictory. -/
def Torn (event : Observation) (history : List Observation) : Prop :=
  ∃ o, entry event history = some o ∧ Contradicted o

theorem settle_of_some (event o : Observation) :
    Contradicted (settle event (some o)) ∨ settle event (some o) = o ∧ o = event := by
  unfold settle
  by_cases heq : o = event
  · exact .inr ⟨by simp [heq], heq⟩
  · exact .inl (by simpa [heq] using contradicted_contradict o)

theorem entry_congr {event event' : Observation} (h : event.sameSlot event')
    (history : List Observation) : entry event history = entry event' history := by
  obtain ⟨hkind, hresponse⟩ := Observation.sameSlot_iff.mp h
  unfold entry Observation.sameSlot
  rw [hkind, hresponse]

/-- The event itself marks its slot. -/
theorem marked_merge_self (event : Observation) (history : List Observation) :
    Marked event (merge event history) := by
  refine ⟨_, entry_merge_self event history, ?_⟩
  rcases hentry : entry event history with _ | o
  · exact .inr rfl
  · exact (settle_of_some event o).imp id fun h => h.1.trans h.2

/-- Later events leave a slot marked. -/
theorem Marked.later {event : Observation} {history : List Observation} (h : Marked event history)
    (other : Observation) : Marked event (merge other history) := by
  obtain ⟨o, ho, hmark⟩ := h
  by_cases hslot : other.sameSlot event
  · refine ⟨settle other (some o), ?_, ?_⟩
    · rw [← entry_congr hslot, entry_merge_self, entry_congr hslot, ho]
    · rcases settle_of_some other o with hset | ⟨hset, -⟩
      · exact .inl hset
      · rwa [hset]
  · exact ⟨o, by rw [entry_merge_other hslot, ho], hmark⟩

theorem Torn.later {event : Observation} {history : List Observation} (h : Torn event history)
    (other : Observation) : Torn event (merge other history) := by
  obtain ⟨o, ho, htorn⟩ := h
  by_cases hslot : other.sameSlot event
  · refine ⟨settle other (some o), ?_, ?_⟩
    · rw [← entry_congr hslot, entry_merge_self, entry_congr hslot, ho]
    · rcases settle_of_some other o with hset | ⟨hset, -⟩
      · exact hset
      · rwa [hset]
  · exact ⟨o, by rw [entry_merge_other hslot, ho], htorn⟩

/-- An answer that disagrees with one before it tears their slot. -/
theorem Marked.torn {event event' : Observation} {history : List Observation}
    (h : Marked event history) (hslot : event'.sameSlot event) (hne : event' ≠ event) :
    Torn event (merge event' history) := by
  obtain ⟨o, ho, hmark⟩ := h
  refine ⟨settle event' (some o), ?_, ?_⟩
  · rw [← entry_congr hslot, entry_merge_self, entry_congr hslot, ho]
  · rcases settle_of_some event' o with hset | ⟨hset, heq⟩
    · exact hset
    · rcases hmark with hmark | hmark
      · rwa [hset]
      · exact absurd (heq.symm.trans hmark) hne

/-- What every event preserves is preserved by calls. -/
theorem foldl_step {P : List Observation → Prop} (hP : ∀ event history, P history → P (merge event history))
    (calls : List Call) {o : ControllerObserver} (h : P o.history) : P (calls.foldl step o).history := by
  induction calls generalizing o with
  | nil => exact h
  | cons call calls ih =>
    refine ih ?_
    rcases (step_history o call).2 with hsame | ⟨event, -, hmerge⟩
    · rwa [hsame]
    · rw [hmerge]
      exact hP event _ h

theorem step_receive {o : ControllerObserver} {response : PacketView} {event : Observation}
    (h : observe (o.isLate response.envelope.envelope.cancel) o.messageId response = .ok event) :
    o.step (.receive response) = o.record event := by
  unfold step receive
  dsimp only
  rw [h]
  rfl

/-- In every run the history fits into its array and no two observations share their kind and phase;
and once two answers of one phase and lateness have disagreed, their observation is contradictory and
confirms nothing, whatever comes later. -/
theorem history_bounded (messageId : UInt32) (calls : List Call) :
    (run messageId calls).history.length ≤ historyCapacity ∧
    ((run messageId calls).history.Pairwise fun a b =>
      ¬(a.kind = b.kind ∧ a.responseKind = b.responseKind)) ∧
    ∀ before between after response response' event event',
      calls = before ++ .receive response :: between ++ .receive response' :: after →
      let o := run messageId before
      let o' := run messageId (before ++ .receive response :: between)
      let late := o.isLate response.envelope.envelope.cancel
      observe late o.messageId response = .ok event →
      o'.isLate response'.envelope.envelope.cancel = late →
      observe late o'.messageId response' = .ok event' →
      event.responseKind = event'.responseKind → event ≠ event' →
      ∃ kept ∈ (run messageId calls).history, kept.kind = event.kind ∧
        kept.responseKind = event.responseKind ∧ kept.contradictory = true ∧ kept.success = false ∧
        kept.confirmsExecution = false ∧ kept.confirmsCancellation = false ∧
        kept.validationAccepted = false := by
  have hkeyed := run_keyed messageId calls
  refine ⟨hkeyed.length_le, ?_, ?_⟩
  · refine (List.pairwise_map.mp hkeyed.distinct).imp fun hne hsame => hne ?_
    exact Prod.ext_iff.mpr hsame
  · intro before between after response response' event event' hcalls
    dsimp only
    intro hevent hlate hevent' hphase hne
    have hmarked : Marked event (run messageId (before ++ .receive response :: between)).history := by
      rw [run_append, List.foldl_cons]
      refine foldl_step (fun other history h => h.later other) between ?_
      rw [step_receive hevent]
      exact marked_merge_self event (run messageId before).history
    have hslot : event'.sameSlot event := by
      refine Observation.sameSlot_iff.mpr ⟨?_, hphase.symm⟩
      rw [(key_of_observe hevent).1, (key_of_observe hevent').1, hphase]
    have htorn : Torn event (run messageId calls).history := by
      rw [hcalls, run_append, List.foldl_cons]
      refine foldl_step (fun other history h => h.later other) after ?_
      rw [← hlate] at hevent'
      rw [step_receive hevent']
      exact hmarked.torn hslot hne.symm
    obtain ⟨kept, hkept, htorn⟩ := htorn
    have hfound : (run messageId calls).history.find? (·.sameSlot event) = some kept := hkept
    have hkeptSlot := List.find?_some hfound
    obtain ⟨hkind, hresponse⟩ := Observation.sameSlot_iff.mp hkeptSlot
    exact ⟨kept, List.mem_of_find?_eq_some hkept, hkind, hresponse, htorn.contradictory,
      by simpa using htorn.success, by simpa using htorn.execution, by simpa using htorn.cancellation,
      by simpa using htorn.validation⟩

/-- An answer about the execution of message 7, with its control word. -/
def executionAnswer (cam : UInt32) : PacketView :=
  { envelope := { envelope :=
      { type := .command, streamId := some 1, ack := true, command := some { cam, messageId := 7 } } }
    fields := [] }

/-- What is observed of such an answer before the deadline. -/
def executionEvent (whole : Bool) : Observation :=
  { kind := .execution, isPartial := !whole, success := whole, unknownRemoteOutcome := !whole
    responseKind := .execution, confirmsExecution := whole }

theorem observe_executionAnswer :
    observe false 7 (executionAnswer 0x01080400) = .ok (executionEvent true) ∧
      observe false 7 (executionAnswer 0x01080c00) = .ok (executionEvent false) := by
  decide +kernel

/-- After an execution was confirmed another answer calls it partial, and the first one comes again. -/
theorem history_bounded_torn :
    ∃ kept ∈ (run 7 [.receive (executionAnswer 0x01080400), .receive (executionAnswer 0x01080c00),
      .receive (executionAnswer 0x01080400)]).history, kept.contradictory = true ∧
        kept.confirmsExecution = false := by
  obtain ⟨-, -, htorn⟩ := history_bounded 7 [.receive (executionAnswer 0x01080400),
    .receive (executionAnswer 0x01080c00), .receive (executionAnswer 0x01080400)]
  have hfirst : (run 7 [.receive (executionAnswer 0x01080400)]).messageId = 7 ∧
      (run 7 [.receive (executionAnswer 0x01080400)]).isLate false = false := by
    have hrun : run 7 [.receive (executionAnswer 0x01080400)] =
        ({ messageId := 7 } : ControllerObserver).record (executionEvent true) := by
      refine @step_receive { messageId := 7 } (executionAnswer 0x01080400) _ ?_
      exact observe_executionAnswer.1
    rw [hrun]
    exact ⟨rfl, rfl⟩
  obtain ⟨kept, hkept, -, -, hcontradictory, -, hexecution, -⟩ := htorn [] []
    [.receive (executionAnswer 0x01080400)] _ _ (executionEvent true) (executionEvent false) rfl
    observe_executionAnswer.1 hfirst.2 (by rw [List.nil_append, hfirst.1]; exact observe_executionAnswer.2)
    rfl (by decide)
  exact ⟨kept, hkept, hcontradictory, hexecution⟩

end ControllerObserver

end Vita.Transaction
