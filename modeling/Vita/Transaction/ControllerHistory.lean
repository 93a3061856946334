import Vita.Transaction.ControllerTheorems
import Vita.Transaction.ObserverHistory

/-!
# How the observations of a record change

A call of the registry lets the observer of a record observe something, frees the record or uses a free
one. An observation keeps its place and its value, until an answer contradicts it.

Main results:
- `ControllerObserver.Evolves.since`;
- `Controller.Registry.Sound.call_moves`.
-/

namespace Vita.Transaction

open Checked Timing Codec

/-- An observation, later: the same, or contradicted. -/
def Observation.Since (a b : Observation) : Prop := b = a ∨ b = a.contradict

namespace Observation

theorem contradict_contradict (o : Observation) : o.contradict.contradict = o.contradict := rfl

theorem Since.refl (a : Observation) : Since a a := .inl rfl

theorem Since.trans {a b c : Observation} (h : Since a b) (h' : Since b c) : Since a c := by
  rcases h with rfl | rfl
  · exact h'
  · rcases h' with rfl | rfl
    · exact .inr rfl
    · exact .inr (contradict_contradict a)

/-- A second change would be no change. -/
theorem Since.once {a b c : Observation} (h : Since a b) (h' : Since b c) (hne : b ≠ c) : a = b := by
  rcases h with rfl | rfl
  · rfl
  · rcases h' with rfl | rfl
    · exact absurd rfl hne
    · exact absurd (contradict_contradict a).symm hne

end Observation

namespace ControllerObserver

/-- A later observer of the same command, by what it has observed since. -/
def Evolves (o o' : ControllerObserver) : Prop := ∃ calls : List Call, calls.foldl step o = o'

theorem Evolves.refl (o : ControllerObserver) : Evolves o o := ⟨[], rfl⟩

theorem Evolves.trans {o o' o'' : ControllerObserver} (h : Evolves o o') (h' : Evolves o' o'') :
    Evolves o o'' := by
  obtain ⟨calls, rfl⟩ := h
  obtain ⟨calls', rfl⟩ := h'
  exact ⟨calls ++ calls', List.foldl_append⟩

theorem evolves_step (o : ControllerObserver) (call : Call) : Evolves o (o.step call) := ⟨[call], rfl⟩

theorem Evolves.keyed {o o' : ControllerObserver} (h : Evolves o o') (ho : Keyed o.history) :
    Keyed o'.history := by
  obtain ⟨calls, rfl⟩ := h
  induction calls generalizing o with
  | nil => exact ho
  | cons call calls ih => exact ih (ho.step call)

/-- An observation of the history may get later news, and stays. -/
theorem step_since {o : ControllerObserver} (call : Call) {k : ℕ} {a : Observation}
    (ha : o.history[k]? = some a) : ∃ b, (o.step call).history[k]? = some b ∧ a.Since b := by
  rcases (step_history o call).2 with hsame | ⟨event, -, hmerge⟩
  · rw [hsame]
    exact ⟨a, ha, .refl a⟩
  · rw [hmerge]
    rcases merge_getElem? event o.history k with heq | ⟨-, hnone⟩ | ⟨b, hb, -, -, heq⟩
    · exact ⟨a, heq.trans ha, .refl a⟩
    · rw [ha] at hnone
      cases hnone
    · obtain rfl := Option.some.inj (ha.symm.trans hb)
      exact ⟨_, heq, .inr rfl⟩

/-- An observation keeps its place. -/
theorem Evolves.since {o o' : ControllerObserver} (h : Evolves o o') {k : ℕ} {a : Observation}
    (ha : o.history[k]? = some a) : ∃ b, o'.history[k]? = some b ∧ a.Since b := by
  obtain ⟨calls, rfl⟩ := h
  induction calls generalizing o a with
  | nil => exact ⟨a, ha, .refl a⟩
  | cons call calls ih =>
    obtain ⟨b, hb, hab⟩ := step_since call ha
    obtain ⟨c, hc, hbc⟩ := ih hb
    exact ⟨c, hc, hab.trans hbc⟩

end ControllerObserver

namespace Controller

open ControllerObserver

/-! ## Records -/

/-- The record of the same command, later. -/
structure Stays (r r' : Record) : Prop where
  used : r'.used = r.used
  generation : r'.generation = r.generation
  observer : r.observer.Evolves r'.observer

/-- What a call makes of a record. -/
inductive Moves (r r' : Record) : Prop
  | stays (h : Stays r r')
  | freed (generation : r.generation < r'.generation) (history : r'.observer.history = [])
  | tracked (unused : ¬r.used) (used : r'.used) (generation : r'.generation = r.generation)
    (history : r'.observer.history = [])

theorem Stays.refl (r : Record) : Stays r r := ⟨rfl, rfl, .refl _⟩

theorem Stays.trans {r r' r'' : Record} (h : Stays r r') (h' : Stays r' r'') : Stays r r'' :=
  ⟨h'.used.trans h.used, h'.generation.trans h.generation, h.observer.trans h'.observer⟩

/-- A record whose observer is the same. -/
theorem Stays.of_observer {r r' : Record} (hused : r'.used = r.used)
    (hgeneration : r'.generation = r.generation) (h : r'.observer = r.observer) : Stays r r' := by
  refine ⟨hused, hgeneration, ?_⟩
  rw [h]
  exact .refl _

namespace Record

variable {r r' : Record} {c : Bool} {now : ℕ}

theorem ended_observer (r : Record) (c : Bool) (now : ℕ) : (r.ended c now).observer = r.observer := by
  cases c <;> rfl

theorem terminal_observer (h : r.terminal c now = .ok r') : r'.observer = r.observer := by
  rcases terminal_eq_ok h with rfl | rfl
  · rfl
  · exact ended_observer r c now

theorem terminal_stays (h : r.terminal c now = .ok r') : Stays r r' := by
  refine .of_observer ?_ ?_ (terminal_observer h)
  · rcases terminal_eq_ok h with rfl | rfl
    · rfl
    · exact (ended_kept r c now).used
  · rcases terminal_eq_ok h with rfl | rfl
    · rfl
    · exact (ended_kept r c now).generation

theorem afterDeadline_stays (r : Record) (c : Bool) (now : ℕ) : Stays r (r.afterDeadline c now) := by
  refine ⟨(afterDeadline_kept r c now).used, (afterDeadline_kept r c now).generation, ?_⟩
  unfold afterDeadline
  split
  · show r.observer.Evolves ((r.ended c (r.limit c)).observer.timeout c)
    rw [ended_observer]
    exact evolves_step r.observer (.timeout c)
  · exact .refl _

/-- An accepted answer leaves the observer that it was given. -/
theorem accepted_observer (r : Record) (c : Bool) (cam : UInt32) (now : ℕ)
    (captured : Option StateObservation × Option CapabilityObservation)
    (observer : ControllerObserver) :
    (r.accepted c cam now captured observer).observer = observer := by
  have hmarked : ((({ r with observer }.store c captured).markSeen c cam)).observer = observer := by
    cases c <;> rfl
  unfold accepted concluded
  dsimp only
  split
  · rw [ended_observer, hmarked]
  · exact hmarked

/-- An acknowledgement leaves the record in its relationship. -/
theorem Sound.receive_stays (h : r.Sound) (wire : Bytes) (e : Envelope) (cam : UInt32) (now : ℕ) :
    Stays r (r.receive wire e cam now).2 := by
  have hkept := (h.receive wire e cam now).kept
  refine ⟨hkept.used, hkept.generation, ?_⟩
  rcases receive_cases h wire e cam now with ⟨err, heq⟩ | ⟨err, heq⟩ |
    ⟨parsed, captured, observer, -, -, hobserver, heq⟩
  · rw [heq]
    exact .refl _
  · rw [heq]
    exact (afterDeadline_stays r e.cancel now).observer
  · rw [heq, accepted_observer]
    have hstep : (r.afterDeadline e.cancel now).observer.step (.receive parsed) = observer := by
      simp only [ControllerObserver.step, readResult_eq_ok.mp hobserver]
    refine (afterDeadline_stays r e.cancel now).observer.trans ?_
    rw [← hstep]
    exact evolves_step _ _

/-- The check of a cancellation leaves the record in use, with its observer. -/
theorem checkCancel_same {maxCancelBytes timeoutNs : ℕ} {packet : PacketView}
    {registration : Registry.CancelRegistration}
    (hcheck : Registry.checkCancel maxCancelBytes r packet now timeoutNs = .ok (registration, r')) :
    r'.used = r.used ∧ r'.generation = r.generation ∧ r'.observer = r.observer := by
  unfold Registry.checkCancel at hcheck
  simp only [bind_eq_ok, rejectIf_eq_ok] at hcheck
  obtain ⟨_, -, hcheck⟩ := hcheck
  split at hcheck
  · cases hcheck
  · simp only [bind_eq_ok, rejectIf_eq_ok] at hcheck
    obtain ⟨_, -, hcheck⟩ := hcheck
    split at hcheck
    · cases hcheck
    · simp only [bind_eq_ok, rejectIf_eq_ok] at hcheck
      obtain ⟨_, -, hcheck⟩ := hcheck
      split at hcheck
      · simp only [bind_eq_ok, rejectIf_eq_ok, pure_eq_ok, Except.ok.injEq, Prod.mk.injEq] at hcheck
        obtain ⟨_, -, -, rfl⟩ := hcheck
        exact ⟨rfl, rfl, rfl⟩
      · simp only [bind_eq_ok, rejectIf_eq_ok] at hcheck
        obtain ⟨_, -, _, -, _, -, hcheck⟩ := hcheck
        split at hcheck
        · cases hcheck
        · simp only [bind_eq_ok, rejectIf_eq_ok, pure_eq_ok, Except.ok.injEq, Prod.mk.injEq] at hcheck
          obtain ⟨_, -, -, rfl⟩ := hcheck
          exact ⟨rfl, rfl, rfl⟩

end Record

/-! ## Calls -/

namespace Registry

variable {sizes : Sizes} {s : Registry sizes}

theorem setRecord_records (s : Registry sizes) (i k : Fin sizes.records) (r : Record) :
    (s.setRecord i r).records k = if k = i then r else s.records k := by
  show Function.update s.records i r k = _
  rw [Function.update_apply]

/-- A call for one record leaves all records in their relationships. -/
theorem onRecord_stays {α : Type} {handle : ControllerHandle} {f : Record → Result (α × Record)}
    (hf : ∀ r a r', f r = .ok (a, r') → Stays r r') (i : Fin sizes.records) :
    Stays (s.records i) ((s.onRecord handle f).2.records i) := by
  unfold Registry.onRecord
  split
  · exact .refl _
  · next k hk =>
    split
    · exact .refl _
    · next a r hr =>
      rw [setRecord_records]
      split
      · next heq =>
        rw [heq]
        exact hf _ _ _ hr
      · exact .refl _

/-- So does the passing of time. -/
theorem Sound.advanceFrom_stays (h : s.Sound) (now : ℕ) (indices : List (Fin sizes.records))
    (i : Fin sizes.records) : Stays (s.records i) ((Registry.advanceFrom now indices s).2.records i) := by
  induction indices generalizing s with
  | nil => exact .refl _
  | cons k rest ih =>
    unfold Registry.advanceFrom
    split
    · exact ih h
    · have hr := h.records k
      have hr' := hr.afterDeadline false now
      have hkept := (Record.afterDeadline_kept (s.records k) false now).trans
        (Record.afterDeadline_kept _ true now)
      rw [Record.expireDeadline_eq hr]
      dsimp only
      rw [Record.expireDeadline_eq hr']
      dsimp only
      refine Stays.trans ?_ (ih (h.setRecord ⟨hkept, hr'.afterDeadline true now⟩))
      rw [setRecord_records]
      split
      · next heq =>
        rw [heq]
        exact (Record.afterDeadline_stays _ false now).trans (Record.afterDeadline_stays _ true now)
      · exact .refl _

/-- `track` uses a free record for a request, or changes no record. -/
theorem track_records (s : Registry sizes) (slot : ℕ) (request : PacketView) (now timeoutNs : ℕ) :
    (∃ err, s.track slot request now timeoutNs = (.error err, s)) ∨
    ∃ (k : Fin sizes.records) (r : Record) (tracked : TrackedRequest),
      (s.track slot request now timeoutNs).1 = .ok tracked ∧
      (s.track slot request now timeoutNs).2.records = Function.update s.records k r ∧
      tracked.handle = { slot := k.val, generation := r.generation } ∧ ¬(s.records k).used ∧ r.used ∧
      r.generation = (s.records k).generation ∧ r.observer.history = [] := by
  unfold track
  split
  · exact .inl ⟨_, rfl⟩
  · dsimp only
    split
    · exact .inl ⟨_, rfl⟩
    · split
      · exact .inl ⟨_, rfl⟩
      · next k hk => exact .inr ⟨k, _, _, rfl, rfl, rfl, (freeRecord_unused hk).1, rfl, rfl, rfl⟩

/-- A tracked request begins a record. -/
theorem track_moves (s : Registry sizes) (slot : ℕ) (request : PacketView) (now timeoutNs : ℕ)
    (i : Fin sizes.records) :
    Moves (s.records i) ((s.track slot request now timeoutNs).2.records i) := by
  rcases track_records s slot request now timeoutNs with ⟨err, heq⟩ |
    ⟨k, r, tracked, -, hrecords, -, hunused, hused, hgeneration, hhistory⟩
  · rw [heq]
    exact .stays (.refl _)
  · rw [hrecords, Function.update_apply]
    split
    · next hk =>
      rw [hk]
      exact .tracked hunused hused hgeneration hhistory
    · exact .stays (.refl _)

/-- What a call of the registry makes of each record. -/
theorem Sound.call_moves (h : s.Sound) (c : Call) (i : Fin sizes.records) :
    Moves (s.records i) ((s.call c).records i) := by
  cases c with
  | registerRelationship identity nextMid profile =>
    have hsame : (s.registerRelationship identity nextMid profile).2.records = s.records := by
      unfold Registry.registerRelationship
      split
      · rfl
      · dsimp only
        split
        · split <;> rfl
        · split <;> rfl
    refine .stays ?_
    show Stays _ ((s.registerRelationship identity nextMid profile).2.records i)
    rw [hsame]
    exact .refl _
  | resumeAfter slot watermark =>
    have hsame : (s.resumeAfter slot watermark).2.records = s.records := by
      unfold Registry.resumeAfter
      split
      · rfl
      · dsimp only
        split
        · rfl
        · split <;> rfl
    refine .stays ?_
    show Stays _ ((s.resumeAfter slot watermark).2.records i)
    rw [hsame]
    exact .refl _
  | track slot request now timeoutNs => exact track_moves s slot request now timeoutNs i
  | registerCancel handle packet now timeoutNs =>
    refine .stays (onRecord_stays (fun r a r' hcheck => ?_) i)
    obtain ⟨hused, hgeneration, hobserver⟩ := Record.checkCancel_same hcheck
    exact .of_observer hused hgeneration hobserver
  | localSend handle succeeded =>
    refine .stays (onRecord_stays (fun r a r' hr => ?_) i)
    cases hr
    exact ⟨rfl, rfl, evolves_step r.observer (.localSend succeeded)⟩
  | receive generation peer wire now =>
    refine .stays ?_
    show Stays _ ((s.receive generation peer wire now).2.records i)
    rcases h.receive_cases generation peer wire now with ⟨err, heq⟩ |
      ⟨framing, command, k, -, -, -, heq⟩
    · rw [heq]
      exact .refl _
    · rw [heq]
      dsimp only
      rw [setRecord_records]
      split
      · next hk =>
        rw [hk]
        exact (h.records k).receive_stays wire framing.envelope command.cam now
      · exact .refl _
  | advance now => exact .stays (h.advanceFrom_stays now _ i)
  | markTerminal handle cancellation now =>
    refine .stays (onRecord_stays (fun r a r' hr => ?_) i)
    simp only [bind_eq_ok, rejectIf_eq_ok, pure_eq_ok, Except.ok.injEq, Prod.mk.injEq] at hr
    obtain ⟨_, -, r'', hterminal, -, rfl⟩ := hr
    exact Record.terminal_stays hterminal
  | retain handle =>
    refine .stays (onRecord_stays (fun r a r' hr => ?_) i)
    simp only [bind_eq_ok, rejectIf_eq_ok, pure_eq_ok, Except.ok.injEq, Prod.mk.injEq] at hr
    obtain ⟨_, -, -, rfl⟩ := hr
    exact .of_observer rfl rfl rfl
  | release handle =>
    refine .stays (onRecord_stays (fun r a r' hr => ?_) i)
    simp only [bind_eq_ok, rejectIf_eq_ok, pure_eq_ok, Except.ok.injEq, Prod.mk.injEq] at hr
    obtain ⟨_, -, -, rfl⟩ := hr
    exact .of_observer rfl rfl rfl
  | expire now =>
    show Moves _ (if expired (s.records i) now then
      ({ generation := (s.records i).generation + 1 } : Record) else s.records i)
    split
    · exact .freed (Nat.lt_succ_self _) rfl
    · exact .stays (.refl _)

/-! ### Calls that observe nothing -/

/-- A call that leaves the observer of its record leaves all observers. -/
theorem onRecord_observer {α : Type} {s : Registry sizes} {handle : ControllerHandle}
    {f : Record → Result (α × Record)} (hf : ∀ r a r', f r = .ok (a, r') → r'.observer = r.observer)
    (i : Fin sizes.records) :
    ((s.onRecord handle f).2.records i).observer = (s.records i).observer := by
  unfold Registry.onRecord
  split
  · rfl
  · next k hk =>
    split
    · rfl
    · next a r hr =>
      rw [setRecord_records]
      split
      · next heq =>
        rw [heq]
        exact hf _ _ _ hr
      · rfl

theorem release_observer (s : Registry sizes) (handle : ControllerHandle) (i : Fin sizes.records) :
    ((s.call (.release handle)).records i).observer = (s.records i).observer := by
  refine onRecord_observer (fun r a r' hr => ?_) i
  simp only [bind_eq_ok, rejectIf_eq_ok, pure_eq_ok, Except.ok.injEq, Prod.mk.injEq] at hr
  obtain ⟨_, -, -, rfl⟩ := hr
  rfl

theorem markTerminal_observer (s : Registry sizes) (handle : ControllerHandle) (cancellation : Bool)
    (now : ℕ) (i : Fin sizes.records) :
    ((s.call (.markTerminal handle cancellation now)).records i).observer = (s.records i).observer := by
  refine onRecord_observer (fun r a r' hr => ?_) i
  simp only [bind_eq_ok, rejectIf_eq_ok, pure_eq_ok, Except.ok.injEq, Prod.mk.injEq] at hr
  obtain ⟨_, -, r'', hterminal, -, rfl⟩ := hr
  exact Record.terminal_observer hterminal

theorem registerCancel_observer (s : Registry sizes) (handle : ControllerHandle) (packet : PacketView)
    (now timeoutNs : ℕ) (i : Fin sizes.records) :
    ((s.call (.registerCancel handle packet now timeoutNs)).records i).observer =
      (s.records i).observer :=
  onRecord_observer (fun _ _ _ hcheck => (Record.checkCancel_same hcheck).2.2) i

/-- A report of a sending leaves the observers of the other records. -/
theorem localSend_observer (s : Registry sizes) (handle : ControllerHandle) (succeeded : Bool)
    (i : Fin sizes.records) (hi : i.val ≠ handle.slot) :
    ((s.call (.localSend handle succeeded)).records i).observer = (s.records i).observer := by
  show ((s.onRecord handle _).2.records i).observer = _
  unfold Registry.onRecord
  split
  · rfl
  · next k hk =>
    split
    · rfl
    · next a r hr =>
      rw [setRecord_records, if_neg]
      rintro rfl
      unfold Registry.find at hk
      split at hk
      · split at hk
        · obtain rfl := Option.some.inj hk
          exact hi rfl
        · cases hk
      · cases hk

end Registry

end Controller

end Vita.Transaction
