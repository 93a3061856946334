import Vita.Runtime.Observers
import Vita.Transaction.ControllerHistory

/-!
# Observers miss nothing and hear nothing twice

Delivery compares the copies in the book of a transaction with its observations. An observation keeps its
place and changes once at most, so a copy that differs was not delivered as it is now. What is left open is
what the callbacks do while the loop runs: the loop goes on to count all observations as delivered when
one of them has registered another callback.

Main results:
- `Copies.called`: one observation is delivered, or had been;
- `deliverSlot_spec`: after its turn a slot has heard everything, and the slots before it still have;
- `observers_informed`.
-/

namespace Vita.Runtime.Observers

open Checked Codec Transaction
open Transaction.Controller (ControllerHandle Registry Sizes Record Stays Moves)
open Transaction.ControllerObserver (Keyed)

/-! ## What the log says -/

section Log

variable {slot : ℕ}

theorem inForce_append (log : List Event) (event : Event) :
    inForce slot (log ++ [event]) = forceStep slot (inForce slot log) event := by
  rw [inForce, List.foldl_append]
  rfl

theorem heard_append (log : List Event) (event : Event) :
    heard slot (log ++ [event]) = heardStep slot (heard slot log) event := by
  rw [heard, List.foldl_append]
  rfl

theorem entries_append (log more : List Event) :
    entries slot (log ++ more) = entries slot log ++ entries slot more :=
  List.filterMap_append

/-- A call is made under the registration that is in force, on its own transaction, and with something
that the callback was not called with before. -/
def Valid (log : List Event) : Prop :=
  ∀ (before : List Event) (slot : ℕ) (r : Registration) (generation entry : ℕ) (value : Observation)
    (after : List Event), log = before ++ .called slot r generation entry value :: after →
      inForce slot before = some r ∧ generation = r.generation ∧ (entry, value) ∉ heard slot before

/-- A history grows by an event that may happen. -/
theorem Valid.append {log : List Event} (h : Valid log) {event : Event}
    (hcalled : ∀ s r generation entry value, event = .called s r generation entry value →
      inForce s log = some r ∧ generation = r.generation ∧ (entry, value) ∉ heard s log) :
    Valid (log ++ [event]) := by
  intro before s r generation entry value after heq
  rcases List.eq_nil_or_concat after with rfl | ⟨after', last, rfl⟩
  · obtain ⟨rfl, hevent⟩ := List.append_inj' heq rfl
    exact hcalled s r generation entry value (List.singleton_inj.mp hevent)
  · rw [List.concat_eq_append, ← List.cons_append, ← List.append_assoc] at heq
    obtain ⟨hlog, -⟩ := List.append_inj' heq rfl
    exact h before s r generation entry value after' hlog

end Log

variable {sizes : Sizes} {w w' w'' : VitaRuntime sizes}

/-! ## The state between calls -/

/-- The record of a slot is that of a registration's transaction. -/
structure Live (w : VitaRuntime sizes) (i : Fin sizes.records) (r : Registration) : Prop where
  used : (w.controllers.records i).used
  generation : (w.controllers.records i).generation = r.generation

/-- What holds of the registry, the books and the log in every state. -/
structure Base (w : VitaRuntime sizes) : Prop where
  registry : w.controllers.Sound
  keyed : ∀ i, Keyed (w.history i)
  positive : ∀ i, 0 < (w.controllers.records i).generation
  /-- A book is not of a later transaction than the record, and a free record is of a later one. -/
  generations : ∀ i, (w.books i).generation ≤ (w.controllers.records i).generation
  free : ∀ i, ¬(w.controllers.records i).used →
    (w.books i).generation < (w.controllers.records i).generation
  force : ∀ i : Fin sizes.records, inForce i w.log = (w.books i).registered
  valid : Valid w.log

/-- The copies of a book: what its callback was called with are earlier values of the copies, and the
copies are earlier values of the observations. The observations up to `k` are delivered as they are. -/
structure Copies (k : ℕ) (b : Book) (history : List Observation) (heard : List (ℕ × Observation)) :
    Prop where
  since : ∀ e o, (e, o) ∈ heard →
    ∃ h, history[e]? = some h ∧ o.Since (b.delivered e) ∧ (b.delivered e).Since h
  counted : ∀ e o, (e, o) ∈ heard → e < b.deliveredCount ∨ e < k
  bound : b.deliveredCount ≤ history.length
  count : ∀ e, e < b.deliveredCount → (e, b.delivered e) ∈ heard
  within : k ≤ history.length
  reached : ∀ e, e < k → history[e]? = some (b.delivered e) ∧ (e, b.delivered e) ∈ heard

/-- A slot whose callback is registered for the record's transaction has good copies. -/
def Told (k : ℕ) (w : VitaRuntime sizes) (i : Fin sizes.records) : Prop :=
  ∀ r, (w.books i).registered = some r → Live w i r →
    Copies k (w.books i) (w.history i) (heard i w.log)

/-- The callback of a slot was called with every observation as it is. -/
def Informed (w : VitaRuntime sizes) (i : Fin sizes.records) : Prop :=
  ∀ r, (w.books i).registered = some r → Live w i r →
    ∀ (e : ℕ) (o : Observation), (w.history i)[e]? = some o → (e, o) ∈ heard i w.log

theorem generation_of_registered {b : Book} {r : Registration} (h : b.registered = some r) :
    r.generation = b.generation := by
  unfold Book.registered at h
  obtain ⟨callback, -, rfl⟩ := Option.map_eq_some_iff.mp h
  rfl

/-- Entries that only gain since are still those that were copied. -/
theorem Copies.evolve {b b' : Book} {history history' : List Observation}
    {heard : List (ℕ × Observation)} (h : Copies 0 b history heard) (hdelivered : b'.delivered = b.delivered)
    (hcount : b'.deliveredCount = b.deliveredCount)
    (hsince : ∀ (e : ℕ) (a : Observation), history[e]? = some a →
      ∃ a', history'[e]? = some a' ∧ a.Since a') : Copies 0 b' history' heard := by
  have hlength : history.length ≤ history'.length := by
    by_contra hlt
    have hsome : history[history'.length]? = some (history.get ⟨history'.length, by omega⟩) :=
      List.getElem?_eq_getElem _
    obtain ⟨a', ha', -⟩ := hsince _ _ hsome
    rw [List.getElem?_eq_none le_rfl] at ha'
    cases ha'
  refine ⟨fun e o ho => ?_, ?_, ?_, ?_, Nat.zero_le _, fun e he => absurd he (Nat.not_lt_zero e)⟩
  · obtain ⟨x, hx, hox, hdx⟩ := h.since e o ho
    obtain ⟨x', hx', hxx'⟩ := hsince e x hx
    rw [hdelivered]
    exact ⟨x', hx', hox, hdx.trans hxx'⟩
  · rw [hcount]
    exact h.counted
  · rw [hcount]
    exact h.bound.trans hlength
  · rw [hcount, hdelivered]
    exact h.count

/-- With nothing heard and nothing counted. -/
theorem Copies.fresh {b : Book} (history : List Observation) (hcount : b.deliveredCount = 0) :
    Copies 0 b history [] where
  since e o ho := absurd ho List.not_mem_nil
  counted e o ho := absurd ho List.not_mem_nil
  bound := by rw [hcount]; exact Nat.zero_le _
  count e he := absurd he (by rw [hcount]; exact Nat.not_lt_zero e)
  within := Nat.zero_le _
  reached e he := absurd he (Nat.not_lt_zero e)

/-! ## Calls of the registry -/

/-- A registration's transaction was the record's before a call as well. -/
theorem Base.live_before (hw : Base w) (c : Registry.Call) {i : Fin sizes.records} {r : Registration}
    (hr : r.generation = (w.books i).generation)
    (hlive : Live { w with controllers := w.controllers.call c } i r) :
    Live w i r ∧ Stays (w.controllers.records i) ((w.controllers.call c).records i) := by
  have hle := hw.generations i
  have hgeneration : ((w.controllers.call c).records i).generation = r.generation := hlive.generation
  cases hw.registry.call_moves c i with
  | stays h => exact ⟨⟨h.used ▸ hlive.used, h.generation ▸ hgeneration⟩, h⟩
  | freed hlt _ => omega
  | tracked hunused _ hsame _ =>
    have hlt := hw.free i hunused
    omega

/-- A call of the controllers leaves the books in order. -/
theorem Base.call (hw : Base w) (c : Registry.Call) :
    Base { w with controllers := w.controllers.call c } where
  registry := hw.registry.call c
  keyed i := by
    show Keyed ((w.controllers.call c).records i).observer.history
    cases hw.registry.call_moves c i with
    | stays h => exact h.observer.keyed (hw.keyed i)
    | freed _ hhistory =>
      rw [hhistory]
      exact ⟨List.nodup_nil, by simp⟩
    | tracked _ _ _ hhistory =>
      rw [hhistory]
      exact ⟨List.nodup_nil, by simp⟩
  positive i := by
    show 0 < ((w.controllers.call c).records i).generation
    have hpos := hw.positive i
    cases hw.registry.call_moves c i with
    | stays h => rwa [h.generation]
    | freed hlt _ => exact hpos.trans hlt
    | tracked _ _ hsame _ => rwa [hsame]
  generations i := by
    show (w.books i).generation ≤ ((w.controllers.call c).records i).generation
    have hle := hw.generations i
    cases hw.registry.call_moves c i with
    | stays h => rwa [h.generation]
    | freed hlt _ => exact hle.trans hlt.le
    | tracked _ _ hsame _ => rwa [hsame]
  free i hunused := by
    have hunused : ¬((w.controllers.call c).records i).used := hunused
    show (w.books i).generation < ((w.controllers.call c).records i).generation
    cases hw.registry.call_moves c i with
    | stays h =>
      rw [h.used] at hunused
      rw [h.generation]
      exact hw.free i hunused
    | freed hlt _ => exact (hw.generations i).trans_lt hlt
    | tracked _ hused _ _ => exact absurd hused hunused
  force := hw.force
  valid := hw.valid

theorem Told.call (hw : Base w) (c : Registry.Call) {i : Fin sizes.records} (h : Told 0 w i) :
    Told 0 { w with controllers := w.controllers.call c } i := by
  intro r hr hlive
  obtain ⟨hbefore, hstays⟩ := hw.live_before c (generation_of_registered hr) hlive
  exact (h r hr hbefore).evolve rfl rfl fun e a ha => hstays.observer.since ha

/-! ## Changes of a book -/

/-- How a book is opened, registered with or left: what the log says of it is what is in the book. -/
structure Rebooks (w : VitaRuntime sizes) (i : Fin sizes.records) (b : Book) (event : Event) : Prop where
  generations : b.generation ≤ (w.controllers.records i).generation
  free : ¬(w.controllers.records i).used → b.generation < (w.controllers.records i).generation
  event : event = .removed i ∧ b.registered = none ∨
    ∃ r, event = .registered i r ∧ b.registered = some r ∧ b.deliveredCount = 0

theorem Rebooks.ne_called {i : Fin sizes.records} {b : Book} {event : Event} (h : Rebooks w i b event)
    {s : ℕ} {r : Registration} {generation entry : ℕ} {value : Observation} :
    event ≠ .called s r generation entry value := by
  rcases h.event with ⟨rfl, -⟩ | ⟨r', rfl, -⟩
  · simp
  · simp

theorem books_setBook (w : VitaRuntime sizes) (i j : Fin sizes.records) (b : Book) :
    (w.setBook i b).books j = if j = i then b else w.books j := by
  show Function.update w.books i b j = _
  rw [Function.update_apply]

/-- The log of another slot. -/
theorem Rebooks.other {i : Fin sizes.records} {b : Book} {event : Event} (h : Rebooks w i b event)
    {j : Fin sizes.records} (hj : j ≠ i) :
    inForce j (w.log ++ [event]) = inForce j w.log ∧ heard j (w.log ++ [event]) = heard j w.log := by
  have hne : i.val ≠ j.val := fun heq => hj (Fin.ext heq.symm)
  rw [inForce_append, heard_append]
  rcases h.event with ⟨rfl, -⟩ | ⟨r', rfl, -⟩
  · exact ⟨if_neg hne, if_neg hne⟩
  · exact ⟨if_neg hne, if_neg hne⟩

theorem Rebooks.same {i : Fin sizes.records} {b : Book} {event : Event} (h : Rebooks w i b event) :
    inForce i (w.log ++ [event]) = b.registered ∧ heard i (w.log ++ [event]) = [] := by
  rw [inForce_append, heard_append]
  rcases h.event with ⟨rfl, hb⟩ | ⟨r', rfl, hb, -⟩
  · exact ⟨by rw [hb]; exact if_pos rfl, if_pos rfl⟩
  · exact ⟨by rw [hb]; exact if_pos rfl, if_pos rfl⟩

/-- A new registration leaves the books in order. -/
theorem Base.rebook (hw : Base w) {i : Fin sizes.records} {b : Book} {event : Event}
    (h : Rebooks w i b event) : Base ((w.setBook i b).note event) where
  registry := hw.registry
  keyed := hw.keyed
  positive := hw.positive
  generations j := by
    show ((w.setBook i b).books j).generation ≤ _
    rw [books_setBook]
    split
    · next hj => rw [hj]; exact h.generations
    · exact hw.generations j
  free j hunused := by
    show ((w.setBook i b).books j).generation < _
    rw [books_setBook]
    split
    · next hj =>
      rw [hj] at hunused ⊢
      exact h.free hunused
    · exact hw.free j hunused
  force j := by
    show inForce j (w.log ++ [event]) = ((w.setBook i b).books j).registered
    rw [books_setBook]
    split
    · next hj =>
      rw [hj]
      exact h.same.1
    · next hj => exact (h.other hj).1.trans (hw.force j)
  valid := hw.valid.append fun _ _ _ _ _ heq => absurd heq h.ne_called

/-- A new registration starts with nothing to tell. -/
theorem Told.rebook {i j : Fin sizes.records} {b : Book} {event : Event} (h : Rebooks w i b event)
    (htold : Told 0 w j) : Told 0 ((w.setBook i b).note event) j := by
  intro r hr hlive
  have hr : ((w.setBook i b).books j).registered = some r := hr
  show Copies 0 ((w.setBook i b).books j) (w.history j) (heard j (w.log ++ [event]))
  rw [books_setBook] at hr ⊢
  split at hr
  · next hj =>
    rw [if_pos hj, hj, h.same.2]
    rcases h.event with ⟨-, hnone⟩ | ⟨r', -, -, hcount⟩
    · rw [hnone] at hr
      cases hr
    · exact .fresh _ hcount
  · next hj =>
    rw [if_neg hj, (h.other hj).2]
    exact htold r hr ⟨hlive.used, hlive.generation⟩

/-! ## Actions -/

/-- What happened did not matter to a slot, except that its callback may be gone. -/
structure Calm (j : Fin sizes.records) (w w' : VitaRuntime sizes) : Prop where
  book : ∀ r, (w'.books j).registered = some r →
    w'.books j = w.books j ∧ heard j w'.log = heard j w.log
  history : ∀ r, (w'.books j).registered = some r → Live w' j r →
    Live w j r ∧ w'.history j = w.history j

theorem Calm.refl (j : Fin sizes.records) (w : VitaRuntime sizes) : Calm j w w :=
  ⟨fun _ _ => ⟨rfl, rfl⟩, fun _ _ h => ⟨h, rfl⟩⟩

theorem Calm.trans {j : Fin sizes.records} (h : Calm j w w') (h' : Calm j w' w'') : Calm j w w'' where
  book r hr := by
    obtain ⟨hbook, hheard⟩ := h'.book r hr
    obtain ⟨hbook', hheard'⟩ := h.book r (hbook ▸ hr)
    exact ⟨hbook.trans hbook', hheard.trans hheard'⟩
  history r hr hlive := by
    obtain ⟨hlive', hhistory⟩ := h'.history r hr hlive
    obtain ⟨hlive'', hhistory'⟩ := h.history r ((h'.book r hr).1 ▸ hr) hlive'
    exact ⟨hlive'', hhistory.trans hhistory'⟩

theorem Calm.told {j : Fin sizes.records} {k : ℕ} (h : Calm j w w') (htold : Told k w j) :
    Told k w' j := by
  intro r hr hlive
  obtain ⟨hbook, hheard⟩ := h.book r hr
  obtain ⟨hlive', hhistory⟩ := h.history r hr hlive
  rw [hbook, hheard, hhistory]
  exact htold r (hbook ▸ hr) hlive'

theorem Calm.informed {j : Fin sizes.records} (h : Calm j w w') (hinformed : Informed w j) :
    Informed w' j := by
  intro r hr hlive
  obtain ⟨hbook, hheard⟩ := h.book r hr
  obtain ⟨hlive', hhistory⟩ := h.history r hr hlive
  rw [hheard, hhistory]
  exact hinformed r (hbook ▸ hr) hlive'

/-- What an action does: transactions go on, copies stay good, and some slots do not notice. -/
structure Acted (quiet : Fin sizes.records → Prop) (w w' : VitaRuntime sizes) : Prop where
  base : Base w'
  used : ∀ j, (w.controllers.records j).used →
    Stays (w.controllers.records j) (w'.controllers.records j)
  told : ∀ j, Told 0 w j → Told 0 w' j
  calm : ∀ j, quiet j → Calm j w w'

variable {quiet : Fin sizes.records → Prop}

theorem Acted.refl (hw : Base w) : Acted quiet w w :=
  ⟨hw, fun _ _ => .refl _, fun _ h => h, fun j _ => .refl j w⟩

theorem Acted.trans (h : Acted quiet w w') (h' : Acted quiet w' w'') : Acted quiet w w'' where
  base := h'.base
  used j hused := (h.used j hused).trans (h'.used j ((h.used j hused).used.trans hused))
  told j htold := h'.told j (h.told j htold)
  calm j hj := (h.calm j hj).trans (h'.calm j hj)

/-- A call of the registry that frees nothing. -/
theorem Acted.call (hw : Base w) (c : Registry.Call) (hc : ∀ now, c ≠ .expire now)
    (hquiet : ∀ j, quiet j → ∀ r, (w.books j).registered = some r → Live w j r →
      ((w.controllers.call c).records j).observer = (w.controllers.records j).observer) :
    Acted quiet w { w with controllers := w.controllers.call c } where
  base := hw.call c
  used j hused := by
    rcases hw.registry.call_kept c hused with hkept | ⟨now, heq, -⟩
    · cases hw.registry.call_moves c j with
      | stays h => exact h
      | freed hlt _ =>
        have hsame := hkept.generation
        omega
      | tracked hunused _ _ _ => exact absurd hused hunused
    · exact absurd heq (hc now)
  told j htold := htold.call hw c
  calm j hj := by
    refine ⟨fun r _ => ⟨rfl, rfl⟩, fun r hr hlive => ?_⟩
    have hbefore := (hw.live_before c (generation_of_registered hr) hlive).1
    exact ⟨hbefore, congrArg (·.history) (hquiet j hj r hr hbefore)⟩

/-- A new registration is one of the things that an action may do. -/
theorem Acted.rebook (hw : Base w) {i : Fin sizes.records} {b : Book} {event : Event}
    (h : Rebooks w i b event) (hquiet : quiet i → b.registered = none) :
    Acted quiet w ((w.setBook i b).note event) where
  base := hw.rebook h
  used _ _ := .refl _
  told j htold := htold.rebook h
  calm j hj := by
    refine ⟨fun r hr => ?_, fun r hr hlive => ?_⟩
    · have hr : ((w.setBook i b).books j).registered = some r := hr
      show (w.setBook i b).books j = w.books j ∧ heard j (w.log ++ [event]) = heard j w.log
      rw [books_setBook] at hr ⊢
      split at hr
      · next hji =>
        rw [hquiet (hji ▸ hj)] at hr
        cases hr
      · next hji => exact ⟨if_neg hji, (h.other hji).2⟩
    · exact ⟨⟨hlive.used, hlive.generation⟩, rfl⟩

/-- A cancellation that gets as far as the transport, which refuses its packet. -/
def refuses (handle : TransactionHandle) (fields : UInt8) (now : ℕ) (sending : Sending)
    (w : VitaRuntime sizes) : Bool :=
  match sending.before,
    (w.controllers.registerCancel handle.controller sending.packet now sending.timeoutNs).1,
    sending.behind, sending.sent with
  | .ok _, .ok _, .ok _, .refused _ => handle.runtimeId = w.runtimeId ∧ handle.stream < w.count ∧
      handle.controller.slot < sizes.records ∧ fields ≠ 0 ∧ (w.bookOf handle).isSome
  | _, _, _, _ => false

/-- An action of a callback that leaves alone what the loop has passed: for the slots up to `i` it
registers no callback, and no packet is refused. -/
def careful (i : Fin sizes.records) (w : VitaRuntime sizes) : VitaRuntime.Action → Bool
  | .observe handle _ callback => callback = none ∨ ∀ j, w.bookOf handle = some j → i < j
  | .cancel handle fields now sending =>
    i.val < handle.controller.slot ∨ ¬refuses handle fields now sending w
  | _ => true

/-- An observe of a slot that is not quiet registers nothing in the quiet ones. -/
theorem Acted.observe (hw : Base w) (handle : TransactionHandle) (context : ℕ) (callback : Option ℕ)
    (hquiet : ∀ j : Fin sizes.records, quiet j →
      callback = none ∨ ∀ k, w.bookOf handle = some k → j < k) :
    Acted quiet w (w.observe handle context callback).2 := by
  unfold VitaRuntime.observe
  split
  · exact .refl hw
  · next i hi =>
    refine .rebook hw ⟨hw.generations i, hw.free i, ?_⟩ fun hi' => ?_
    · split
      · next r hr => exact .inr ⟨r, rfl, hr, rfl⟩
      · next hr => exact .inl ⟨rfl, hr⟩
    · rcases hquiet i hi' with rfl | hlt
      · rfl
      · exact absurd (hlt i hi) (lt_irrefl i)

/-- A call that changes no observer. -/
theorem Acted.plain (hw : Base w) (c : Registry.Call) (hc : ∀ now, c ≠ .expire now)
    (hobserver : ∀ j, ((w.controllers.call c).records j).observer =
      (w.controllers.records j).observer) :
    Acted quiet w { w with controllers := w.controllers.call c } :=
  .call hw c hc fun j _ _ _ _ => hobserver j

theorem Acted.release (hw : Base w) (handle : TransactionHandle) :
    Acted quiet w (w.release handle).2 := by
  unfold VitaRuntime.release
  split
  · exact .refl hw
  · next i hi =>
    have hremoved : Acted quiet w ((w.setBook i { w.books i with callback := none }).note (.removed i)) :=
      .rebook hw ⟨hw.generations i, hw.free i, .inl ⟨rfl, rfl⟩⟩ fun _ => rfl
    exact hremoved.trans (.plain hremoved.base (.release handle.controller) (by simp)
      (Registry.release_observer _ _))

/-- `send` under a handle, where the transport may refuse the packet only for a slot that is not quiet or
not live. -/
theorem Acted.send (hw : Base w) (handle : ControllerHandle) (sent : Sent)
    (hquiet : ∀ e, sent = .refused e → ∀ j : Fin sizes.records, quiet j → j.val = handle.slot →
      ∀ r, (w.books j).registered = some r → ¬Live w j r) :
    Acted quiet w (w.send handle sent).2 := by
  unfold VitaRuntime.send
  split
  · exact .refl hw
  · exact .refl hw
  · next e =>
    refine .call hw (.localSend handle false) (by simp) fun j hj r hr hlive => ?_
    refine Registry.localSend_observer w.controllers handle false j fun heq => ?_
    exact hquiet e rfl j hj heq r hr hlive

/-- A cancellation leaves the quiet slots as they are. -/
theorem Acted.cancel (hw : Base w) (handle : TransactionHandle) (fields : UInt8) (now : ℕ)
    (sending : Sending) (hquiet : ∀ j : Fin sizes.records, quiet j →
      j.val < handle.controller.slot ∨ ¬refuses handle fields now sending w) :
    Acted quiet w (w.cancel handle fields now sending).2 := by
  unfold VitaRuntime.cancel
  split
  · exact .refl hw
  · next hvalid =>
    split
    · exact .refl hw
    · next hbook =>
      split
      · exact .refl hw
      · next hbefore =>
        have hregistered : Acted quiet w { w with
            controllers := (w.controllers.registerCancel handle.controller sending.packet now
              sending.timeoutNs).2 } :=
          .plain hw (.registerCancel handle.controller sending.packet now sending.timeoutNs) (by simp)
            (Registry.registerCancel_observer _ _ _ _ _)
        split
        · next e controllers heq =>
          rwa [heq] at hregistered
        · next registration controllers heq =>
          rw [heq] at hregistered
          dsimp only
          split
          · exact hregistered
          · next hbehind =>
            refine hregistered.trans (.send hregistered.base _ _ fun e he j hj hslot => ?_)
            rcases hquiet j hj with hlt | hnot
            · omega
            · refine absurd ?_ hnot
              unfold refuses
              rw [hbefore, heq, hbehind, he]
              simp only [not_or, not_not, ne_eq, not_le, ge_iff_le] at hvalid
              simp only [decide_eq_true_eq]
              exact ⟨hvalid.1, hvalid.2.1, hvalid.2.2.1, hvalid.2.2.2,
                Option.isSome_iff_ne_none.mpr (by simpa using hbook)⟩

/-- `track` takes a record whose book is of an earlier transaction. -/
theorem Acted.track (hw : Base w) (relationship : ℕ) (packet : PacketView) (now timeoutNs : ℕ) :
    Acted quiet w { w with
      controllers := (w.controllers.track relationship packet now timeoutNs).2 } := by
  refine .call hw (.track relationship packet now timeoutNs) (by simp) fun j _ r _ hlive => ?_
  show ((w.controllers.track relationship packet now timeoutNs).2.records j).observer = _
  rcases Registry.track_records w.controllers relationship packet now timeoutNs with ⟨err, heq⟩ |
    ⟨k, x, tracked, -, hrecords, -, hunused, -⟩
  · rw [heq]
  · rw [hrecords, Function.update_of_ne]
    rintro rfl
    exact hunused hlive.used

/-- The book of a tracked record, until the command has been sent. -/
theorem Base.tracked (hw : Base w) {relationship now timeoutNs : ℕ} {packet : PacketView}
    {tracked : Registry.TrackedRequest} {controllers : Registry sizes}
    (h : w.controllers.track relationship packet now timeoutNs = (.ok tracked, controllers)) :
    ∃ k : Fin sizes.records, tracked.handle = { slot := k.val, generation := (controllers.records k).generation } ∧
      (controllers.records k).used ∧ (w.books k).generation < (controllers.records k).generation := by
  rcases Registry.track_records w.controllers relationship packet now timeoutNs with ⟨err, heq⟩ |
    ⟨k, x, tracked', htracked, hrecords, hhandle, hunused, hused, hgeneration, -⟩
  · rw [h] at heq
    cases heq
  · rw [h] at htracked hrecords
    obtain rfl := Except.ok.inj htracked
    have hx : controllers.records k = x := by
      rw [hrecords]
      exact Function.update_self ..
    rw [← hx] at hhandle hused hgeneration
    refine ⟨k, hhandle, hused, ?_⟩
    rw [hgeneration]
    exact hw.free k hunused

/-- A command takes a record whose book is of an earlier transaction. -/
theorem Acted.command (hw : Base w) (index relationship now : ℕ) (sending : Sending) :
    Acted quiet w (w.command index relationship now sending).2 := by
  unfold VitaRuntime.command
  split
  · exact .refl hw
  · have htrack : Acted quiet w _ :=
      Acted.track hw relationship sending.packet now sending.timeoutNs
    split
    · next e controllers heq => rwa [heq] at htrack
    · next tracked controllers heq =>
      obtain ⟨k, hhandle, hused, hlt⟩ := hw.tracked heq
      obtain ⟨handle, envelope⟩ := tracked
      obtain rfl := hhandle
      rw [heq] at htrack
      dsimp only
      split
      · exact htrack
      · let handle : ControllerHandle :=
          { slot := k.val, generation := (controllers.records k).generation }
        have hsend := htrack.trans (Acted.send htrack.base handle sending.sent
          fun e _ j _ hj r hr hlive => ?_)
        · split
          · next e w' hsent =>
            rw [hsent] at hsend
            have hterminal := hsend.trans (.plain hsend.base (.markTerminal handle false now) (by simp)
              (Registry.markTerminal_observer _ _ _ _))
            exact hterminal.trans (.plain hterminal.base (.release handle) (by simp)
              (Registry.release_observer _ _))
          · next w' hsent =>
            rw [hsent] at hsend
            obtain rfl : { w with controllers } = w' := by
              unfold VitaRuntime.send at hsent
              split at hsent
              · exact congrArg Prod.snd hsent
              · cases hsent
              · cases hsent
            split
            · exact hsend.trans (.rebook hsend.base
                ⟨le_rfl, fun hunused => absurd hused hunused, .inl ⟨rfl, rfl⟩⟩ fun _ => rfl)
            · exact hsend
        · -- the book of the slot is of an earlier transaction
          obtain rfl := Fin.ext hj
          have hbook := generation_of_registered hr
          have hrecord := hlive.generation
          dsimp only at hbook hrecord
          omega

/-- An action of a callback, or of the application. -/
theorem Acted.act (hw : Base w) (action : VitaRuntime.Action)
    (hcareful : ∀ j, quiet j → careful j w action) : Acted quiet w (w.act action) := by
  cases action with
  | observe handle context callback =>
    exact .observe hw handle context callback fun j hj => by simpa [careful] using hcareful j hj
  | release handle => exact .release hw handle
  | command index relationship now sending => exact .command hw index relationship now sending
  | cancel handle fields now sending =>
    exact .cancel hw handle fields now sending fun j hj => by simpa [careful] using hcareful j hj

/-- An action that is careful with a slot is so with the earlier ones. -/
theorem careful_mono {i j : Fin sizes.records} {action : VitaRuntime.Action} (h : careful i w action)
    (hj : j ≤ i) : careful j w action := by
  cases action with
  | observe handle context callback =>
    simp only [careful, decide_eq_true_eq] at h ⊢
    exact h.imp_right fun hlt k hk => hj.trans_lt (hlt k hk)
  | release handle => rfl
  | command index relationship now sending => rfl
  | cancel handle fields now sending =>
    simp only [careful, decide_eq_true_eq] at h ⊢
    exact h.imp_left fun hlt => lt_of_le_of_lt (show j.val ≤ i.val from hj) hlt

/-- An action of a callback, with the slot that is delivered and the state in which it is taken. -/
structure Taken (sizes : Sizes) where
  slot : Fin sizes.records
  before : VitaRuntime sizes
  action : VitaRuntime.Action

/-- What a callback does in one call. -/
def taken (i : Fin sizes.records) : VitaRuntime sizes → List VitaRuntime.Action → List (Taken sizes)
  | _, [] => []
  | w, action :: rest => { slot := i, before := w, action } :: taken i (w.act action) rest

theorem Acted.acts (hw : Base w) (i : Fin sizes.records) (actions : List VitaRuntime.Action)
    (hcareful : ∀ a ∈ taken i w actions, ∀ j, quiet j → careful j a.before a.action) :
    Acted quiet w (actions.foldl VitaRuntime.act w) := by
  induction actions generalizing w with
  | nil => exact .refl hw
  | cons action actions ih =>
    rw [taken, List.forall_mem_cons] at hcareful
    have hact := Acted.act hw action hcareful.1
    exact hact.trans (ih hact.base hcareful.2)

/-! ## One observation -/

section Copies

variable {k : ℕ} {b : Book} {history : List Observation} {told : List (ℕ × Observation)} {o : Observation}

/-- What is delivered was not heard before. -/
theorem Copies.unheard (h : Copies k b history told) (hk : history[k]? = some o)
    (hdiff : k ≥ b.deliveredCount ∨ b.delivered k ≠ o) : (k, o) ∉ told := by
  intro hmem
  have hcount : k < b.deliveredCount := (h.counted k o hmem).resolve_right (lt_irrefl k)
  obtain ⟨x, hx, hsince, hsince'⟩ := h.since k o hmem
  obtain rfl := Option.some.inj (hk.symm.trans hx)
  have hne : b.delivered k ≠ o := hdiff.resolve_left (by omega)
  -- the observation would have changed to the copy and back
  exact hne (hsince.once hsince' hne).symm

/-- One more entry is copied and told. -/
theorem Copies.called (h : Copies k b history told) (hk : history[k]? = some o) :
    Copies (k + 1) { b with delivered := Function.update b.delivered k o } history
      (told ++ [(k, o)]) where
  since e x hx := by
    by_cases he : e = k
    · subst he
      have hcopy : Function.update b.delivered e o e = o := Function.update_self ..
      refine ⟨o, hk, ?_, .inl hcopy.symm⟩
      show x.Since (Function.update b.delivered e o e)
      rw [Function.update_self]
      rcases List.mem_append.mp hx with hx | hx
      · obtain ⟨y, hy, hxd, hdy⟩ := h.since e x hx
        obtain rfl := Option.some.inj (hk.symm.trans hy)
        exact hxd.trans hdy
      · obtain ⟨-, rfl⟩ := Prod.mk.inj (List.mem_singleton.mp hx)
        exact .refl x
    · show ∃ y, history[e]? = some y ∧ x.Since (Function.update b.delivered k o e) ∧
        (Function.update b.delivered k o e).Since y
      rw [Function.update_of_ne he]
      rcases List.mem_append.mp hx with hx | hx
      · exact h.since e x hx
      · exact absurd (Prod.mk.inj (List.mem_singleton.mp hx)).1 he
  counted e x hx := by
    show e < b.deliveredCount ∨ e < k + 1
    rcases List.mem_append.mp hx with hx | hx
    · exact (h.counted e x hx).imp_right fun he => by omega
    · have he := (Prod.mk.inj (List.mem_singleton.mp hx)).1
      omega
  bound := h.bound
  count e he := by
    show (e, Function.update b.delivered k o e) ∈ told ++ [(k, o)]
    by_cases hek : e = k
    · rw [hek, Function.update_self]
      exact List.mem_append_right _ (List.mem_singleton.mpr rfl)
    · rw [Function.update_of_ne hek]
      exact List.mem_append_left _ (h.count e he)
  within := (List.getElem?_eq_some_iff.mp hk).1
  reached e he := by
    show history[e]? = some (Function.update b.delivered k o e) ∧
      (e, Function.update b.delivered k o e) ∈ told ++ [(k, o)]
    by_cases hek : e = k
    · rw [hek, Function.update_self]
      exact ⟨hk, List.mem_append_right _ (List.mem_singleton.mpr rfl)⟩
    · rw [Function.update_of_ne hek]
      obtain ⟨hsame, hmem⟩ := h.reached e (by omega)
      exact ⟨hsame, List.mem_append_left _ hmem⟩

/-- An observation that was delivered as it is. -/
theorem Copies.passed (h : Copies k b history told) (hk : history[k]? = some o)
    (hcount : k < b.deliveredCount) (hsame : b.delivered k = o) : Copies (k + 1) b history told where
  since := h.since
  counted e x hx := (h.counted e x hx).imp_right fun he => by omega
  bound := h.bound
  count := h.count
  within := (List.getElem?_eq_some_iff.mp hk).1
  reached e he := by
    by_cases hek : e = k
    · subst hek
      exact ⟨by rw [hsame, hk], h.count e hcount⟩
    · exact h.reached e (by omega)

/-- The loop has reached the end, and counts everything as delivered. -/
theorem Copies.counts (h : Copies history.length b history told) :
    Copies 0 { b with deliveredCount := history.length } history told where
  since := h.since
  counted e x hx := by
    obtain ⟨y, hy, -⟩ := h.since e x hx
    exact .inl (List.getElem?_eq_some_iff.mp hy).1
  bound := le_rfl
  count e he := (h.reached e he).2
  within := Nat.zero_le _
  reached e he := absurd he (Nat.not_lt_zero e)

end Copies

/-! ## One slot -/

/-- The loop has delivered the first `k` observations of a slot. -/
structure Delivered (k : ℕ) (w : VitaRuntime sizes) (i : Fin sizes.records) (r : Registration) : Prop where
  base : Base w
  registered : (w.books i).registered = some r
  live : Live w i r
  copies : Copies k (w.books i) (w.history i) (heard i w.log)

/-- What `progress` compares does not change. -/
theorem Base.setBook (hw : Base w) {i : Fin sizes.records} {b : Book}
    (hgeneration : b.generation = (w.books i).generation)
    (hregistered : b.registered = (w.books i).registered) : Base (w.setBook i b) where
  registry := hw.registry
  keyed := hw.keyed
  positive := hw.positive
  generations j := by
    rw [books_setBook]
    split
    · next hj =>
      rw [hj, hgeneration]
      exact hw.generations i
    · exact hw.generations j
  free j hunused := by
    rw [books_setBook]
    split
    · next hj =>
      rw [hj] at hunused ⊢
      rw [hgeneration]
      exact hw.free i hunused
    · exact hw.free j hunused
  force j := by
    rw [books_setBook]
    split
    · next hj =>
      rw [hj, hregistered]
      exact hw.force i
    · exact hw.force j
  valid := hw.valid

/-- A callback hears a value that its registration has not heard. -/
theorem Base.called (hw : Base w) {i : Fin sizes.records} {r : Registration} {generation entry : ℕ}
    {value : Observation} (hforce : inForce i w.log = some r) (hgeneration : generation = r.generation)
    (hunheard : (entry, value) ∉ heard i w.log) : Base (w.note (.called i r generation entry value)) where
  registry := hw.registry
  keyed := hw.keyed
  positive := hw.positive
  generations := hw.generations
  free := hw.free
  force j := (inForce_append _ _).trans (hw.force j)
  valid := hw.valid.append fun s r' generation' entry' value' heq => by
    injection heq with hs hr hg hentry hvalue
    subst hs hr hg hentry hvalue
    exact ⟨hforce, hgeneration, hunheard⟩

/-- The observation is copied and the call is noted. -/
def copied (i : Fin sizes.records) (r : Registration) (event : ℕ) (o : Observation)
    (w : VitaRuntime sizes) : VitaRuntime sizes :=
  (w.setBook i { w.books i with delivered := Function.update (w.books i).delivered event o }).note
    (.called i r (w.controllers.records i).generation event o)

theorem callback_eq (react : VitaRuntime.Reaction sizes) (i : Fin sizes.records) (r : Registration)
    (event : ℕ) (o : Observation) (w : VitaRuntime sizes) :
    w.callback react i r event o = (react i event).foldl VitaRuntime.act (Observers.copied i r event o w) := rfl

/-- What the callbacks of a slot do in its turn, from an observation on. -/
def eventsTaken (react : VitaRuntime.Reaction sizes) (i : Fin sizes.records) (r : Registration) :
    List ℕ → VitaRuntime sizes → List (Taken sizes)
  | [], _ => []
  | event :: rest, w =>
    let observation := (w.history i).getD event {}
    if event ≥ (w.books i).deliveredCount ∨ (w.books i).delivered event ≠ observation then
      let w' := w.callback react i r event observation
      taken i (Observers.copied i r event observation w) (react i event) ++
        if (w'.books i).registered ≠ some r then [] else eventsTaken react i r rest w'
    else eventsTaken react i r rest w

def slotTaken (react : VitaRuntime.Reaction sizes) (w : VitaRuntime sizes) (i : Fin sizes.records) :
    List (Taken sizes) :=
  match (w.books i).registered with
  | none => []
  | some r =>
    if (w.books i).generation ≠ 0 ∧
        (w.controllers.find { slot := i, generation := (w.books i).generation }).isSome then
      eventsTaken react i r (List.range (min (w.history i).length deliveredCapacity)) w
    else []

def slotsTaken (react : VitaRuntime.Reaction sizes) :
    List (Fin sizes.records) → VitaRuntime sizes → List (Taken sizes)
  | [], _ => []
  | i :: rest, w => slotTaken react w i ++ slotsTaken react rest (w.deliverSlot react i)

/-- What the callbacks do in a turn. -/
def turnTaken (react : VitaRuntime.Reaction sizes) (w : VitaRuntime sizes) : List (Taken sizes) :=
  slotsTaken react (List.finRange sizes.records) w

/-- The callbacks of a turn leave alone what the loop has passed, where they act. -/
def Careful (react : VitaRuntime.Reaction sizes) (w : VitaRuntime sizes) : Prop :=
  ∀ a ∈ turnTaken react w, careful a.slot a.before a.action

section Slot

variable {i : Fin sizes.records} {r : Registration} {k : ℕ} {o : Observation}

theorem copied_book (i : Fin sizes.records) (r : Registration) (k : ℕ) (o : Observation)
    (w : VitaRuntime sizes) : (copied i r k o w).books i =
      { w.books i with delivered := Function.update (w.books i).delivered k o } :=
  Function.update_self ..

/-- Other slots do not notice. -/
theorem copied_calm {j : Fin sizes.records} (hj : j ≠ i) (w : VitaRuntime sizes) :
    Calm j w (copied i r k o w) := by
  have hne : i.val ≠ j.val := fun heq => hj (Fin.ext heq.symm)
  refine ⟨fun r' _ => ⟨Function.update_of_ne hj .., ?_⟩,
    fun r' _ hlive => ⟨⟨hlive.used, hlive.generation⟩, rfl⟩⟩
  show heard j (w.log ++ [_]) = heard j w.log
  rw [heard_append]
  exact if_neg hne

/-- The entry that changed is copied before it is told. -/
theorem Delivered.copied (h : Delivered k w i r) (ho : (w.history i)[k]? = some o)
    (hdiff : k ≥ (w.books i).deliveredCount ∨ (w.books i).delivered k ≠ o) :
    Delivered (k + 1) (copied i r k o w) i r := by
  have hunheard := h.copies.unheard ho hdiff
  have hforce : inForce i w.log = some r := (h.base.force i).trans h.registered
  have hbook : Base (w.setBook i
      { w.books i with delivered := Function.update (w.books i).delivered k o }) :=
    h.base.setBook rfl rfl
  refine ⟨hbook.called hforce h.live.generation hunheard, ?_, ⟨h.live.used, h.live.generation⟩, ?_⟩
  · rw [copied_book]
    exact h.registered
  · rw [copied_book]
    show Copies (k + 1) _ (w.history i) (heard i (w.log ++ [_]))
    rw [heard_append]
    show Copies (k + 1) _ (w.history i) (if i.val = i.val then _ else _)
    rw [if_pos rfl]
    exact h.copies.called ho

/-- The callback is called: its actions leave the slot as it is, or without a callback. -/
theorem Delivered.callback (h : Delivered k w i r) (ho : (w.history i)[k]? = some o)
    (hdiff : k ≥ (w.books i).deliveredCount ∨ (w.books i).delivered k ≠ o)
    {react : VitaRuntime.Reaction sizes}
    (hreact : ∀ a ∈ taken i (Observers.copied i r k o w) (react i k), careful i a.before a.action) :
    Base (w.callback react i r k o) ∧
    (∀ j, j ≠ i → Told 0 w j → Told 0 (w.callback react i r k o) j) ∧
    (∀ j, j < i → Calm j w (w.callback react i r k o)) ∧
    (((w.callback react i r k o).books i).registered = none ∨
      Delivered (k + 1) (w.callback react i r k o) i r ∧
        (w.callback react i r k o).history i = w.history i) := by
  have hcopied := h.copied ho hdiff
  have hacts : Acted (fun j => j ≤ i) (Observers.copied i r k o w) _ := Acted.acts hcopied.base i (react i k)
    fun a ha j hj => careful_mono (hreact a ha) hj
  rw [callback_eq]
  refine ⟨hacts.base, fun j hj htold => hacts.told j ((copied_calm hj w).told htold),
    fun j hj => (copied_calm hj.ne w).trans (hacts.calm j hj.le), ?_⟩
  cases hregistered : (((react i k).foldl VitaRuntime.act (Observers.copied i r k o w)).books i).registered with
  | none => exact .inl rfl
  | some r' =>
    right
    have hcalm := hacts.calm i le_rfl
    obtain ⟨hbook, hheard⟩ := hcalm.book r' hregistered
    obtain rfl : r' = r := by
      rw [hbook] at hregistered
      exact Option.some.inj (hregistered.symm.trans hcopied.registered)
    have hstays := hacts.used i hcopied.live.used
    have hlive : Live ((react i k).foldl VitaRuntime.act (Observers.copied i r' k o w)) i r' :=
      ⟨hstays.used.trans hcopied.live.used, hstays.generation.trans hcopied.live.generation⟩
    have hhistory := (hcalm.history r' hregistered hlive).2
    refine ⟨⟨hacts.base, hregistered, hlive, ?_⟩, hhistory⟩
    rw [hbook, hhistory, hheard]
    exact hcopied.copies

/-- The loop from an observation on. -/
theorem deliverEvents_spec {react : VitaRuntime.Reaction sizes} (n : ℕ) {k : ℕ} {w : VitaRuntime sizes}
    (hreact : ∀ a ∈ eventsTaken react i r (List.range' k n) w, careful i a.before a.action)
    (h : Delivered k w i r) (hn : k + n = (w.history i).length) :
    let w' := VitaRuntime.deliverEvents react i r (List.range' k n) w
    Base w' ∧ (∀ j, j ≠ i → Told 0 w j → Told 0 w' j) ∧ (∀ j, j < i → Calm j w w') ∧
      ((w'.books i).registered = none ∨
        Delivered (w.history i).length w' i r ∧ w'.history i = w.history i) := by
  induction n generalizing k w with
  | zero =>
    rw [Nat.add_zero] at hn
    subst hn
    exact ⟨h.base, fun _ _ htold => htold, fun j _ => .refl j w, .inr ⟨h, rfl⟩⟩
  | succ n ih =>
    have hk : k < (w.history i).length := by omega
    have ho : (w.history i)[k]? = some ((w.history i).getD k {}) := by
      rw [List.getD_eq_getElem?_getD, List.getElem?_eq_getElem hk]
      rfl
    rw [List.range'_succ] at hreact ⊢
    unfold VitaRuntime.deliverEvents
    unfold eventsTaken at hreact
    dsimp only at hreact ⊢
    split
    · next hdiff =>
      rw [if_pos hdiff, List.forall_mem_append] at hreact
      obtain ⟨hfirst, hrest⟩ := hreact
      obtain ⟨hbase, htold, hcalm, hslot⟩ := h.callback ho hdiff hfirst
      split
      · next hleft =>
        -- the callback is gone
        refine ⟨hbase, htold, hcalm, .inl ?_⟩
        rcases hslot with hnone | ⟨hdelivered, -⟩
        · exact hnone
        · exact absurd hdelivered.registered hleft
      · next hsame =>
        rcases hslot with hnone | ⟨hdelivered, hhistory⟩
        · rw [hnone] at hsame
          exact absurd (by simp) hsame
        · rw [if_neg hsame] at hrest
          obtain ⟨hbase', htold', hcalm', hslot'⟩ := ih hrest hdelivered (by rw [hhistory]; omega)
          refine ⟨hbase', fun j hj ht => htold' j hj (htold j hj ht),
            fun j hj => (hcalm j hj).trans (hcalm' j hj), ?_⟩
          rwa [hhistory] at hslot'
    · next hsame =>
      rw [if_neg hsame] at hreact
      rw [not_or, not_not, Nat.not_le] at hsame
      exact ih hreact ⟨h.base, h.registered, h.live, h.copies.passed ho hsame.1 hsame.2⟩ (by omega)

/-- At the end of the loop everything counts as delivered. -/
theorem Delivered.counted (h : Delivered (w.history i).length w i r) :
    let w' := w.setBook i { w.books i with deliveredCount := (w.history i).length }
    Base w' ∧ Told 0 w' i ∧ Informed w' i ∧ ∀ j, j ≠ i → Calm j w w' := by
  have hbook : (w.setBook i { w.books i with deliveredCount := (w.history i).length }).books i =
      { w.books i with deliveredCount := (w.history i).length } := Function.update_self ..
  refine ⟨h.base.setBook rfl rfl, fun r' _ _ => ?_, fun r' _ _ e o ho => ?_, fun j hj => ?_⟩
  · rw [hbook]
    exact h.copies.counts
  · have he : e < (w.history i).length := (List.getElem?_eq_some_iff.mp ho).1
    obtain ⟨hsame, hmem⟩ := h.copies.reached e he
    obtain rfl := Option.some.inj (hsame.symm.trans ho)
    exact hmem
  · exact ⟨fun r' _ => ⟨Function.update_of_ne hj .., rfl⟩,
      fun r' _ hlive => ⟨⟨hlive.used, hlive.generation⟩, rfl⟩⟩

theorem isSome_registered (b : Book) : b.callback.isSome = b.registered.isSome := by
  unfold Book.registered
  cases b.callback <;> rfl

/-- The record of a book that the loop takes is that of the registration. -/
theorem live_of_find (hr : (w.books i).registered = some r) {x : Fin sizes.records}
    (hfind : w.controllers.find { slot := i, generation := (w.books i).generation } = some x) :
    Live w i r := by
  unfold Registry.find at hfind
  rw [dif_pos i.isLt] at hfind
  split at hfind
  · next hrecord => exact ⟨hrecord.1, hrecord.2.trans (generation_of_registered hr).symm⟩
  · cases hfind

theorem find_of_live (hr : (w.books i).registered = some r) (hlive : Live w i r) :
    w.controllers.find { slot := i, generation := (w.books i).generation } = some i := by
  unfold Registry.find
  rw [dif_pos i.isLt]
  exact if_pos ⟨hlive.used, hlive.generation.trans (generation_of_registered hr)⟩

/-- In its turn a slot hears everything, and the slots before it do not notice. -/
theorem deliverSlot_spec {react : VitaRuntime.Reaction sizes} (hw : Base w)
    (htold : ∀ j, Told 0 w j) (i : Fin sizes.records)
    (hreact : ∀ a ∈ slotTaken react w i, careful i a.before a.action) :
    Base (w.deliverSlot react i) ∧ (∀ j, Told 0 (w.deliverSlot react i) j) ∧
      Informed (w.deliverSlot react i) i ∧ ∀ j, j < i → Calm j w (w.deliverSlot react i) := by
  -- a slot that the loop does not take has nobody to inform
  have hskip (hnot : ∀ r, (w.books i).registered = some r → ¬Live w i r) :
      Base w ∧ (∀ j, Told 0 w j) ∧ Informed w i ∧ ∀ j, j < i → Calm j w w :=
    ⟨hw, htold, fun r hr hlive => absurd hlive (hnot r hr), fun j _ => .refl j w⟩
  unfold VitaRuntime.deliverSlot
  dsimp only
  split
  · next hnone =>
    refine hskip fun r hr => ?_
    rw [hnone] at hr
    cases hr
  · next r hr =>
    split
    · next hzero =>
      refine hskip fun r' hr' hlive => ?_
      have hpos := hw.positive i
      have hsame := hlive.generation.trans (generation_of_registered hr')
      omega
    · next hpositive =>
      split
      · next hfind =>
        refine hskip fun r' hr' hlive => ?_
        rw [find_of_live hr' hlive] at hfind
        cases hfind
      · next x hfind =>
        have hlive := live_of_find hr hfind
        have hrange : List.range (min (w.history i).length deliveredCapacity) =
            List.range' 0 (w.history i).length := by
          have hle : (w.history i).length ≤ deliveredCapacity := (hw.keyed i).length_le
          rw [List.range_eq_range', min_eq_left hle]
        have hevents : ∀ a ∈ eventsTaken react i r (List.range' 0 (w.history i).length) w,
            careful i a.before a.action := by
          rw [slotTaken, hr, hfind, hrange] at hreact
          simpa [hpositive] using hreact
        rw [hrange]
        obtain ⟨hbase, htold', hcalm, hslot⟩ := deliverEvents_spec (w.history i).length
          (k := 0) hevents ⟨hw, hr, hlive, htold i r hr hlive⟩ (Nat.zero_add _)
        generalize VitaRuntime.deliverEvents react i r (List.range' 0 (w.history i).length) w = w₁ at *
        rw [isSome_registered]
        rcases hslot with hnone | ⟨hdelivered, hhistory⟩
        · rw [hnone, if_neg (by simp)]
          refine ⟨hbase, fun j => ?_, fun r' hr' => ?_, hcalm⟩
          · by_cases hj : j = i
            · subst hj
              intro r' hr'
              rw [hnone] at hr'
              cases hr'
            · exact htold' j hj (htold j)
          · rw [hnone] at hr'
            cases hr'
        · rw [hdelivered.registered, if_pos (by simp), ← hhistory]
          rw [← hhistory] at hdelivered
          obtain ⟨hbase', htold'', hinformed, hcalm'⟩ := hdelivered.counted
          refine ⟨hbase', fun j => ?_, hinformed, fun j hj => (hcalm j hj).trans (hcalm' j hj.ne)⟩
          by_cases hj : j = i
          · subst hj
            exact htold''
          · exact (hcalm' j hj).told (htold' j hj (htold j))

end Slot

/-! ## One turn -/

/-- The copies are good in every book. -/
structure Steady (w : VitaRuntime sizes) : Prop where
  base : Base w
  told : ∀ j, Told 0 w j

theorem slot_of_taken {i : Fin sizes.records} {actions : List VitaRuntime.Action} {a : Taken sizes}
    (h : a ∈ taken i w actions) : a.slot = i := by
  induction actions generalizing w with
  | nil => cases h
  | cons action rest ih =>
    rw [taken, List.mem_cons] at h
    rcases h with rfl | h
    · rfl
    · exact ih h

/-- The events are taken for the slot they happened in. -/
theorem slot_of_eventsTaken {react : VitaRuntime.Reaction sizes} {i : Fin sizes.records} {r : Registration}
    {events : List ℕ} {a : Taken sizes} (h : a ∈ eventsTaken react i r events w) : a.slot = i := by
  induction events generalizing w with
  | nil => cases h
  | cons event rest ih =>
    unfold eventsTaken at h
    dsimp only at h
    split at h
    · rcases List.mem_append.mp h with h | h
      · exact slot_of_taken h
      · split at h
        · cases h
        · exact ih h
    · exact ih h

theorem slot_of_slotTaken {react : VitaRuntime.Reaction sizes} {i : Fin sizes.records} {a : Taken sizes}
    (h : a ∈ slotTaken react w i) : a.slot = i := by
  unfold slotTaken at h
  split at h
  · cases h
  · split at h
    · exact slot_of_eventsTaken h
    · cases h

/-- All slots are informed, one after the other. -/
theorem deliverSlots_spec {react : VitaRuntime.Reaction sizes} (slots : List (Fin sizes.records))
    (hsorted : slots.Pairwise (· < ·)) {w : VitaRuntime sizes}
    (hreact : ∀ a ∈ slotsTaken react slots w, careful a.slot a.before a.action) (hw : Steady w)
    (hdone : ∀ j, j ∈ slots ∨ Informed w j ∧ ∀ i ∈ slots, j < i) :
    Steady (slots.foldl (VitaRuntime.deliverSlot react) w) ∧
      ∀ j, Informed (slots.foldl (VitaRuntime.deliverSlot react) w) j := by
  induction slots generalizing w with
  | nil => exact ⟨hw, fun j => ((hdone j).resolve_left List.not_mem_nil).1⟩
  | cons i rest ih =>
    rw [List.pairwise_cons] at hsorted
    rw [slotsTaken, List.forall_mem_append] at hreact
    obtain ⟨hbase, htold, hinformed, hcalm⟩ := deliverSlot_spec hw.base hw.told i fun a ha =>
      slot_of_slotTaken ha ▸ hreact.1 a ha
    refine ih hsorted.2 hreact.2 ⟨hbase, htold⟩ fun j => ?_
    rcases hdone j with hj | ⟨hj, hbefore⟩
    · rcases List.mem_cons.mp hj with rfl | hj
      · exact .inr ⟨hinformed, hsorted.1⟩
      · exact .inl hj
    · exact .inr ⟨(hcalm j (hbefore i List.mem_cons_self)).informed hj,
        fun x hx => hbefore x (List.mem_cons_of_mem _ hx)⟩

theorem deliver_spec {react : VitaRuntime.Reaction sizes}
    (hreact : Careful react w) (hw : Steady w) :
    Steady (w.deliver react) ∧ ∀ j, Informed (w.deliver react) j :=
  deliverSlots_spec _ (List.pairwise_lt_finRange _) hreact hw fun j => .inl (List.mem_finRange j)

/-! ### Order -/

/-- No action calls a callback. -/
theorem entries_act (w : VitaRuntime sizes) (action : VitaRuntime.Action) (slot : ℕ) :
    entries slot (w.act action).log = entries slot w.log := by
  have hsend (w : VitaRuntime sizes) (handle : ControllerHandle) (sent : Sent) :
      (w.send handle sent).2.log = w.log := by
    unfold VitaRuntime.send
    split <;> rfl
  cases action with
  | observe handle context callback =>
    show entries slot (w.observe handle context callback).2.log = _
    unfold VitaRuntime.observe
    split
    · rfl
    · refine (entries_append _ _).trans ?_
      split <;> exact List.append_nil _
  | release handle =>
    show entries slot (w.release handle).2.log = _
    unfold VitaRuntime.release
    split
    · rfl
    · exact (entries_append _ _).trans (List.append_nil _)
  | command index relationship now sending =>
    show entries slot (w.command index relationship now sending).2.log = _
    unfold VitaRuntime.command
    split
    · rfl
    · split
      · rfl
      · dsimp only
        split
        · rfl
        · split
          · next hsent =>
            have hlog := (congrArg (fun x => x.2.log) hsent).symm.trans (hsend _ _ _)
            exact congrArg (entries slot) hlog
          · next hsent =>
            have hlog := (congrArg (fun x => x.2.log) hsent).symm.trans (hsend _ _ _)
            split
            · exact (entries_append _ _).trans
                ((List.append_nil _).trans (congrArg (entries slot) hlog))
            · exact congrArg (entries slot) hlog
  | cancel handle fields now sending =>
    show entries slot (w.cancel handle fields now sending).2.log = _
    unfold VitaRuntime.cancel
    repeat' split
    all_goals first | rfl | exact congrArg (entries slot) (hsend _ _ _)

theorem entries_acts (actions : List VitaRuntime.Action) (w : VitaRuntime sizes) (slot : ℕ) :
    entries slot (actions.foldl VitaRuntime.act w).log = entries slot w.log := by
  induction actions generalizing w with
  | nil => rfl
  | cons action actions ih => exact (ih _).trans (entries_act w action slot)

/-- The loop calls a callback with some of the observations, in their order. -/
theorem deliverEvents_entries (react : VitaRuntime.Reaction sizes) (i : Fin sizes.records)
    (r : Registration) (events : List ℕ) (w : VitaRuntime sizes) :
    (∃ es, es.Sublist events ∧
      entries i (VitaRuntime.deliverEvents react i r events w).log = entries i w.log ++ es) ∧
    ∀ j : Fin sizes.records, j ≠ i →
      entries j (VitaRuntime.deliverEvents react i r events w).log = entries j w.log := by
  induction events generalizing w with
  | nil => exact ⟨⟨[], List.Sublist.refl _, (List.append_nil _).symm⟩, fun _ _ => rfl⟩
  | cons event rest ih =>
    unfold VitaRuntime.deliverEvents
    dsimp only
    split
    · have hsame (o : Observation) : entries i (w.callback react i r event o).log =
          entries i w.log ++ [event] := by
        rw [callback_eq, entries_acts]
        refine (entries_append _ _).trans (congrArg _ ?_)
        simp [entries]
      have hother (o : Observation) (j : Fin sizes.records) (hj : j ≠ i) :
          entries j (w.callback react i r event o).log = entries j w.log := by
        have hne : i.val ≠ j.val := fun heq => hj (Fin.ext heq.symm)
        rw [callback_eq, entries_acts]
        refine (entries_append _ _).trans ((congrArg _ ?_).trans (List.append_nil _))
        simp [entries, hne]
      split
      · exact ⟨⟨[event], List.Sublist.cons_cons _ (List.nil_sublist _), hsame _⟩, hother _⟩
      · obtain ⟨⟨es, hsub, hes⟩, hrest⟩ := ih (w.callback react i r event ((w.history i).getD event {}))
        refine ⟨⟨event :: es, hsub.cons_cons event, ?_⟩, fun j hj => (hrest j hj).trans (hother _ j hj)⟩
        rw [hes, hsame, List.append_assoc, List.singleton_append]
    · obtain ⟨⟨es, hsub, hes⟩, hrest⟩ := ih w
      exact ⟨⟨es, hsub.cons event, hes⟩, hrest⟩

/-- The entries of a slot are told in their order, and those of no other slot. -/
theorem deliverSlot_entries (react : VitaRuntime.Reaction sizes) (w : VitaRuntime sizes)
    (i : Fin sizes.records) :
    (∃ es : List ℕ, es.Pairwise (· < ·) ∧
      entries i (w.deliverSlot react i).log = entries i w.log ++ es) ∧
    ∀ j : Fin sizes.records, j ≠ i → entries j (w.deliverSlot react i).log = entries j w.log := by
  have hnone : (∃ es : List ℕ, es.Pairwise (· < ·) ∧ entries i w.log = entries i w.log ++ es) ∧
      ∀ j : Fin sizes.records, j ≠ i → entries j w.log = entries j w.log :=
    ⟨⟨[], List.Pairwise.nil, (List.append_nil _).symm⟩, fun _ _ => rfl⟩
  unfold VitaRuntime.deliverSlot
  dsimp only
  split
  · exact hnone
  · next r hr =>
    split
    · exact hnone
    · split
      · exact hnone
      · obtain ⟨⟨es, hsub, hes⟩, hother⟩ := deliverEvents_entries react i r
          (List.range (min (w.history i).length deliveredCapacity)) w
        have hsorted := List.Pairwise.sublist hsub List.pairwise_lt_range
        split
        · exact ⟨⟨es, hsorted, hes⟩, hother⟩
        · exact ⟨⟨es, hsorted, hes⟩, hother⟩

/-- In a turn the callback of a slot is called in the order of the observations. -/
theorem deliver_entries (react : VitaRuntime.Reaction sizes) (w : VitaRuntime sizes)
    (j : Fin sizes.records) :
    ∃ es : List ℕ, es.Pairwise (· < ·) ∧ entries j (w.deliver react).log = entries j w.log ++ es := by
  have hslots (slots : List (Fin sizes.records)) (hnodup : slots.Nodup) (w : VitaRuntime sizes) :
      ∃ es : List ℕ, es.Pairwise (· < ·) ∧
        entries j (slots.foldl (VitaRuntime.deliverSlot react) w).log = entries j w.log ++ es ∧
        (j ∉ slots → es = []) := by
    induction slots generalizing w with
    | nil => exact ⟨[], List.Pairwise.nil, (List.append_nil _).symm, fun _ => rfl⟩
    | cons i rest ih =>
      rw [List.nodup_cons] at hnodup
      obtain ⟨es, hsorted, hes, hempty⟩ := ih hnodup.2 (w.deliverSlot react i)
      obtain ⟨⟨es', hsorted', hes'⟩, hother⟩ := deliverSlot_entries react w i
      by_cases hj : j = i
      · subst hj
        obtain rfl := hempty hnodup.1
        rw [List.append_nil] at hes
        exact ⟨es', hsorted', hes.trans hes', fun hmem => absurd List.mem_cons_self hmem⟩
      · rw [hother j hj] at hes
        exact ⟨es, hsorted, hes, fun hmem => hempty fun hrest => hmem (List.mem_cons_of_mem _ hrest)⟩
  obtain ⟨es, hsorted, hes, -⟩ := hslots _ (List.nodup_finRange _) w
  exact ⟨es, hsorted, hes⟩

/-! ## Runs -/

/-- A turn in which the callbacks are careful, or something else. -/
def Considerate (w : VitaRuntime sizes) : VitaRuntime.Input sizes → Prop
  | .deliver react => Careful react w
  | _ => True

/-- The states of the runs in which they do. -/
inductive Reached : VitaRuntime sizes → Prop
  | start (runtimeId count : ℕ) : Reached { runtimeId, count }
  | step {w : VitaRuntime sizes} (hw : Reached w) (input : VitaRuntime.Input sizes)
      (h : Considerate w input) : Reached (w.step input)

theorem Steady.start (runtimeId count : ℕ) : Steady ({ runtimeId, count } : VitaRuntime sizes) where
  base :=
    { registry := Registry.sound_new
      keyed := fun _ => ⟨List.nodup_nil, by simp [VitaRuntime.history]⟩
      positive := fun _ => Nat.one_pos
      generations := fun _ => Nat.zero_le _
      free := fun _ _ => Nat.one_pos
      force := fun _ => rfl
      valid := fun before _ _ _ _ _ after heq => absurd heq (by simp) }
  told _ r hr := by cases hr

theorem Steady.acted {quiet : Fin sizes.records → Prop} (hw : Steady w) (h : Acted quiet w w') :
    Steady w' := ⟨h.base, fun j => h.told j (hw.told j)⟩

/-- The end of a recovery leaves the observers informed. -/
theorem Steady.finishLifecycle (hw : Steady w) (index : ℕ) (originalSid : UInt32) :
    Steady (w.finishLifecycle index originalSid) := by
  have hfold (slots : List (Fin sizes.records)) {w : VitaRuntime sizes} (hw : Steady w) :
      Steady (slots.foldl (fun w i =>
        if (w.books i).stream = index ∧ (w.books i).request.streamId = some originalSid then
          (w.setBook i { w.books i with callback := none }).note (.removed i)
        else w) w) := by
    induction slots generalizing w with
    | nil => exact hw
    | cons i rest ih =>
      refine ih ?_
      dsimp only
      split
      · have hbook : Acted (fun _ => False) w
            ((w.setBook i { w.books i with callback := none }).note (.removed i)) :=
          .rebook hw.base ⟨hw.base.generations i, hw.base.free i, .inl ⟨rfl, rfl⟩⟩ False.elim
        exact hw.acted hbook
      · exact hw
  exact hfold _ hw

theorem Steady.step (hw : Steady w) (input : VitaRuntime.Input sizes) (h : Considerate w input) :
    Steady (w.step input) := by
  cases input with
  | controllers call => exact ⟨hw.base.call call, fun j => (hw.told j).call hw.base call⟩
  | act action =>
    have hact : Acted (fun _ => False) w (w.act action) := .act hw.base action fun _ => False.elim
    exact hw.acted hact
  | finishLifecycle index originalSid => exact hw.finishLifecycle index originalSid
  | deliver react => exact (deliver_spec h hw).1

theorem Reached.steady (hw : Reached w) : Steady w := by
  induction hw with
  | start runtimeId count => exact .start runtimeId count
  | step _ input h ih => exact ih.step input h

/-- A run of which every turn is careful. -/
theorem Reached.run (inputs : List (VitaRuntime.Input sizes)) {w : VitaRuntime sizes} (hw : Reached w)
    (h : ∀ before input after, inputs = before ++ input :: after →
      Considerate (before.foldl VitaRuntime.step w) input) : Reached (inputs.foldl VitaRuntime.step w) := by
  induction inputs generalizing w with
  | nil => exact hw
  | cons input rest ih =>
    refine ih (hw.step input (h [] input rest rfl)) fun before input' after heq => ?_
    exact h (input :: before) input' after (by rw [heq]; rfl)

/-- Every call is made under the registration in force, with something that was not heard under it
before; in a turn in the order of the observations; and after a turn everything was heard as it is. -/
theorem observers_informed (hw : Reached w) :
    (∀ i : Fin sizes.records, inForce i w.log = (w.books i).registered) ∧ Valid w.log ∧
    ∀ react : VitaRuntime.Reaction sizes, Careful react w →
      (∀ j, Informed (w.deliver react) j) ∧ ∀ j : Fin sizes.records,
        ∃ es : List ℕ, es.Pairwise (· < ·) ∧
          entries j (w.deliver react).log = entries j w.log ++ es :=
  ⟨hw.steady.base.force, hw.steady.base.valid, fun react hreact =>
    ⟨(deliver_spec hreact hw.steady).2, deliver_entries react w⟩⟩

/-! ### A callback that registers another one -/

namespace Replaced

def small : Sizes where
  records := 1
  maxCancelBytes := 512
  relationships := 1

def slot : Fin small.records := ⟨0, by decide⟩

def identity : TransactionKey where
  bindingGeneration := 1
  peer := { peer := 2, generation := 1 }
  streamId := some 1

def request : PacketView where
  envelope := { envelope := { type := .command, streamId := some 1, command := some {} } }

def handle : TransactionHandle where
  controller := { slot := 0, generation := 1 }
  stream := 0
  runtimeId := 0

/-- A command is sent and observed. -/
def inputs : List (VitaRuntime.Input small) :=
  [.controllers (.registerRelationship identity 1 .generatorV1),
    .act (.command 0 0 0 { packet := request, timeoutNs := 1000000 }),
    .controllers (.localSend handle.controller true), .act (.observe handle 1 (some 1))]

def sent : VitaRuntime small := inputs.foldl VitaRuntime.step { runtimeId := 0, count := 1 }

/-- The callback registers another one for the same transaction. -/
def replace : VitaRuntime.Reaction small := fun _ _ => [.observe handle 2 (some 2)]

end Replaced

open Replaced in
/-- The other callback is registered, but it is called neither in this turn nor in the next. -/
theorem observers_miss :
    let w := sent.deliver replace
    let w' := w.deliver fun _ _ => []
    (w'.books slot).registered = some { generation := 1, context := 2, callback := 2 } ∧
    (w'.controllers.records slot).used = true ∧ (w'.controllers.records slot).generation = 1 ∧
    (w'.history slot).length = 1 ∧ heard 0 w.log = [] ∧ heard 0 w'.log = [] := by
  decide +kernel

namespace Passed

def two : Sizes where
  records := 2
  maxCancelBytes := 512
  relationships := 1

def later : TransactionHandle where
  controller := { slot := 1, generation := 1 }
  stream := 0
  runtimeId := 0

def second : Fin two.records := ⟨1, by decide⟩

/-- Two commands are sent, and the first one is observed. -/
def sentTwice : VitaRuntime two :=
  [VitaRuntime.Input.controllers (.registerRelationship Replaced.identity 1 .generatorV1),
    .act (.command 0 0 0 { packet := Replaced.request, timeoutNs := 1000000 }),
    .act (.command 0 0 0 { packet := Replaced.request, timeoutNs := 1000000 }),
    .controllers (.localSend Replaced.handle.controller true), .controllers (.localSend later.controller true),
    .act (.observe Replaced.handle 1 (some 1))].foldl VitaRuntime.step { runtimeId := 0, count := 1 }

/-- The callback of the first command registers one for the second command, fails to register one under a
handle of another runtime, and fails to cancel no fields at all. -/
def passOn : VitaRuntime.Reaction two := fun i _ =>
  if i.val = 0 then
    [.observe later 2 (some 2), .observe { Replaced.handle with runtimeId := 7 } 3 (some 3),
      .cancel Replaced.handle 0 0
        { packet := Replaced.request, timeoutNs := 1, sent := .refused (failure .invalidState) }]
  else []

end Passed

open Passed in
/-- The second callback is called in the turn in which it was registered. -/
theorem observers_informed_passOn :
    (turnTaken passOn sentTwice).length = 3 ∧
      ((sentTwice.deliver passOn).books second).registered = some { generation := 1, context := 2, callback := 2 } ∧
      (heard 1 (sentTwice.deliver passOn).log).length = 1 ∧ ∀ j, Informed (sentTwice.deliver passOn) j := by
  have hsent : Reached sentTwice := by
    refine Reached.run _ (.start 0 1) fun before input after heq => ?_
    have hmem : input ∈ before ++ input :: after := by simp
    rw [← heq] at hmem
    cases input with
    | deliver react => simp at hmem
    | _ => trivial
  have hcareful : Careful passOn sentTwice := by
    unfold Careful
    decide +kernel
  refine ⟨by decide +kernel, by decide +kernel, by decide +kernel, ?_⟩
  exact ((observers_informed hsent).2.2 passOn hcareful).1

end Vita.Runtime.Observers
