import Vita.Context.Publisher
import Vita.Context.RevisionTheorems
import Mathlib.Logic.Relation

/-!
# What a publisher can do

Every call of the publisher is a sequence of moves: a frame is sent, a group is accepted, a packet is
taken or sent, a slot of the store changes hands. A property of all runs is shown for one move at a
time.

Main lemmas:
- `Move`: the moves, each with all that is known when it is made;
- `step_moves`: a call is a sequence of moves;
- `Inv.moves`: the invariant that ties the held packets to their revisions.
-/

namespace Vita.Context.Publisher

open Checked Timing State Codec Transaction

/-! ## Moves -/

/-- The frame is made from the revision of a slot. -/
structure Framed (w : Publisher) (f : ContextFrame) (i : ℕ) : Prop where
  generation : f.associationGeneration = (w.store.slots i).event.associationGeneration
  timeKnown : f.timeKnown
  valid : f.valid → requiredKnown (w.store.slots i).event.state
  state : f.valid → ∃ x, f.state = withIndicators (w.store.slots i).event.state x

/-- The time of the frame is new, or it was sent with the same state. -/
def InOrder (w : Publisher) (f : ContextFrame) : Prop :=
  later f.time w ∨ ∃ s, w.contextHighwater = some f.time ∧ w.highwaterState = some s ∧ sameState f.state s

/-- The frame is handed to the transport. -/
def publish (c : PublisherConfig) (f : ContextFrame) (w : Publisher) : Publisher :=
  let sent := (sendContext c f w).2
  if (c.answer w.calls).isOk ∧ later f.time w then sent.raise f else sent

/-- A packet is offered that `submit` does not turn away. -/
structure Offered (c : PublisherConfig) (ok : Publisher → ℕ → Prop) (w : Publisher) (i : ℕ)
    (store : RevisionStore) : Prop where
  allowed : ok w i
  mem : i ∈ w.handles
  generation : (w.store.slots i).event.associationGeneration = w.store.generation
  known : requiredKnown (w.store.slots i).event.state
  note : w.store.noteDataDependency c.revisions i = .ok store

/-- The packet of the next submission. -/
def offer (w : Publisher) (i : ℕ) : Pending := { packet := w.submissions, revision := i }

/-- The packet is sent without being held. -/
def sendNow (c : PublisherConfig) (i : ℕ) (store : RevisionStore) (w : Publisher) : Publisher :=
  match sendData c (w.offer i) { w with store, submissions := w.submissions + 1 } with
  | (.ok _, w') => w'.emit (.submitted w.submissions)
  | (.error _, w') => w'

/-- A held packet is sent; it keeps its place when that fails. -/
def sendHeld (c : PublisherConfig) (visited : List (Option Pending)) (p : Pending)
    (rest : List (Option Pending)) (w : Publisher) : Publisher :=
  { (sendData c p w).2 with
    held := if (c.answer w.calls).isOk then visited ++ none :: rest else visited ++ some p :: rest }

/-- The time and state of the last frame, after a frame was handed over. -/
theorem publish_eq (c : PublisherConfig) (f : ContextFrame) (w : Publisher) :
    publish c f w = { w with
      calls := w.calls + 1, log := w.log ++ [.context f (c.answer w.calls).isOk]
      contextHighwater := (publish c f w).contextHighwater
      highwaterState := (publish c f w).highwaterState } := by
  unfold publish
  dsimp only
  split <;> rfl

theorem sendNow_eq (c : PublisherConfig) (i : ℕ) (store : RevisionStore) (w : Publisher) :
    sendNow c i store w = { w with
      store, submissions := w.submissions + 1, calls := w.calls + 1
      handles := if c.keeps w.calls then i :: w.handles else w.handles
      log := w.log ++ .data w.submissions (store.slots i).event (c.answer w.calls).isOk ::
        if (c.answer w.calls).isOk then [.submitted w.submissions] else [] } := by
  unfold sendNow sendData
  dsimp only [offer, emit]
  cases hanswer : c.answer w.calls <;> simp [Except.isOk, Except.toBool]

/-- What the publisher does in one move. `ok` is asked of every packet that is offered. -/
inductive Move (c : PublisherConfig) (ok : Publisher → ℕ → Prop) : Publisher → Publisher → Prop
  | tune {w : Publisher} (status : StreamStatus) (blockedSince : Option ℕ) (refreshAt : ℕ)
      (refreshStarted invalidSent startGate startingRun calibrated : Bool)
      (faultSnapshot : Option StateSnapshot) :
      Move c ok w { w with
        status, blockedSince, refreshAt, refreshStarted, invalidSent, startGate, startingRun, calibrated
        faultSnapshot }
  | fault {w : Publisher} : Move c ok w { w with store := { w.store with faulted := true } }
  | credit {w : Publisher} (returned : List AdmissionBundle) :
      Move c ok w { w with store := { w.store with returned } }
  | stop {w : Publisher} (status : StreamStatus) : Move c ok w (w.stop status)
  | keep {w : Publisher} {i : ℕ} (hlt : i < c.revisions) (hc : (w.store.slots i).committed) :
      Move c ok w { w with handles := i :: w.handles }
  | forget {w : Publisher} {handles : List ℕ} (hsub : handles ⊆ w.handles) :
      Move c ok w { w with handles }
  | collect {w : Publisher} : Move c ok w { w with store := w.store.collect c.revisions w.referenced }
  | reserve {w : Publisher} (count : ℕ) :
      Move c ok w { w with store := (w.store.reserve c.revisions w.referenced count).2 }
  | release {w : Publisher} (token : ℕ) :
      Move c ok w { w with store := w.store.release c.revisions token }
  | record {w : Publisher} (event : EffectiveEvent) (token : ℕ) (credits : AdmissionBundle) :
      Move c ok w { w with store := w.store.record c.revisions event token credits }
  | detach {w : Publisher} {generation : ℕ} {store : RevisionStore}
      (hdetach : w.store.detach c.revisions w.referenced generation = .ok store) :
      Move c ok w { { w with store }.stop .idle with contextHighwater := none, highwaterState := none }
  | refuse {w : Publisher} : Move c ok w { w with submissions := w.submissions + 1 }
  | note {w : Publisher} {i : ℕ} {store : RevisionStore} (h : Offered c ok w i store) :
      Move c ok w { w with store, submissions := w.submissions + 1 }
  | sendNow {w : Publisher} {i : ℕ} {store : RevisionStore} (h : Offered c ok w i store)
      (hgate : ¬w.startGate) (hacc : (w.store.slots i).publication = .accepted) :
      Move c ok w (sendNow c i store w)
  | hold {w : Publisher} {i : ℕ} {store : RevisionStore} (h : Offered c ok w i store)
      (hgate : w.startGate ∨ (w.store.slots i).publication ≠ .accepted)
      (hroom : w.packets.length ≠ c.heldCapacity) :
      Move c ok w { w with
        store, submissions := w.submissions + 1, held := hold (w.offer i) w.held
        log := w.log ++ [.submitted w.submissions] }
  | publish {w : Publisher} {f : ContextFrame} {i : ℕ}
      (hslot : w.store.current = some i ∨ i < c.revisions ∧ (w.store.slots i).waiting)
      (hframe : Framed w f i) (horder : InOrder w f) : Move c ok w (publish c f w)
  | accept {w : Publisher} {i : ℕ} {store : RevisionStore} (hfault : ¬w.store.faulted)
      (hgroup : w.store.publicationGroup c.revisions = .ok i)
      (haccept : w.store.acceptGroup c.revisions i = .ok store)
      (hsent : requiredKnown (w.store.slots (w.standsFor i)).event.state →
        ∃ f, .context f true ∈ w.log ∧ f.valid ∧ Framed w f (w.standsFor i)) :
      Move c ok w { w with store, superseded := w.superseded ++ outvoted c i w }
  | sendHeld {w : Publisher} {visited rest : List (Option Pending)} {p : Pending}
      (hheld : w.held = visited ++ some p :: rest)
      (hacc : (w.store.slots p.revision).publication = .accepted)
      (hvisited : ∀ q, some q ∈ visited → (w.store.slots q.revision).publication ≠ .accepted)
      (hwait : ∀ i < c.revisions, ¬(w.store.slots i).waiting) :
      Move c ok w (sendHeld c visited p rest w)

/-- A sequence of moves. -/
def Moves (c : PublisherConfig) (ok : Publisher → ℕ → Prop) : Publisher → Publisher → Prop :=
  Relation.ReflTransGen (Move c ok)

variable {c : PublisherConfig} {ok : Publisher → ℕ → Prop} {w w' : Publisher}

theorem Move.moves (h : Move c ok w w') : Moves c ok w w' := .single h

theorem Moves.refl : Moves c ok w w := Relation.ReflTransGen.refl

theorem Moves.trans {w'' : Publisher} (h : Moves c ok w w') (h' : Moves c ok w' w'') :
    Moves c ok w w'' := Relation.ReflTransGen.trans h h'

/-- What every move keeps is kept by a sequence of moves. -/
theorem Moves.invariant {P : Publisher → Prop} (hstep : ∀ w w', P w → Move c ok w w' → P w')
    (h : Moves c ok w w') (hw : P w) : P w' := by
  induction h with
  | refl => exact hw
  | tail _ hmove ih => exact hstep _ _ ih hmove

/-! ## Calls -/

theorem stop_moves (status : StreamStatus) : Moves c ok w (w.stop status) := (Move.stop status).moves

theorem start_moves (now : ℕ) : Moves c ok w (start c now w).2 := by
  unfold start
  split
  · exact .refl
  · split
    · exact .refl
    · exact (Move.tune ..).moves

theorem backendFault_moves (observed : StateSnapshot) : Moves c ok w (backendFault observed w) :=
  (Move.fault.moves.trans (Move.tune w.status w.blockedSince w.refreshAt w.refreshStarted w.invalidSent
    w.startGate w.startingRun w.calibrated (some observed)).moves).trans (stop_moves _)

theorem pause_moves : Moves c ok w (pause w) := by
  unfold pause
  split
  · split
    · exact .refl
    · split
      · exact (stop_moves .idle).trans (Move.tune ..).moves
      · exact .refl
  · exact .refl

theorem detach_moves (generation : ℕ) : Moves c ok w (detach c generation w).2 := by
  unfold detach
  split
  · exact .refl
  · next store hdetach => exact (Move.detach hdetach).moves.trans (Move.tune ..).moves

/-- A packet is turned away, sent, held, or there is no place for it. -/
theorem submit_moves {i : ℕ} (now : ℕ) (hmem : i ∈ w.handles) (hok : ok w i) :
    Moves c ok w (submit c i now w).2 := by
  unfold submit
  dsimp only
  split
  · exact Move.refuse.moves
  · next hcond =>
    simp only [not_or, not_not] at hcond
    split
    · exact Move.refuse.moves
    · next store hnote =>
      have hoffer : Offered c ok w i store := ⟨hok, hmem, hcond.2.1, hcond.2.2.2, hnote⟩
      have hpub : (store.slots i).publication = (w.store.slots i).publication := by
        rw [RevisionStore.noteDataDependency_slots hnote i]
      split
      · next hnow =>
        have hmove := (Move.sendNow hoffer hnow.1 (hpub ▸ hnow.2)).moves
        unfold sendNow at hmove
        unfold offer at hmove
        split <;> next heq => simpa only [heq] using hmove
      · next hheld =>
        rw [hpub] at hheld
        split
        · exact (Move.note hoffer).moves.trans
            ((Move.tune w.status (w.blockedSince.or (some now)) w.refreshAt w.refreshStarted
              w.invalidSent w.startGate w.startingRun w.calibrated w.faultSnapshot).moves.trans
                (stop_moves _))
        · next hroom =>
          have hgate : w.startGate ∨ (w.store.slots i).publication ≠ .accepted := by
            by_cases hg : w.startGate
            · exact .inl hg
            · exact .inr fun hacc => hheld ⟨hg, hacc⟩
          exact (Move.hold hoffer hgate hroom).moves.trans (Move.tune ..).moves

/-! ### Frames -/

theorem frame_framed {i : ℕ} (epoch : Tsi) {refresh : Bool} (now : ProtocolTime)
    (h : refresh ∨ (w.store.slots i).event.timeKnown) : Framed w (w.frame i epoch refresh now) i where
  generation := rfl
  timeKnown := by simpa [frame] using h
  valid hv := hv
  state _ := ⟨_, rfl⟩

/-- A frame without a conflict is in order. -/
theorem inOrder_of_not_conflicts {f : ContextFrame} (ht : f.timeKnown) (h : ¬conflicts f w) :
    InOrder w f := by
  by_cases hlater : later f.time w
  · exact .inl hlater
  · -- the time is that of the last frame, which had the same state
    simp only [later, decide_eq_true_eq, not_forall] at hlater
    obtain ⟨t, hmem, hnot⟩ := hlater
    simp only [conflicts, ht, true_and, decide_eq_true_eq, not_exists, not_and, not_or, not_forall,
      not_not] at h
    obtain ⟨hback, s, hs, hsame⟩ := h t hmem hnot
    rw [ProtocolTime.before_iff, not_lt] at hnot hback
    obtain rfl := le_antisymm hnot hback
    exact .inr ⟨s, hmem, hs, hsame⟩

theorem publish_moves {f : ContextFrame} {i : ℕ}
    (hslot : w.store.current = some i ∨ i < c.revisions ∧ (w.store.slots i).waiting)
    (hframe : Framed w f i) (horder : InOrder w f) : Moves c ok w (publish c f w) :=
  (Move.publish hslot hframe horder).moves

theorem openGate_moves (f : ContextFrame) (now : ProtocolTime) : Moves c ok w (openGate f now w) := by
  unfold openGate
  split
  · exact .refl
  · split
    · exact (Move.tune ..).moves
    · exact .refl

/-- The frame of a group comes from its revision, or from the present one when its time is unknown. -/
theorem groupFrame_eq_ok {epoch : Tsi} {now : ProtocolTime} {i : ℕ} {f : ContextFrame}
    (h : groupFrame epoch now i w = (.ok f, w')) (hlt : i < c.revisions)
    (hw : (w.store.slots i).waiting) : w' = w ∧
      (w.store.current = some (w.standsFor i) ∨
        w.standsFor i < c.revisions ∧ (w.store.slots (w.standsFor i)).waiting) ∧
      Framed w f (w.standsFor i) ∧
      (requiredKnown (w.store.slots (w.standsFor i)).event.state → f.valid) := by
  unfold groupFrame at h
  dsimp only at h
  split at h
  · next ht =>
    obtain ⟨hf, rfl⟩ := Prod.mk.inj h
    obtain rfl := Except.ok.inj hf
    have hknown : (w.store.slots i).event.timeKnown := by simpa [frame] using ht
    have hself : w.standsFor i = i := if_pos hknown
    rw [hself]
    exact ⟨rfl, .inr ⟨hlt, hw⟩, frame_framed epoch {} (.inr hknown), fun hk => hk⟩
  · next ht =>
    have hunknown : ¬(w.store.slots i).event.timeKnown := by simpa [frame] using ht
    split at h
    · exact absurd (congrArg Prod.fst h) (by simp)
    · split at h
      · exact absurd (congrArg Prod.fst h) (by simp)
      · next latest hcurrent =>
        obtain ⟨hf, rfl⟩ := Prod.mk.inj h
        obtain rfl := Except.ok.inj hf
        have hlatest : w.standsFor i = latest := by
          rw [standsFor, if_neg hunknown, hcurrent]
          rfl
        obtain ⟨hg, ht, hv, hs⟩ : Framed w (w.frame latest epoch true now) latest :=
          frame_framed epoch now (.inl rfl)
        rw [hlatest]
        exact ⟨rfl, .inl hcurrent, ⟨hg, ht, hv, hs⟩, fun hk => hk⟩

theorem groupFrame_moves (epoch : Tsi) (now : ProtocolTime) (i : ℕ) :
    Moves c ok w (groupFrame epoch now i w).2 := by
  unfold groupFrame
  dsimp only
  split
  · exact .refl
  · split
    · exact stop_moves _
    · split <;> exact .refl

theorem publish_of_error {f : ContextFrame} {e : Error} (h : sendContext c f w = (.error e, w')) :
    publish c f w = w' := by
  have hanswer : c.answer w.calls = .error e := congrArg Prod.fst h
  unfold publish
  rw [if_neg (by simp [hanswer, Except.isOk, Except.toBool]), h]

/-- A frame that was sent raises the times and stands in the log. -/
theorem publish_of_ok {f : ContextFrame} {u : Unit} (h : sendContext c f w = (.ok u, w')) :
    publish c f w = (if later f.time w' then w'.raise f else w') ∧
      (publish c f w).store = w.store ∧ .context f true ∈ (publish c f w).log := by
  have hok : (c.answer w.calls).isOk = true := by
    rw [show c.answer w.calls = .ok u from congrArg Prod.fst h]
    rfl
  have hlog : w'.log = w.log ++ [.context f true] := by
    rw [← hok]
    exact congrArg (fun x => x.2.log) h.symm
  have hstore : w'.store = w.store := congrArg (fun x => x.2.store) h.symm
  have hlater : later f.time w' = later f.time w := congrArg (fun x => later f.time x.2) h.symm
  have hpub : publish c f w = if later f.time w' then w'.raise f else w' := by
    unfold publish
    simp only [hok, true_and, hlater, h]
  refine ⟨hpub, ?_, ?_⟩ <;> rw [hpub] <;> split <;> simp [raise, hstore, hlog]

/-- The group of a revision is published and accepted. -/
theorem publishGroup_moves {now : ℕ} {protocolNow : ProtocolTime} {epoch : Tsi} {i : ℕ}
    {r : Result Unit} (hfault : ¬w.store.faulted) (hgroup : w.store.publicationGroup c.revisions = .ok i)
    (h : publishGroup c now protocolNow epoch i w = (r, w')) :
    Moves c ok w w' ∧ ∀ u, r = .ok u → w.store.acceptGroup c.revisions i = .ok w'.store := by
  obtain ⟨hlt, hwait, -⟩ := RevisionStore.publicationGroup_eq_ok hgroup
  have htune : Moves c ok w { w with blockedSince := w.blockedSince.or (some now) } :=
    (Move.tune ..).moves
  unfold publishGroup at h
  dsimp only at h
  split at h
  · next w₁ hframe =>
    obtain ⟨rfl, rfl⟩ := Prod.mk.inj h
    have hmoves := htune.trans (groupFrame_moves epoch protocolNow i)
    rw [hframe] at hmoves
    exact ⟨hmoves, fun u hu => absurd hu (by simp)⟩
  · next f w₁ hframe =>
    obtain ⟨rfl, hk, hframed, hvalid⟩ := groupFrame_eq_ok hframe hlt hwait
    split at h
    · obtain ⟨rfl, rfl⟩ := Prod.mk.inj h
      exact ⟨htune.trans (stop_moves _), fun u hu => absurd hu (by simp)⟩
    · next hconf =>
      have horder := inOrder_of_not_conflicts hframed.timeKnown hconf
      have hpub := htune.trans (publish_moves hk hframed horder)
      split at h
      · next e w₂ hsend =>
        obtain ⟨rfl, rfl⟩ := Prod.mk.inj h
        rw [publish_of_error hsend] at hpub
        exact ⟨hpub, fun u hu => absurd hu (by simp)⟩
      · next u w₂ hsend =>
        obtain ⟨heq, hstore, hlog⟩ := publish_of_ok hsend
        simp only [hframed.timeKnown, true_and, ← heq] at h
        generalize publish c f _ = w₃ at h hpub hstore hlog
        split at h
        · obtain ⟨rfl, rfl⟩ := Prod.mk.inj h
          exact ⟨hpub, fun u hu => absurd hu (by simp)⟩
        · next store haccept =>
          obtain ⟨rfl, rfl⟩ := Prod.mk.inj h
          have hstand : w₃.standsFor i = w.standsFor i := by
            simp only [standsFor, hstore]
          have hmove : Move c ok w₃ { w₃ with store, superseded := w₃.superseded ++ outvoted c i w₃ } := by
            refine .accept ?_ ?_ haccept fun hreq => ?_
            · rw [hstore]
              exact hfault
            · rw [hstore]
              exact hgroup
            · rw [hstore, hstand] at hreq
              obtain ⟨hg, ht, hv, hs⟩ := hframed
              rw [hstand]
              exact ⟨f, hlog, hvalid hreq, ⟨by rw [hstore]; exact hg, ht, by rw [hstore]; exact hv,
                by rw [hstore]; exact hs⟩⟩
          refine ⟨hpub.trans (hmove.moves.trans ((Move.tune w₃.status w₃.blockedSince now true
            w₃.invalidSent w₃.startGate w₃.startingRun w₃.calibrated w₃.faultSnapshot).moves.trans
              (openGate_moves ..))), fun u _ => ?_⟩
          rw [hstore] at haccept
          rw [haccept]
          unfold openGate
          split
          · rfl
          · split <;> rfl

/-- After the groups have been published without an error nothing waits. -/
theorem publishGroups_moves {now : ℕ} {protocolNow : ProtocolTime} {epoch : Tsi} {k : ℕ} {r : Result Unit}
    (hfault : ¬w.store.faulted) (h : publishGroups c now protocolNow epoch k w = (r, w')) :
    Moves c ok w w' ∧ (∀ u, r = .ok u →
      (List.range c.revisions).countP (fun i => (w.store.slots i).waiting) ≤ k →
        ∀ i < c.revisions, ¬(w'.store.slots i).waiting) := by
  induction k generalizing w with
  | zero =>
    obtain ⟨rfl, rfl⟩ := Prod.mk.inj h
    refine ⟨.refl, fun u _ hcount i hi => ?_⟩
    have hzero := Nat.le_zero.mp hcount
    rw [List.countP_eq_zero] at hzero
    exact hzero i (List.mem_range.mpr hi)
  | succ k ih =>
    simp only [publishGroups] at h
    split at h
    · next e hgroup =>
      split at h
      · obtain ⟨rfl, rfl⟩ := Prod.mk.inj h
        exact ⟨stop_moves _, fun u hu => absurd hu (by simp)⟩
      · next hcode =>
        obtain ⟨rfl, rfl⟩ := Prod.mk.inj h
        exact ⟨.refl, fun u _ _ => RevisionStore.publicationGroup_error hgroup hcode⟩
    · next i hgroup =>
      obtain ⟨hlt, hwait, -⟩ := RevisionStore.publicationGroup_eq_ok hgroup
      split at h
      · next e w₁ hpub =>
        obtain ⟨rfl, rfl⟩ := Prod.mk.inj h
        exact ⟨(publishGroup_moves hfault hgroup hpub).1, fun u hu => absurd hu (by simp)⟩
      · next u w₁ hpub =>
        obtain ⟨hmoves, haccept⟩ : Moves c ok w w₁ ∧ _ := publishGroup_moves hfault hgroup hpub
        have hfault₁ : ¬w₁.store.faulted := by
          obtain ⟨-, -, -, heq⟩ := RevisionStore.acceptGroup_eq_ok (haccept u rfl)
          rw [heq]
          exact hfault
        obtain ⟨hrest, hnone⟩ := ih hfault₁ h
        refine ⟨hmoves.trans hrest, fun u' hu' hcount => hnone u' hu' ?_⟩
        have hless := RevisionStore.waiting_acceptGroup (haccept u rfl) hlt hwait
        omega

/-! ### The rest of a round -/

theorem publish_of_later {f : ContextFrame} {u : Unit} (hlater : later f.time w)
    (h : sendContext c f w = (.ok u, w')) : publish c f w = w'.raise f := by
  obtain ⟨heq, -, -⟩ := publish_of_ok h
  have hlater' : later f.time w' = later f.time w := congrArg (fun x => later f.time x.2) h.symm
  rw [heq, if_pos (hlater'.trans hlater)]

/-- The first frame of a stream is sent when nothing later was. -/
theorem publishStart_moves {now : ℕ} {protocolNow : ProtocolTime} {epoch : Tsi} {r : Result Unit}
    (h : publishStart c now protocolNow epoch w = (r, w')) :
    Moves c ok w w' ∧ (∀ u, r = .ok u → w'.store = w.store) := by
  unfold publishStart at h
  split at h
  · obtain ⟨rfl, rfl⟩ := Prod.mk.inj h
    exact ⟨.refl, fun _ _ => rfl⟩
  · split at h
    · obtain ⟨rfl, rfl⟩ := Prod.mk.inj h
      exact ⟨.refl, fun _ _ => rfl⟩
    · next latest hcurrent =>
      split at h
      · obtain ⟨rfl, rfl⟩ := Prod.mk.inj h
        exact ⟨stop_moves _, fun _ _ => rfl⟩
      · next hlater =>
        rw [not_not] at hlater
        obtain ⟨hg, ht, hv, hs⟩ : Framed w (w.frame latest epoch true protocolNow) latest :=
          frame_framed epoch protocolNow (.inl rfl)
        have hpub : Moves c ok w (publish c
            { w.frame latest epoch true protocolNow with change := true, observation := true } w) :=
          publish_moves (.inl hcurrent) ⟨hg, ht, hv, hs⟩ (.inl hlater)
        dsimp only at h
        split at h
        · next e w₁ hsend =>
          obtain ⟨rfl, rfl⟩ := Prod.mk.inj h
          rw [publish_of_error hsend] at hpub
          exact ⟨hpub, fun u hu => absurd hu (by simp)⟩
        · next u w₁ hsend =>
          obtain ⟨rfl, rfl⟩ := Prod.mk.inj h
          rw [publish_of_later hlater hsend] at hpub
          exact ⟨hpub.trans (Move.tune ..).moves, fun _ _ => congrArg (fun x => x.2.store) hsend.symm⟩

/-- The held packets are sent in the order of their places. -/
theorem drain_moves {v l : List (Option Pending)}
    (hwait : ∀ i < c.revisions, ¬(w.store.slots i).waiting)
    (hvisited : ∀ q, some q ∈ v → (w.store.slots q.revision).publication ≠ .accepted) :
    Moves c ok { w with held := v ++ l } (drain c v l w).2 := by
  induction l generalizing v w with
  | nil =>
    rw [List.append_nil]
    exact .refl
  | cons x l ih =>
    cases x with
    | none =>
      have hmoves := ih (v := v ++ [none]) hwait fun q hq => hvisited q (by simpa using hq)
      rw [List.append_assoc] at hmoves
      exact hmoves
    | some p =>
      simp only [drain]
      split
      · next hacc =>
        have hmove : Move c ok { w with held := v ++ some p :: l }
            (sendHeld c v p l { w with held := v ++ some p :: l }) :=
          .sendHeld rfl hacc hvisited hwait
        unfold sendHeld at hmove
        split
        · next u w₁ hsend =>
          have hanswer : c.answer w.calls = .ok u := congrArg Prod.fst hsend
          have hw₁ : w₁.store = w.store := congrArg (fun x => x.2.store) hsend.symm
          simp only [hanswer, Except.isOk, Except.toBool, if_true] at hmove
          have hmoves := ih (v := v ++ [none]) (w := w₁) (by rw [hw₁]; exact hwait)
            fun q hq => by
              rw [hw₁]
              exact hvisited q (by simpa using hq)
          rw [List.append_assoc] at hmoves
          refine Moves.trans ?_ hmoves
          have hsnd : w₁ = (sendData c p w).2 := congrArg Prod.snd hsend.symm
          rw [hsnd]
          exact hmove.moves
        · next e w₁ hsend =>
          have hanswer : c.answer w.calls = .error e := congrArg Prod.fst hsend
          simp only [hanswer, Except.isOk, Except.toBool, Bool.false_eq_true, if_false] at hmove
          have hsnd : w₁ = (sendData c p w).2 := congrArg Prod.snd hsend.symm
          rw [hsnd]
          exact hmove.moves
      · next hacc =>
        have hmoves := ih (v := v ++ [some p]) hwait fun q hq => by
          rcases List.mem_append.mp hq with hq | hq
          · exact hvisited q hq
          · obtain rfl := Option.some.inj (List.mem_singleton.mp hq)
            exact hacc
        rw [List.append_assoc] at hmoves
        exact hmoves

/-- A refresh is a publication of the current metadata. -/
theorem publishRefresh_moves {now : ℕ} {protocolNow : ProtocolTime} {epoch : Tsi} {r : Result Unit}
    (h : publishRefresh c now protocolNow epoch w = (r, w')) : Moves c ok w w' := by
  unfold publishRefresh at h
  split at h
  · obtain ⟨rfl, rfl⟩ := Prod.mk.inj h
    exact .refl
  · split at h
    · obtain ⟨rfl, rfl⟩ := Prod.mk.inj h
      exact stop_moves _
    · next hlater =>
      rw [not_not] at hlater
      split at h
      · obtain ⟨rfl, rfl⟩ := Prod.mk.inj h
        exact .refl
      · next latest hcurrent =>
        have hpub : Moves c ok w (publish c (w.frame latest epoch true protocolNow) w) :=
          publish_moves (.inl hcurrent) (frame_framed epoch protocolNow (.inl rfl)) (.inl hlater)
        dsimp only at h
        split at h
        · next e w₁ hsend =>
          obtain ⟨rfl, rfl⟩ := Prod.mk.inj h
          rw [publish_of_error hsend] at hpub
          exact hpub.trans (Move.tune ..).moves
        · next u w₁ hsend =>
          obtain ⟨rfl, rfl⟩ := Prod.mk.inj h
          rw [publish_of_later hlater hsend] at hpub
          exact hpub.trans (Move.tune ..).moves

/-- A notice of invalid metadata is one publication at most. -/
theorem publishInvalid_moves (protocolNow : ProtocolTime) (epoch : Tsi) (usable : Bool) :
    Moves c ok w (publishInvalid c protocolNow epoch usable w).2 := by
  unfold publishInvalid
  split
  · exact .refl
  · split
    · exact .refl
    · next hlater =>
      rw [not_not] at hlater
      split
      · exact .refl
      · next latest hcurrent =>
        have hframed : Framed w (w.invalidFrame latest epoch protocolNow) latest :=
          ⟨rfl, rfl, fun hv => absurd hv (by simp [invalidFrame]),
            fun hv => absurd hv (by simp [invalidFrame])⟩
        have hpub : Moves c ok w (publish c (w.invalidFrame latest epoch protocolNow) w) :=
          publish_moves (.inl hcurrent) hframed (.inl hlater)
        dsimp only
        split
        · next e w₁ hsend =>
          rw [publish_of_error hsend] at hpub
          exact hpub
        · next u w₁ hsend =>
          rw [publish_of_later hlater hsend] at hpub
          exact hpub.trans (Move.tune ..).moves

/-- A turn with an association publishes what waits, or a refresh. -/
theorem progressActive_moves (now : ℕ) (protocolNow : ProtocolTime) (epoch : Tsi)
    (hfault : ¬w.store.faulted) : Moves c ok w (progressActive c now protocolNow epoch w).2 := by
  unfold progressActive
  split
  · next e w₁ hgroups => exact (publishGroups_moves hfault hgroups).1
  · next u w₁ hgroups =>
    obtain ⟨hmoves₁, hnone⟩ : Moves c ok w w₁ ∧ _ := publishGroups_moves hfault hgroups
    have hwait := hnone u rfl (List.countP_le_length.trans (List.length_range (n := c.revisions)).le)
    split
    · next e w₂ hstart => exact hmoves₁.trans (publishStart_moves hstart).1
    · next u₂ w₂ hstart =>
      obtain ⟨hmoves₂, hstore⟩ : Moves c ok w₁ w₂ ∧ _ := publishStart_moves hstart
      rw [← hstore u₂ rfl] at hwait
      have hdrain : Moves c ok w₂ (drain c [] w₂.held w₂).2 :=
        drain_moves (v := []) (l := w₂.held) hwait (by simp)
      have hmoves₃ := (hmoves₁.trans hmoves₂).trans hdrain
      split
      · next e w₃ heq =>
        rw [heq] at hmoves₃
        exact hmoves₃
      · next u₃ w₃ heq =>
        rw [heq] at hmoves₃
        split
        · next e w₄ hrefresh => exact hmoves₃.trans (publishRefresh_moves hrefresh)
        · next u₄ w₄ hrefresh =>
          refine hmoves₃.trans ((publishRefresh_moves hrefresh).trans ?_)
          exact Move.collect.moves.trans (Move.tune ..).moves

/-- A turn is a sequence of moves. -/
theorem progress_moves (now : ℕ) (protocolNow : ProtocolTime) (epoch : Tsi) (usable calibrated : Bool) :
    Moves c ok w (progress c now protocolNow epoch usable calibrated w).2 := by
  have htune : Moves c ok w { w with calibrated := calibrated && usable } := (Move.tune ..).moves
  unfold progress
  dsimp only
  split
  · exact htune
  · split
    · exact htune
    · -- a stream whose state is not known any more is stopped
      generalize hw₂ : (if w.store.faulted ∧ w.status = .active then
        { w with calibrated := calibrated && usable }.stop .metadataUnknown
          else { w with calibrated := calibrated && usable }) = w₂
      have hstop : Moves c ok w w₂ := by
        rw [← hw₂]
        split
        · exact htune.trans (stop_moves _)
        · exact htune
      have hfault : w₂.status = .active → ¬w₂.store.faulted := by
        rw [← hw₂]
        split
        · exact fun h => absurd h (by simp [stop])
        · next hcond => exact fun h hf => hcond ⟨hf, h⟩
      split
      · exact hstop.trans (publishInvalid_moves ..)
      · split
        · exact hstop
        · next hactive =>
          split
          · exact hstop.trans (stop_moves _)
          · exact hstop.trans (progressActive_moves _ _ _ (hfault (not_not.mp (not_or.mp hactive).2)))

/-! ## The invariant -/

/-- Whoever is referred to has a slot, and the revisions of held packets are known to be needed. -/
structure Inv (c : PublisherConfig) (w : Publisher) : Prop where
  sound : w.store.Sound c.revisions fun i => w.referenced i
  held : ∀ p ∈ w.packets, w.store.Live p.revision ∧ (w.store.slots p.revision).dataDependency
  capacity : w.held.length = c.heldCapacity

theorem mem_packets {p : Pending} : p ∈ w.packets ↔ some p ∈ w.held := by
  simp [packets]

theorem referenced_of_mem_packets {p : Pending} (h : p ∈ w.packets) : w.referenced p.revision := by
  simp only [referenced, decide_eq_true_eq]
  exact .inr ⟨p, h, rfl⟩

@[simp] theorem packets_stop (status : StreamStatus) : (w.stop status).packets = [] := by
  simp [packets, stop]

theorem hold_length (p : Pending) (l : List (Option Pending)) : (hold p l).length = l.length := by
  induction l with
  | nil => rfl
  | cons x l ih =>
    cases x with
    | none => rfl
    | some q => simp [hold, ih]

/-- A frame that is held back takes one place, the others stay. -/
theorem mem_hold {p q : Pending} {l : List (Option Pending)} (h : some q ∈ hold p l) :
    q = p ∨ some q ∈ l := by
  induction l with
  | nil => exact .inr h
  | cons x l ih =>
    cases x with
    | none =>
      rcases List.mem_cons.mp h with h | h
      · exact .inl (Option.some.inj h)
      · exact .inr (List.mem_cons_of_mem _ h)
    | some r =>
      rcases List.mem_cons.mp h with h | h
      · exact .inr (h ▸ List.mem_cons_self)
      · exact (ih h).imp_right (List.mem_cons_of_mem _)

/-- A store that keeps the slots referred to. -/
theorem Inv.of_store {store : RevisionStore} (h : Inv c w)
    (hsound : store.Sound c.revisions fun i => w.referenced i)
    (hslots : ∀ p ∈ w.packets, store.slots p.revision = w.store.slots p.revision) :
    Inv c { w with store } where
  sound := hsound
  held p hp := by
    have hlive := h.held p hp
    unfold RevisionStore.Live at hlive ⊢
    rw [hslots p hp]
    exact hlive
  capacity := h.capacity

/-- Fewer references. -/
theorem Inv.of_fewer (h : Inv c w) (hstore : w'.store = w.store) (hsub : ∀ p ∈ w'.packets, p ∈ w.packets)
    (hlen : w'.held.length = w.held.length)
    (href : ∀ i ∈ w'.handles, w.referenced i ∨ i < c.revisions ∧ (w.store.slots i).committed) :
    Inv c w' where
  sound := by
    rw [hstore]
    refine h.sound.of_refers fun i hi => ?_
    simp only [referenced, decide_eq_true_eq] at hi
    rcases hi with hi | ⟨p, hp, rfl⟩
    · rcases href i hi with hi | hi
      · exact h.sound.referred i hi
      · exact hi
    · exact h.sound.referred _ (referenced_of_mem_packets (hsub p hp))
  held p hp := by
    rw [hstore]
    exact h.held p (hsub p hp)
  capacity := hlen.trans h.capacity

theorem referenced_of_mem_handles {i : ℕ} (hi : i ∈ w.handles) : w.referenced i := by
  simp only [referenced, decide_eq_true_eq]
  exact .inl hi

/-- A submission marks its revision and may add a reference to it. -/
theorem Inv.of_note {i : ℕ} {store : RevisionStore} (h : Inv c w) (hoffer : Offered c ok w i store) :
    Inv c { w with store } := by
  refine ⟨h.sound.note hoffer.note, fun p hp => ?_, h.capacity⟩
  have hlive := h.held p hp
  unfold RevisionStore.Live at hlive ⊢
  dsimp only
  rw [RevisionStore.noteDataDependency_slots hoffer.note]
  exact ⟨hlive.1, by simp [hlive.2]⟩

theorem Offered.slot {i : ℕ} {store : RevisionStore} (hoffer : Offered c ok w i store) :
    i < c.revisions ∧ w.store.Live i ∧ store.slots i = { w.store.slots i with dataDependency := true } := by
  obtain ⟨⟨hlt, hlive⟩, rfl⟩ := RevisionStore.noteDataDependency_eq_ok.mp hoffer.note
  exact ⟨hlt, hlive, by simp [RevisionStore.setSlot]⟩

/-- Every move keeps the invariant. -/
theorem Inv.move (h : Inv c w) (hmove : Move c ok w w') : Inv c w' := by
  cases hmove with
  | tune => exact ⟨h.sound, h.held, h.capacity⟩
  | fault => exact ⟨h.sound.fault, h.held, h.capacity⟩
  | credit returned =>
    obtain ⟨h₁, h₂, h₃, h₄, h₅, h₆, h₇, h₈, h₉⟩ := h.sound
    exact ⟨⟨h₁, h₂, h₃, h₄, h₅, h₆, h₇, h₈, h₉⟩, h.held, h.capacity⟩
  | stop status =>
    exact h.of_fewer rfl (fun p hp => by simp at hp) (by simp [stop])
      fun i hi => .inl (referenced_of_mem_handles hi)
  | keep hlt hc =>
    refine h.of_fewer rfl (fun p hp => hp) rfl fun i hi => ?_
    rcases List.mem_cons.mp hi with rfl | hi
    · exact .inr ⟨hlt, hc⟩
    · exact .inl (referenced_of_mem_handles hi)
  | forget hsub =>
    exact h.of_fewer rfl (fun p hp => hp) rfl fun i hi => .inl (referenced_of_mem_handles (hsub hi))
  | collect =>
    exact h.of_store (h.sound.collect fun i hi => hi) fun p hp =>
      RevisionStore.collect_slot_of_referenced (referenced_of_mem_packets hp)
  | reserve count =>
    obtain ⟨⟨-, hsound⟩, hslots⟩ := RevisionStore.reserve_spec h.sound (fun i hi => hi) count
    exact h.of_store hsound fun p hp =>
      hslots _ (hsound.referred _ (referenced_of_mem_packets hp)).2
  | release token =>
    have hsound := h.sound.release token
    exact h.of_store hsound fun p hp =>
      RevisionStore.release_slot_of_committed (hsound.referred _ (referenced_of_mem_packets hp)).2
  | record event token credits =>
    refine h.of_store (h.sound.record event token credits) fun p hp => ?_
    rcases RevisionStore.record_slot (n := c.revisions) event token credits w.store p.revision with
      heq | ⟨hfree, -⟩
    · exact heq
    · exact absurd (h.held p hp).1.1 hfree
  | detach hdetach =>
    obtain ⟨hsound, -, -, -⟩ := RevisionStore.detach_spec h.sound (fun i hi => hi) hdetach
    refine ⟨hsound.of_refers fun i hi => ?_, fun p hp => ?_, ?_⟩
    · simp only [referenced, decide_eq_true_eq] at hi
      rcases hi with hi | ⟨p, hp, -⟩
      · exact hsound.referred i (referenced_of_mem_handles hi)
      · exact absurd hp (by simp [packets, stop])
    · exact absurd hp (by simp [packets, stop])
    · simpa [stop] using h.capacity
  | refuse => exact ⟨h.sound, h.held, h.capacity⟩
  | note hoffer =>
    have hnote := h.of_note hoffer
    exact ⟨hnote.sound, hnote.held, hnote.capacity⟩
  | sendNow hoffer =>
    obtain ⟨hlt, hlive, hslot⟩ := hoffer.slot
    have hnote := h.of_note hoffer
    rw [sendNow_eq]
    refine hnote.of_fewer rfl (fun p hp => hp) rfl fun k hk => ?_
    dsimp only at hk
    split at hk
    · rcases List.mem_cons.mp hk with rfl | hk
      · exact .inr ⟨hlt, by rw [hslot]; exact hlive.1⟩
      · exact .inl (referenced_of_mem_handles hk)
    · exact .inl (referenced_of_mem_handles hk)
  | @hold i store hoffer _ _ =>
    obtain ⟨hlt, hlive, hslot⟩ := hoffer.slot
    have hnote := h.of_note hoffer
    have hnew : store.Live i ∧ (store.slots i).dataDependency := by
      unfold RevisionStore.Live at hlive ⊢
      rw [hslot]
      exact ⟨hlive, rfl⟩
    have hmem : ∀ p ∈ (hold (w.offer i) w.held).filterMap id, p = w.offer i ∨ p ∈ w.packets := by
      intro p hp
      refine (mem_hold (q := p) (by simpa using hp)).imp_right fun hp' => ?_
      exact mem_packets.mpr hp'
    refine ⟨hnote.sound.of_refers fun k hk => ?_, fun p hp => ?_, ?_⟩
    · simp only [referenced, decide_eq_true_eq] at hk
      rcases hk with hk | ⟨p, hp, rfl⟩
      · exact hnote.sound.referred k (referenced_of_mem_handles hk)
      · rcases hmem p hp with rfl | hp
        · exact ⟨hlt, hnew.1.1⟩
        · exact hnote.sound.referred _ (referenced_of_mem_packets hp)
    · rcases hmem p hp with rfl | hp
      · exact hnew
      · exact hnote.held p hp
    · exact (hold_length ..).trans h.capacity
  | publish =>
    rw [publish_eq]
    exact ⟨h.sound, h.held, h.capacity⟩
  | accept _ _ haccept =>
    refine ⟨RevisionStore.Sound.accept haccept h.sound, fun p hp => ?_, h.capacity⟩
    have hlive := h.held p hp
    unfold RevisionStore.Live at hlive ⊢
    dsimp only
    rw [RevisionStore.acceptGroup_slot haccept]
    exact hlive
  | @sendHeld visited rest p hheld _ _ _ =>
    have hp : p ∈ w.packets := mem_packets.mpr (by rw [hheld]; simp)
    refine h.of_fewer rfl (fun q hq => ?_) ?_ fun k hk => ?_
    · rw [mem_packets] at hq ⊢
      rw [hheld]
      simp only [sendHeld] at hq
      split at hq
      · simp only [List.mem_append, List.mem_cons, reduceCtorEq, false_or] at hq ⊢
        exact hq.imp_right .inr
      · exact hq
    · rw [hheld]
      simp only [sendHeld]
      split <;> simp
    · simp only [sendHeld, sendData] at hk
      split at hk
      · rcases List.mem_cons.mp hk with rfl | hk
        · exact .inl (referenced_of_mem_packets hp)
        · exact .inl (referenced_of_mem_handles hk)
      · exact .inl (referenced_of_mem_handles hk)

theorem Inv.moves (h : Inv c w) (hmoves : Moves c ok w w') : Inv c w' :=
  hmoves.invariant (fun _ _ hinv hmove => hinv.move hmove) h

/-- A new publisher is in order. -/
theorem inv_initial (generation : ℕ) : Inv c (initial c generation) where
  sound := {
    current := by simp [initial]
    occupied := by simp [initial]
    reserved := by simp [initial]
    generation := by simp [initial, RevisionStore.Live]
    below := by simp [initial]
    distinct := by simp [initial]
    known := by simp [initial, RevisionStore.Live]
    unfailed := by simp [initial]
    referred := by simp [initial, referenced, packets] }
  held := by simp [initial, packets]
  capacity := by simp [initial]

/-! ## Runs -/

/-- What is asked of a call: `ok`, when it submits a packet. -/
def Allowed (ok : Publisher → ℕ → Prop) (w : Publisher) : Input → Prop
  | .submit i _ => i ∈ w.handles → ok w i
  | _ => True

instance [∀ w i, Decidable (ok w i)] : ∀ input, Decidable (Allowed ok w input)
  | .submit i _ => inferInstanceAs (Decidable (i ∈ w.handles → ok w i))
  | .start _ | .backendFault _ | .temporalFault | .progress .. | .pause | .detach _ | .reserve _
  | .release _ | .record .. | .initial .. | .current | .copy _ | .drop _ => .isTrue trivial

/-- A call is a sequence of moves. -/
theorem step_moves (h : Inv c w) {input : Input} (hok : Allowed ok w input) :
    Moves c ok w (step c w input) := by
  cases input with
  | start now => exact start_moves now
  | backendFault observed => exact backendFault_moves observed
  | temporalFault => exact stop_moves _
  | submit i now =>
    simp only [step]
    split
    · next hmem => exact submit_moves now hmem (hok hmem)
    · exact .refl
  | progress now protocolNow epoch usable calibrated => exact progress_moves ..
  | pause => exact pause_moves
  | detach generation => exact detach_moves generation
  | reserve count => exact (Move.reserve count).moves
  | release token => exact (Move.release token).moves
  | record event token credits => exact (Move.record event token credits).moves
  | initial event credits =>
    simp only [step]
    have hreserve : Moves c ok w { w with store := (w.store.reserve c.revisions w.referenced 1).2 } :=
      (Move.reserve 1).moves
    split
    · next i store heq =>
      rcases RevisionStore.initial_cases _ _ _ _ heq with
        ⟨e, returned, hr, -⟩ | ⟨e, returned, hr, -⟩ | ⟨token, rfl, hcurrent⟩
      · exact absurd hr (by simp)
      · exact absurd hr (by simp)
      · have hrecord := hreserve.trans (Move.record event token credits).moves
        obtain ⟨hlt, hlive⟩ := (h.moves hrecord).sound.current i (hcurrent i rfl)
        exact hrecord.trans (Move.keep hlt hlive.1).moves
    · next e store heq =>
      rcases RevisionStore.initial_cases _ _ _ _ heq with
        ⟨e, returned, -, rfl⟩ | ⟨e, returned, -, rfl⟩ | ⟨token, rfl, -⟩
      · exact (Move.credit returned).moves
      · exact hreserve.trans (Move.credit returned).moves
      · exact hreserve.trans (Move.record event token credits).moves
  | current =>
    simp only [step]
    split
    · exact .refl
    · next i hcurrent =>
      obtain ⟨hlt, hlive⟩ := h.sound.current i hcurrent
      exact (Move.keep hlt hlive.1).moves
  | copy i =>
    simp only [step]
    split
    · next hmem =>
      obtain ⟨hlt, hc⟩ := h.sound.referred i (referenced_of_mem_handles hmem)
      exact (Move.keep hlt hc).moves
    · exact .refl
  | drop i => exact (Move.forget List.erase_subset).moves

/-- Every call of a run meets its condition. -/
def Meets (c : PublisherConfig) (ok : Publisher → ℕ → Prop) : Publisher → List Input → Prop
  | _, [] => True
  | w, input :: rest => Allowed ok w input ∧ Meets c ok (step c w input) rest

instance decidableMeets [∀ w i, Decidable (ok w i)] : ∀ w inputs, Decidable (Meets c ok w inputs)
  | _, [] => .isTrue trivial
  | w, input :: rest =>
    have := decidableMeets (step c w input) rest
    inferInstanceAs (Decidable (Allowed ok w input ∧ Meets c ok (step c w input) rest))

/-- What holds at the start and is kept by every move holds in every run. -/
theorem run_invariant {P : Publisher → Prop} {inputs : List Input} (h : Inv c w) (hw : P w)
    (hmeets : Meets c ok w inputs) (hstep : ∀ w w', Inv c w → P w → Move c ok w w' → P w') :
    P (run c w inputs) := by
  induction inputs generalizing w with
  | nil => exact hw
  | cons input rest ih =>
    obtain ⟨hok, hrest⟩ := hmeets
    have hmoves := step_moves h hok
    have hkeep : Inv c (step c w input) ∧ P (step c w input) :=
      hmoves.invariant (P := fun w => Inv c w ∧ P w)
        (fun _ _ hinv hmove => ⟨hinv.1.move hmove, hstep _ _ hinv.1 hinv.2 hmove⟩) ⟨h, hw⟩
    exact ih hkeep.1 hkeep.2 hrest

theorem meets_true (inputs : List Input) : Meets c (fun _ _ => True) w inputs := by
  induction inputs generalizing w with
  | nil => trivial
  | cons input rest ih => exact ⟨by cases input <;> simp [Allowed], ih⟩

end Vita.Context.Publisher
