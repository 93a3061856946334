import Vita.Common.Trace
import Vita.Context.PublisherMoves
import Vita.Context.ReceiverTheorems
import Mathlib.Data.List.Sort

/-!
# Properties of a stream

What holds of the calls of the transport in every run of a publisher, whatever the transport answers.

Main results:
- `context_times_monotone`: the times of Context frames do not go back;
- `data_in_order`: Data leave in the order of their submission, as long as no packet overtakes;
- `context_before_data`: Data follow the Context they are bound to.
-/

namespace Vita.Context.Publisher

open Checked Timing State Codec Transaction Trace
open ReceiverHistory (sameState_iff sameState_refl sameState_symm sameState_trans)

variable {c : PublisherConfig} {ok : Publisher → ℕ → Prop} {w w' : Publisher}

/-! ## The times of frames -/

/-- A frame is not earlier than those sent before in its association, and one of the same time has the
same state. -/
def TimeOrdered (pre : List StreamEvent) (e : StreamEvent) : Prop :=
  ∀ f sent, e = .context f sent → f.timeKnown ∧ ∀ g, .context g true ∈ pre →
    g.associationGeneration = f.associationGeneration →
      g.time ≤ f.time ∧ (g.time = f.time → sameState g.state f.state)

/-- No frame of the association is later than the last one. -/
structure Bounded (w : Publisher) : Prop where
  generation : ∀ g, .context g true ∈ w.log → g.associationGeneration ≤ w.store.generation
  highwater : ∀ g, .context g true ∈ w.log → g.associationGeneration = w.store.generation →
    ∃ t s, w.contextHighwater = some t ∧ w.highwaterState = some s ∧ g.time ≤ t ∧
      (g.time = t → sameState g.state s)
  traced : Traced TimeOrdered w.log

/-- What a move does to the frames: nothing, or it sends one, or it starts a new association. -/
theorem Move.frames (hinv : Inv c w) (h : Move c ok w w') :
    (∃ more, w'.log = w.log ++ more ∧ (∀ f sent, .context f sent ∉ more) ∧
      (w'.store.generation = w.store.generation ∧ w'.contextHighwater = w.contextHighwater ∧
        w'.highwaterState = w.highwaterState ∨ w.store.generation < w'.store.generation)) ∨
    ∃ f i, w' = Publisher.publish c f w ∧ w.store.Live i ∧ i < c.revisions ∧ Framed w f i ∧ InOrder w f := by
  cases h with
  | tune | fault | credit | keep | forget | collect | refuse =>
    exact .inl ⟨[], by simp, by simp, .inl ⟨rfl, rfl, rfl⟩⟩
  | release token => exact .inl ⟨[], by simp, by simp, .inl ⟨rfl, rfl, rfl⟩⟩
  | stop => exact .inl ⟨_, rfl, by simp, .inl ⟨rfl, rfl, rfl⟩⟩
  | reserve count =>
    obtain ⟨⟨hkeeps, -⟩, -⟩ := RevisionStore.reserve_spec hinv.sound (fun i hi => hi) count
    exact .inl ⟨[], by simp, by simp, .inl ⟨hkeeps.generation, rfl, rfl⟩⟩
  | record event token credits =>
    refine .inl ⟨[], by simp, by simp, .inl ⟨?_, rfl, rfl⟩⟩
    rcases RevisionStore.record_cases (n := c.revisions) event token credits w.store with
      ⟨faulted, -, heq⟩ | ⟨k, -, -, -, -, heq⟩ <;> simp [heq, RevisionStore.setSlot]
  | detach hdetach =>
    obtain ⟨-, hlt, -, -⟩ := RevisionStore.detach_spec hinv.sound (fun i hi => hi) hdetach
    exact .inl ⟨_, rfl, by simp, .inr hlt⟩
  | note hoffer =>
    exact .inl ⟨[], by simp, by simp, .inl ⟨(hinv.sound.note_keeps hoffer.note).generation, rfl, rfl⟩⟩
  | sendNow hoffer =>
    rw [sendNow_eq]
    refine .inl ⟨_, rfl, ?_, .inl ⟨(hinv.sound.note_keeps hoffer.note).generation, rfl, rfl⟩⟩
    intro f sent
    split <;> simp
  | hold hoffer =>
    exact .inl ⟨_, rfl, by simp, .inl ⟨(hinv.sound.note_keeps hoffer.note).generation, rfl, rfl⟩⟩
  | accept _ _ haccept =>
    have hkeeps := RevisionStore.Sound.accept_keeps haccept hinv.sound
    exact .inl ⟨[], by simp, by simp, .inl ⟨hkeeps.generation, rfl, rfl⟩⟩
  | sendHeld => exact .inl ⟨_, rfl, by simp, .inl ⟨rfl, rfl, rfl⟩⟩
  | @publish f i hslot hframe horder =>
    refine .inr ⟨f, i, rfl, ?_⟩
    rcases hslot with hcurrent | ⟨hlt, hwait⟩
    · obtain ⟨hlt, hlive⟩ := hinv.sound.current i hcurrent
      exact ⟨hlive, hlt, hframe, horder⟩
    · simp only [Revision.waiting, decide_eq_true_eq] at hwait
      exact ⟨⟨hwait.1, hwait.2.1⟩, hlt, hframe, horder⟩

/-- The frames before one that is in order. -/
theorem Bounded.timeOrdered {f : ContextFrame} {sent : Bool} (h : Bounded w) (horder : InOrder w f)
    (ht : f.timeKnown) (hgen : f.associationGeneration = w.store.generation) :
    TimeOrdered w.log (.context f sent) := by
  rintro f' sent' heq
  cases heq
  refine ⟨ht, fun g hg hgeneration => ?_⟩
  obtain ⟨t, s, hwater, hstate, hle, hsame⟩ := h.highwater g hg (hgeneration.trans hgen)
  rcases horder with hlater | ⟨s', hwater', hstate', hsame'⟩
  · simp only [later, decide_eq_true_eq] at hlater
    have hlt : g.time < f.time := lt_of_le_of_lt hle (ProtocolTime.before_iff.mp (hlater t hwater))
    exact ⟨hlt.le, fun heq => absurd heq hlt.ne⟩
  · obtain rfl := Option.some.inj (hwater.symm.trans hwater')
    obtain rfl := Option.some.inj (hstate.symm.trans hstate')
    exact ⟨hle, fun heq => sameState_trans (hsame heq) (sameState_symm hsame')⟩

/-- A frame that is in order leaves the bounds in order. -/
theorem Bounded.publish {f : ContextFrame} (h : Bounded w) (horder : InOrder w f) (ht : f.timeKnown)
    (hgen : f.associationGeneration = w.store.generation) : Bounded (publish c f w) := by
  have hlog : (Publisher.publish c f w).log = w.log ++ [.context f (c.answer w.calls).isOk] := by
    rw [publish_eq]
  have hstore : (Publisher.publish c f w).store = w.store := by
    rw [publish_eq]
  have hmem : ∀ g, .context g true ∈ (Publisher.publish c f w).log → .context g true ∈ w.log ∨
      g = f ∧ (c.answer w.calls).isOk := by
    intro g hg
    rw [hlog, List.mem_append, List.mem_singleton] at hg
    refine hg.imp_right fun heq => ?_
    injection heq with hf hok
    exact ⟨hf, hok.symm⟩
  refine ⟨fun g hg => ?_, fun g hg heq => ?_, ?_⟩
  · rw [hstore]
    rcases hmem g hg with hg | ⟨rfl, -⟩
    · exact h.generation g hg
    · exact hgen.le
  · rw [hstore] at heq
    by_cases hraise : (c.answer w.calls).isOk ∧ later f.time w
    · -- the frame is the last one now
      have hwater : (Publisher.publish c f w).contextHighwater = some f.time ∧
          (Publisher.publish c f w).highwaterState = some f.state := by
        simp [Publisher.publish, if_pos hraise, raise]
      refine ⟨f.time, f.state, hwater.1, hwater.2, ?_⟩
      rcases hmem g hg with hg | ⟨rfl, -⟩
      · exact ((h.timeOrdered horder ht hgen) f true rfl).2 g hg (heq.trans hgen.symm)
      · exact ⟨le_rfl, fun _ => sameState_refl _⟩
    · have hsame : (Publisher.publish c f w).contextHighwater = w.contextHighwater ∧
          (Publisher.publish c f w).highwaterState = w.highwaterState := by
        simp only [Publisher.publish, if_neg hraise]
        exact ⟨rfl, rfl⟩
      rw [hsame.1, hsame.2]
      rcases hmem g hg with hg | ⟨rfl, hok⟩
      · exact h.highwater g hg heq
      · obtain ⟨s, hwater, hstate, hs⟩ := horder.resolve_left fun hlater => hraise ⟨hok, hlater⟩
        exact ⟨g.time, s, hwater, hstate, le_rfl, fun _ => hs⟩
  · rw [hlog, traced_concat]
    exact ⟨h.traced, h.timeOrdered horder ht hgen⟩

/-- Every move keeps the bounds. -/
theorem Bounded.move (hinv : Inv c w) (h : Bounded w) (hmove : Move c ok w w') : Bounded w' := by
  rcases hmove.frames hinv with ⟨more, hlog, hmore, hgen⟩ | ⟨f, i, rfl, hlive, hlt, hframe, horder⟩
  · have hmem : ∀ g, .context g true ∈ w'.log → .context g true ∈ w.log := by
      intro g hg
      rw [hlog, List.mem_append] at hg
      exact hg.resolve_right (hmore g true)
    refine ⟨fun g hg => ?_, fun g hg heq => ?_, ?_⟩
    · have hle := h.generation g (hmem g hg)
      rcases hgen with ⟨hgen, -⟩ | hgen <;> omega
    · have hle := h.generation g (hmem g hg)
      rcases hgen with ⟨hgen, ht, hs⟩ | hgen
      · rw [ht, hs]
        exact h.highwater g (hmem g hg) (heq.trans hgen)
      · omega
    · rw [hlog]
      refine h.traced.append fun pre e he f sent hf => ?_
      subst hf
      exact absurd he (hmore f sent)
  · exact h.publish horder hframe.timeKnown (hframe.generation.trans (hinv.sound.generation i hlt hlive))

/-- In every run the times of the frames handed to the transport do not go back within an association,
and frames of one time have one state. -/
theorem context_times_monotone (c : PublisherConfig) (generation : ℕ) (inputs : List Input) :
    Traced TimeOrdered (run c (initial c generation) inputs).log := by
  have hinitial : Bounded (initial c generation) :=
    ⟨by simp [initial], by simp [initial], by simp [initial]⟩
  exact (run_invariant (inv_initial generation) hinitial (meets_true inputs)
    fun _ _ hinv h hmove => h.move hinv hmove).traced

/-! ## The order of Data -/

/-- The packets that were sent. -/
def sentPackets (log : List StreamEvent) : List ℕ :=
  log.filterMap fun | .data p _ true => some p | _ => none

/-- The packets that `submit` took over. -/
def submittedPackets (log : List StreamEvent) : List ℕ :=
  log.filterMap fun | .submitted p => some p | _ => none

/-- The packets that were given up. -/
def droppedPackets (log : List StreamEvent) : List ℕ :=
  log.filterMap fun | .dropped p => some p | _ => none

/-- The packets that are held, in the order of their places. -/
def heldPackets (w : Publisher) : List ℕ := w.packets.map Pending.packet

/-- Packets are sent in the order of their submission and at most once, and none is lost. -/
structure SentInOrder (w : Publisher) : Prop where
  order : (sentPackets w.log).Sublist (submittedPackets w.log)
  once : (sentPackets w.log).Nodup
  accounted : ∀ p ∈ submittedPackets w.log,
    p ∈ sentPackets w.log ∨ p ∈ heldPackets w ∨ p ∈ droppedPackets w.log

/-- No place is free before one that is taken. -/
def packed : List (Option Pending) → Bool
  | [] => true
  | none :: rest => rest.all Option.isNone
  | some _ :: rest => packed rest

/-- A packet for the revision of a slot does not overtake: it is sent at once only when nothing is held,
and the place it gets is behind those taken. -/
def noOvertaking (w : Publisher) (i : ℕ) : Bool :=
  if ¬w.startGate ∧ (w.store.slots i).publication = .accepted then w.packets.isEmpty else packed w.held

/-- The packets by what became of them, each below the number of the next submission. -/
structure Ordered (w : Publisher) : Prop where
  submitted : (submittedPackets w.log).Pairwise (· < ·)
  below : ∀ p ∈ submittedPackets w.log, p < w.submissions
  perm : (sentPackets w.log ++ heldPackets w ++ droppedPackets w.log).Perm (submittedPackets w.log)
  order : (sentPackets w.log ++ heldPackets w).Pairwise (· < ·)

theorem Ordered.sentInOrder (h : Ordered w) : SentInOrder w := by
  have hsent : (sentPackets w.log).Pairwise (· < ·) := (List.pairwise_append.mp h.order).1
  refine ⟨?_, hsent.imp ne_of_lt, fun p hp => ?_⟩
  · have hsub : (sentPackets w.log).Subperm (submittedPackets w.log) := by
      refine List.Subperm.trans ?_ h.perm.subperm
      rw [List.append_assoc]
      exact (List.sublist_append_left _ _).subperm
    exact List.sublist_of_subperm_of_pairwise hsub hsent h.submitted
  · have hmem := h.perm.mem_iff.mpr hp
    simpa [or_assoc] using hmem

/-! ### One move -/

section

variable (log more : List StreamEvent)

@[simp] theorem sentPackets_append : sentPackets (log ++ more) = sentPackets log ++ sentPackets more :=
  List.filterMap_append

@[simp] theorem submittedPackets_append :
    submittedPackets (log ++ more) = submittedPackets log ++ submittedPackets more :=
  List.filterMap_append

@[simp] theorem droppedPackets_append :
    droppedPackets (log ++ more) = droppedPackets log ++ droppedPackets more :=
  List.filterMap_append

end

/-- The entries for packets that are given up. -/
theorem packets_dropped (l : List Pending) :
    sentPackets (l.map fun p => .dropped p.packet) = [] ∧
      submittedPackets (l.map fun p => .dropped p.packet) = [] ∧
      droppedPackets (l.map fun p => .dropped p.packet) = l.map Pending.packet := by
  refine ⟨?_, ?_, ?_⟩ <;> simp [sentPackets, submittedPackets, droppedPackets, List.filterMap_map,
    List.filterMap_eq_map']

/-- Nothing happens to packets. -/
theorem Ordered.quiet (h : Ordered w) (hsent : sentPackets w'.log = sentPackets w.log)
    (hsubmitted : submittedPackets w'.log = submittedPackets w.log)
    (hdropped : droppedPackets w'.log = droppedPackets w.log) (hheld : w'.packets = w.packets)
    (hsub : w.submissions ≤ w'.submissions) : Ordered w' where
  submitted := hsubmitted ▸ h.submitted
  below p hp := (h.below p (hsubmitted ▸ hp)).trans_le hsub
  perm := by
    rw [hsent, hsubmitted, hdropped, heldPackets, hheld]
    exact h.perm
  order := by
    rw [hsent, heldPackets, hheld]
    exact h.order

/-- All held packets are given up. -/
theorem Ordered.drop (h : Ordered w) (hlog : w'.log = w.log ++ w.packets.map fun p => .dropped p.packet)
    (hheld : w'.packets = []) (hsub : w'.submissions = w.submissions) : Ordered w' := by
  obtain ⟨hs, ht, hd⟩ := packets_dropped w.packets
  refine ⟨?_, ?_, ?_, ?_⟩
  · rw [hlog, submittedPackets_append, ht, List.append_nil]
    exact h.submitted
  · rw [hlog, submittedPackets_append, ht, List.append_nil, hsub]
    exact h.below
  · rw [hlog, sentPackets_append, submittedPackets_append, droppedPackets_append, hs, ht, hd, heldPackets,
      hheld, List.append_nil, List.append_nil]
    refine List.Perm.trans ?_ h.perm
    simp only [List.map_nil, List.append_nil, List.append_assoc]
    exact List.Perm.append_left _ List.perm_append_comm
  · rw [hlog, sentPackets_append, hs, heldPackets, hheld, List.append_nil, List.map_nil, List.append_nil]
    exact (List.pairwise_append.mp h.order).1

/-- A new packet is sent or held behind all others. -/
theorem Ordered.take (h : Ordered w) (hsubmitted : submittedPackets w'.log =
      submittedPackets w.log ++ [w.submissions])
    (horder : sentPackets w'.log ++ heldPackets w' =
      sentPackets w.log ++ heldPackets w ++ [w.submissions])
    (hdropped : droppedPackets w'.log = droppedPackets w.log)
    (hsub : w'.submissions = w.submissions + 1) : Ordered w' := by
  have hall : ∀ p ∈ sentPackets w.log ++ heldPackets w, p < w.submissions := by
    intro p hp
    exact h.below p (h.perm.mem_iff.mp (List.mem_append_left _ hp))
  refine ⟨?_, ?_, ?_, ?_⟩
  · rw [hsubmitted, List.pairwise_append]
    exact ⟨h.submitted, List.pairwise_singleton _ _, fun p hp q hq => by
      rw [List.mem_singleton.mp hq]
      exact h.below p hp⟩
  · intro p hp
    rw [hsubmitted, List.mem_append, List.mem_singleton] at hp
    rw [hsub]
    rcases hp with hp | rfl
    · exact Nat.lt_succ_of_lt (h.below p hp)
    · exact Nat.lt_succ_self _
  · rw [hsubmitted, horder, hdropped, List.append_assoc]
    refine (List.Perm.append_left _ List.perm_append_comm).trans ?_
    rw [← List.append_assoc]
    exact List.Perm.append_right _ h.perm
  · rw [horder, List.pairwise_append]
    exact ⟨h.order, List.pairwise_singleton _ _, fun p hp q hq => by
      rw [List.mem_singleton.mp hq]
      exact hall p hp⟩

theorem places_some (v : List (Option Pending)) (p : Pending) (l : List (Option Pending)) :
    (v ++ some p :: l).filterMap id = v.filterMap id ++ p :: l.filterMap id := by
  simp

theorem places_none (v l : List (Option Pending)) :
    (v ++ none :: l).filterMap id = v.filterMap id ++ l.filterMap id := by
  simp

theorem all_isNone {l : List (Option Pending)} (h : l.all Option.isNone) : l.filterMap id = [] := by
  rw [List.filterMap_eq_nil_iff]
  intro x hx
  simpa using List.all_eq_true.mp h x hx

/-- When no place is free before one that is taken, a new packet is the last one. -/
theorem packets_hold {l : List (Option Pending)} {p : Pending} (hpacked : packed l)
    (hroom : (l.filterMap id).length ≠ l.length) : (hold p l).filterMap id = l.filterMap id ++ [p] := by
  induction l with
  | nil => exact absurd rfl hroom
  | cons x l ih =>
    cases x with
    | none =>
      have hnone := all_isNone hpacked
      change p :: l.filterMap id = l.filterMap id ++ [p]
      rw [hnone]
      rfl
    | some q =>
      have hih := ih hpacked (by simpa using hroom)
      change q :: (hold p l).filterMap id = q :: l.filterMap id ++ [p]
      rw [hih]
      rfl

/-- With nothing waiting, the packet that is sent is the first one held. -/
theorem sendHeld_first {visited rest : List (Option Pending)} {p : Pending} (hinv : Inv c w)
    (hheld : w.held = visited ++ some p :: rest)
    (hvisited : ∀ q, some q ∈ visited → (w.store.slots q.revision).publication ≠ .accepted)
    (hwait : ∀ i < c.revisions, ¬(w.store.slots i).waiting) : visited.filterMap id = [] := by
  rw [List.filterMap_eq_nil_iff]
  intro x hx
  cases x with
  | none => rfl
  | some q =>
    exfalso
    have hmem : q ∈ w.packets := mem_packets.mpr (by rw [hheld]; exact List.mem_append_left _ hx)
    obtain ⟨hlt, hc⟩ := hinv.sound.referred _ (referenced_of_mem_packets hmem)
    have hd := (hinv.held q hmem).1.2
    -- a revision that does not wait is accepted, as it has not failed
    have hpublication := hinv.sound.unfailed _ hlt hc
    have hpending : (w.store.slots q.revision).publication ≠ .pending := by
      intro hp
      refine hwait _ hlt ?_
      simp only [Revision.waiting, decide_eq_true_eq]
      exact ⟨hc, hd, hp⟩
    cases hp : (w.store.slots q.revision).publication with
    | pending => exact hpending hp
    | accepted => exact hvisited q hx hp
    | failed => exact hpublication hp

/-- A move that overtakes nothing keeps the order of Context and Data. -/
theorem Ordered.move (hinv : Inv c w) (h : Ordered w) (hmove : Move c (fun w i => noOvertaking w i) w w') :
    Ordered w' := by
  cases hmove with
  | tune | fault | credit | keep | forget | collect | release | reserve | record | accept =>
    exact h.quiet rfl rfl rfl rfl le_rfl
  | refuse | note => exact h.quiet rfl rfl rfl rfl (Nat.le_succ _)
  | stop => exact h.drop rfl (packets_stop _) rfl
  | detach => exact h.drop rfl (packets_stop .idle) rfl
  | publish =>
    rw [publish_eq]
    exact h.quiet (by simp [sentPackets]) (by simp [submittedPackets]) (by simp [droppedPackets]) rfl le_rfl
  | @sendNow i store hoffer hgate hacc =>
    have hnone : w.packets = [] := by
      have hok := hoffer.allowed
      simp only [noOvertaking] at hok
      rw [if_pos ⟨hgate, hacc⟩] at hok
      exact List.isEmpty_iff.mp hok
    rw [sendNow_eq]
    cases hsent : (c.answer w.calls).isOk with
    | false =>
      exact h.quiet (by simp [sentPackets]) (by simp [submittedPackets]) (by simp [droppedPackets]) rfl
        (Nat.le_succ _)
    | true =>
      refine h.take ?_ ?_ ?_ rfl
      · simp [submittedPackets]
      · rw [sentPackets_append, heldPackets, heldPackets, hnone]
        change _ ++ _ ++ List.map _ w.packets = _
        rw [hnone]
        simp [sentPackets]
      · simp [droppedPackets]
  | @hold i store hoffer hgate hroom =>
    have hpacked : packed w.held := by
      have hok := hoffer.allowed
      simp only [noOvertaking] at hok
      rwa [if_neg (by tauto)] at hok
    rw [← hinv.capacity] at hroom
    refine h.take ?_ ?_ ?_ rfl
    · simp [submittedPackets]
    · rw [sentPackets_append, heldPackets, packets, packets_hold hpacked hroom, List.map_append]
      simp [sentPackets, heldPackets, packets, offer]
    · simp [droppedPackets]
  | @sendHeld visited rest p hheld hacc hvisited hwait =>
    have hfirst := sendHeld_first hinv hheld hvisited hwait
    have hpackets : heldPackets w = p.packet :: (rest.filterMap id).map Pending.packet := by
      rw [heldPackets, packets, hheld, places_some, hfirst]
      rfl
    cases hsent : (c.answer w.calls).isOk with
    | false =>
      refine h.quiet ?_ ?_ ?_ ?_ le_rfl
      · simp [sendHeld, sendData, emit, sentPackets, hsent]
      · simp [sendHeld, sendData, emit, submittedPackets]
      · simp [sendHeld, sendData, emit, droppedPackets]
      · simp [sendHeld, packets, hsent, hheld]
    | true =>
      have hsentLog : sentPackets (sendHeld c visited p rest w).log = sentPackets w.log ++ [p.packet] := by
        simp [sendHeld, sendData, emit, sentPackets, hsent]
      have hsubmitted : submittedPackets (sendHeld c visited p rest w).log = submittedPackets w.log := by
        simp [sendHeld, sendData, emit, submittedPackets]
      have hdropped : droppedPackets (sendHeld c visited p rest w).log = droppedPackets w.log := by
        simp [sendHeld, sendData, emit, droppedPackets]
      have hrest : sentPackets (sendHeld c visited p rest w).log ++ heldPackets (sendHeld c visited p rest w) =
          sentPackets w.log ++ heldPackets w := by
        rw [hsentLog, hpackets, heldPackets, packets, sendHeld, if_pos hsent, places_none, hfirst]
        simp
      refine ⟨hsubmitted ▸ h.submitted, ?_, ?_, hrest ▸ h.order⟩
      · rw [hsubmitted]
        exact h.below
      · rw [hrest, hdropped, hsubmitted]
        exact h.perm

/-- In a run in which no packet overtakes, Data leave in the order of their submission. -/
theorem data_in_order {c : PublisherConfig} {generation : ℕ} {inputs : List Input}
    (h : Meets c (fun w i => noOvertaking w i) (initial c generation) inputs) :
    SentInOrder (run c (initial c generation) inputs) := by
  have hinitial : Ordered (initial c generation) := by
    refine ⟨by simp [initial, submittedPackets], by simp [initial, submittedPackets], ?_, ?_⟩
    · simp [initial, sentPackets, submittedPackets, droppedPackets, heldPackets, packets]
    · simp [initial, sentPackets, heldPackets, packets]
  exact (run_invariant (inv_initial generation) hinitial h
    fun _ _ hinv hord hmove => hord.move hinv hmove).sentInOrder

/-- A transport that fails in the given calls. -/
def failingAt (calls : List ℕ) : PublisherConfig :=
  { revisions := 4, heldCapacity := 4
    answer := fun k => if k ∈ calls then .error (failure .capacityExhausted) else .ok () }

/-- The event of a generator whose state takes effect at a time. -/
def streamEvent (rate : Int64) (seconds : ℕ) : EffectiveEvent :=
  { state := ReceiverHistory.streamState rate, actualTime := { seconds }, associationGeneration := 1
    timeKnown := true }

/-- A stream with one revision: two packets are held, and a third comes after the first round. -/
def threePackets : List Input :=
  [.initial (streamEvent 1048576 5) none, .start 0, .submit 0 0, .submit 0 0,
   .progress 1 { seconds := 9 } .utc true true, .submit 0 2,
   .progress 3 { seconds := 10 } .utc true true]

theorem data_in_order_threePackets :
    Meets (failingAt []) (fun w i => noOvertaking w i) (initial (failingAt []) 1) threePackets ∧
      SentInOrder (run (failingAt []) (initial (failingAt []) 1) threePackets) :=
  have h : Meets (failingAt []) (fun w i => noOvertaking w i) (initial (failingAt []) 1) threePackets := by
    decide +kernel
  ⟨h, data_in_order h⟩

/-- The first packet of a round cannot be sent; then the third one overtakes it. -/
theorem third_packet_overtakes :
    ¬∀ c generation inputs, SentInOrder (run c (initial c generation) inputs) := by
  intro hall
  have horder := (hall (failingAt [2]) 1 threePackets).order
  revert horder
  decide +kernel

/-! ## Context before Data -/

/-- A valid frame with the metadata of an event has been sent in its association. -/
def covered (log : List StreamEvent) (e : EffectiveEvent) : Bool :=
  log.any fun
    | .context f true =>
      f.valid ∧ f.associationGeneration = e.associationGeneration ∧ sameMetadata f.state e.state
    | _ => false

/-- Data are sent after the Context of their revision. -/
def Gated (pre : List StreamEvent) (entry : StreamEvent) : Prop :=
  ∀ p e sent, entry = .data p e sent → ∃ f, .context f true ∈ pre ∧ f.valid ∧
    f.associationGeneration = e.associationGeneration ∧ sameMetadata f.state e.state

/-- The revision has not been accepted in a group for which one of other metadata stood. -/
def standing (w : Publisher) (i : ℕ) : Bool := (w.store.slots i).id ∉ w.superseded

/-- What it means that the metadata of an event were sent. -/
theorem covered_iff {log : List StreamEvent} {e : EffectiveEvent} :
    covered log e ↔ ∃ f, .context f true ∈ log ∧ f.valid ∧
      f.associationGeneration = e.associationGeneration ∧ sameMetadata f.state e.state := by
  simp only [covered, List.any_eq_true]
  constructor
  · rintro ⟨entry, hmem, h⟩
    split at h
    · next f =>
      exact ⟨f, hmem, by simpa using h⟩
    · exact absurd h Bool.false_ne_true
  · rintro ⟨f, hmem, h⟩
    exact ⟨_, hmem, by simpa using h⟩

theorem covered_append {log more : List StreamEvent} {e : EffectiveEvent} (h : covered log e) :
    covered (log ++ more) e := by
  simp only [covered, List.any_append, Bool.or_eq_true] at h ⊢
  exact .inl h

theorem requiredFields_active (profile : IqProfile) :
    ∀ i ∈ requiredFields profile, i.val < activeStateFields profile ∧ i ≠ 2 := by
  cases profile <;> decide

theorem requiredKnown_iff {s : StateSnapshot} :
    requiredKnown s ↔ ∀ i ∈ requiredFields s.profile, s.knows i := by
  cases hp : s.profile <;> simp [requiredKnown, requiredFields, hp]

/-- The frame of a state has its metadata. -/
theorem sameMetadata_withIndicators (s : StateSnapshot) (x : UInt32) :
    sameMetadata (withIndicators s x) s := by
  simp only [sameMetadata, decide_eq_true_eq]
  refine ⟨rfl, fun i hi => ?_⟩
  have hne := (requiredFields_active s.profile i hi).2
  simp [withIndicators, setField, Function.update_of_ne hne]

theorem sameMetadata_of_sameState {a b : StateSnapshot} (h : sameState a b) (hknown : requiredKnown a) :
    sameMetadata b a := by
  obtain ⟨hprofile, hfields⟩ := sameState_iff.mp h
  simp only [sameMetadata, decide_eq_true_eq]
  refine ⟨hprofile.symm, fun i hi => ?_⟩
  obtain ⟨-, hvalidity, hvalue⟩ := hfields i (requiredFields_active a.profile i hi).1
  have hk := requiredKnown_iff.mp hknown i hi
  exact ⟨hvalidity.symm, (hvalue (by simpa [StateSnapshot.knows] using hk)).symm⟩

theorem sameMetadata_trans {a b d : StateSnapshot} (h : sameMetadata a b) (h' : sameMetadata b d) :
    sameMetadata a d := by
  simp only [sameMetadata, decide_eq_true_eq] at h h' ⊢
  refine ⟨h.1.trans h'.1, fun i hi => ?_⟩
  obtain ⟨hv, hx⟩ := h.2 i (h'.1 ▸ hi)
  obtain ⟨hv', hx'⟩ := h'.2 i hi
  exact ⟨hv.trans hv', hx.trans hx'⟩

/-- An accepted revision that Data need or that was not superseded is published with its metadata. -/
structure Announced (c : PublisherConfig) (w : Publisher) : Prop where
  covered : ∀ i < c.revisions, w.store.Live i → (w.store.slots i).publication = .accepted →
    ((w.store.slots i).dataDependency ∨ standing w i) → covered w.log (w.store.slots i).event
  traced : Traced Gated w.log

/-- The revisions are those of before and the log has no new Data. -/
theorem Announced.of_slots (h : Announced c w) {l : List StreamEvent} (hlog : w'.log = w.log ++ l)
    (hmore : ∀ p e sent, .data p e sent ∉ l) (hsuperseded : w'.superseded = w.superseded)
    (hslots : ∀ i < c.revisions, w'.store.Live i → w'.store.slots i = w.store.slots i ∨
      (w'.store.slots i).publication ≠ .accepted) : Announced c w' where
  covered i hi hlive hacc hdep := by
    have heq := (hslots i hi hlive).resolve_right fun hne => hne hacc
    unfold RevisionStore.Live at hlive
    unfold standing at hdep
    rw [heq, hsuperseded] at hdep
    rw [heq] at hlive hacc ⊢
    rw [hlog]
    exact covered_append (h.covered i hi hlive hacc hdep)
  traced := by
    rw [hlog]
    refine h.traced.append fun pre entry he p e sent heq => ?_
    subst heq
    exact absurd he (hmore p e sent)

/-- A packet is offered for a revision that is not superseded. -/
theorem Announced.note {i : ℕ} {store : RevisionStore} (h : Announced c w)
    (hoffer : Offered c (fun w i => standing w i) w i store) : Announced c { w with store } where
  covered j hj hlive hacc hdep := by
    have hslot := RevisionStore.noteDataDependency_slots hoffer.note j
    unfold RevisionStore.Live at hlive
    unfold standing at hdep
    dsimp only at hlive hacc hdep ⊢
    rw [hslot] at hlive hacc hdep ⊢
    by_cases hji : j = i
    · subst hji
      exact h.covered j hj hlive hacc (.inr hoffer.allowed)
    · exact h.covered j hj hlive hacc (by simpa [standing, hji] using hdep)
  traced := h.traced

/-- What has the metadata of the revision that stands for a group is covered by the frame of that one. -/
theorem covered_of_stand {i : ℕ} {e : EffectiveEvent} {log : List StreamEvent}
    (hsent : ∃ f, .context f true ∈ log ∧ f.valid ∧ Framed w f i)
    (hgeneration : (w.store.slots i).event.associationGeneration = e.associationGeneration)
    (hsame : sameMetadata (w.store.slots i).event.state e.state) : covered log e := by
  obtain ⟨f, hf, hvalid, hframe⟩ := hsent
  obtain ⟨x, hx⟩ := hframe.state hvalid
  refine covered_iff.mpr ⟨f, hf, hvalid, hframe.generation.trans hgeneration, ?_⟩
  rw [hx]
  exact sameMetadata_trans (sameMetadata_withIndicators _ _) hsame

/-- A member of a group that Data need has the metadata of the revision that stands for the group. -/
theorem stand_of_pinned {i j : ℕ} (hinv : Inv c w) (hfault : ¬w.store.faulted)
    (hgroup : w.store.publicationGroup c.revisions = .ok i) (hj : j < c.revisions)
    (hlive : w.store.Live j) (hin : w.store.inGroup i j) (hpinned : (w.store.slots j).pinned) :
    sameMetadata (w.store.slots (w.standsFor i)).event.state (w.store.slots j).event.state := by
  obtain ⟨hlt, hwait, hagree⟩ := RevisionStore.publicationGroup_eq_ok hgroup
  simp only [RevisionStore.inGroup, decide_eq_true_eq] at hin
  obtain ⟨hwaitj, hin⟩ := hin
  simp only [Revision.waiting, decide_eq_true_eq] at hwait
  have hsame : (w.store.slots j).id = (w.store.slots i).id → j = i :=
    hinv.sound.distinct j hj i hlt hlive.1 hwait.1
  by_cases ht : (w.store.slots i).event.timeKnown
  · -- the published state agrees with that of a pinned member
    rw [if_pos ht] at hagree
    rw [standsFor, if_pos ht]
    by_cases hji : (w.store.slots j).id = (w.store.slots i).id
    · rw [hsame hji]
      simp [sameMetadata]
    · have htime : (w.store.slots j).sameTime (w.store.slots i) := by
        rcases hin with hid | ⟨-, hunknown⟩ | ⟨htime, -⟩
        · exact absurd hid hji
        · exact absurd ht hunknown
        · exact htime
      exact sameMetadata_of_sameState (hagree j hj hwaitj hji htime hpinned)
        (hinv.sound.known hfault j hj hlive)
  · -- no pinned revision is in a group of unknown time
    rw [if_neg ht] at hagree
    exfalso
    rcases hin with hid | ⟨hunknown, -⟩ | ⟨htime, -⟩
    · obtain rfl := hsame hid
      exact hagree j hj hwaitj ht hpinned
    · exact hagree j hj hwaitj hunknown hpinned
    · simp only [Revision.sameTime, decide_eq_true_eq] at htime
      exact ht htime.2.1

/-- A member of a group is outvoted, or has the metadata of the revision that stands for it. -/
theorem outvoted_or_same {i j : ℕ} (hj : j < c.revisions) (hin : w.store.inGroup i j) :
    (w.store.slots j).id ∈ outvoted c i w ∨
      sameMetadata (w.store.slots (w.standsFor i)).event.state (w.store.slots j).event.state := by
  by_cases hsame : sameMetadata (w.store.slots (w.standsFor i)).event.state (w.store.slots j).event.state
  · exact .inr hsame
  · refine .inl (List.mem_map.mpr ⟨j, ?_, rfl⟩)
    rw [List.mem_filter, List.mem_range]
    exact ⟨hj, by simp [hin, hsame]⟩

/-- The revision that stands for a group can be looked up in the store. -/
theorem standsFor_live {i : ℕ} (hinv : Inv c w) (hgroup : w.store.publicationGroup c.revisions = .ok i) :
    w.standsFor i < c.revisions ∧ w.store.Live (w.standsFor i) := by
  obtain ⟨hlt, hwait, -⟩ := RevisionStore.publicationGroup_eq_ok hgroup
  simp only [Revision.waiting, decide_eq_true_eq] at hwait
  unfold standsFor
  split
  · exact ⟨hlt, hwait.1, hwait.2.1⟩
  · cases hcurrent : w.store.current with
    | none => exact ⟨hlt, hwait.1, hwait.2.1⟩
    | some k => exact hinv.sound.current k hcurrent

/-- The members of a group that Data need, and those that are not outvoted, follow the frame of the
revision that stands for it. -/
theorem Announced.accept {i : ℕ} {store : RevisionStore} (hinv : Inv c w) (h : Announced c w)
    (hfault : ¬w.store.faulted) (hgroup : w.store.publicationGroup c.revisions = .ok i)
    (haccept : w.store.acceptGroup c.revisions i = .ok store)
    (hsent : requiredKnown (w.store.slots (w.standsFor i)).event.state →
      ∃ f, .context f true ∈ w.log ∧ f.valid ∧ Framed w f (w.standsFor i)) :
    Announced c { w with store, superseded := w.superseded ++ outvoted c i w } where
  covered j hj hlive hacc hdep := by
    have hslot := RevisionStore.acceptGroup_slot haccept j
    unfold RevisionStore.Live at hlive
    simp only [standing, List.mem_append, not_or, decide_eq_true_eq] at hdep
    dsimp only at hlive hacc
    have hold := RevisionStore.acceptGroup_accepted haccept hacc
    rw [hslot] at hlive hdep ⊢
    dsimp only at hlive hdep ⊢
    rcases hold with hold | ⟨-, hin⟩
    · refine h.covered j hj hlive hold (hdep.imp_right fun hstand => ?_)
      simpa [standing] using hstand.1
    · obtain ⟨hlt, hstand⟩ := standsFor_live hinv hgroup
      refine covered_of_stand (hsent (hinv.sound.known hfault _ hlt hstand)) ?_ ?_
      · rw [hinv.sound.generation _ hlt hstand, hinv.sound.generation j hj hlive]
      · rcases hdep with hneed | hstand
        · exact stand_of_pinned hinv hfault hgroup hj hlive hin (by simp [Revision.pinned, hneed])
        · exact (outvoted_or_same hj hin).resolve_left hstand.2
  traced := h.traced

/-- Data of a covered revision are sent. -/
theorem Announced.send (h : Announced c w) {p : ℕ} {e : EffectiveEvent} {sent : Bool}
    (hcovered : Publisher.covered w.log e) (hstore : w'.store = w.store)
    (hsuperseded : w'.superseded = w.superseded) (hlog : w'.log = w.log ++ [.data p e sent]) : Announced c w' where
  covered i hi hlive hacc hdep := by
    rw [hlog]
    unfold standing at hdep
    rw [hstore, hsuperseded] at hdep
    rw [hstore] at hlive hacc ⊢
    exact covered_append (h.covered i hi hlive hacc hdep)
  traced := by
    rw [hlog, traced_concat]
    refine ⟨h.traced, fun p' e' sent' heq => ?_⟩
    cases heq
    exact covered_iff.mp hcovered

/-- A move that sends Data only for what stands keeps the Context before it. -/
theorem Announced.move (hinv : Inv c w) (h : Announced c w)
    (hmove : Move c (fun w i => standing w i) w w') : Announced c w' := by
  cases hmove with
  | tune | fault | credit | keep | forget | refuse =>
    exact h.of_slots (l := []) (by simp) (by simp) rfl fun i _ _ => .inl rfl
  | stop => exact h.of_slots rfl (by simp) rfl fun i _ _ => .inl rfl
  | collect =>
    exact h.of_slots (l := []) (by simp) (by simp) rfl fun i _ hl =>
      .inl (RevisionStore.collect_slot_of_committed hl.1)
  | reserve count =>
    obtain ⟨-, hslots⟩ := RevisionStore.reserve_spec hinv.sound (fun i hi => hi) count
    exact h.of_slots (l := []) (by simp) (by simp) rfl fun i _ hl => .inl (hslots i hl.1)
  | release token =>
    exact h.of_slots (l := []) (by simp) (by simp) rfl fun i _ hl =>
      .inl (RevisionStore.release_slot_of_committed hl.1)
  | record event token credits =>
    refine h.of_slots (l := []) (by simp) (by simp) rfl fun i _ _ => ?_
    rcases RevisionStore.record_slot (n := c.revisions) event token credits w.store i with
      heq | ⟨-, hpending⟩
    · exact .inl heq
    · exact .inr (by simp [hpending])
  | detach hdetach =>
    obtain ⟨-, -, -, hnone⟩ := RevisionStore.detach_spec hinv.sound (fun i hi => hi) hdetach
    exact h.of_slots rfl (by simp) rfl fun i hi hl => absurd hl (hnone i hi)
  | note hoffer => exact (h.note hoffer).of_slots (l := []) (by simp) (by simp) rfl fun i _ _ => .inl rfl
  | hold hoffer => exact (h.note hoffer).of_slots rfl (by simp) rfl fun i _ _ => .inl rfl
  | @sendNow i store hoffer hgate hacc =>
    have hnote := h.note hoffer
    obtain ⟨hlt, hlive, hslot⟩ := hoffer.slot
    have hcovered : Publisher.covered w.log (store.slots i).event := by
      refine hnote.covered i hlt ?_ ?_ ?_
      · unfold RevisionStore.Live at hlive ⊢
        rw [hslot]
        exact hlive
      · rw [hslot]
        exact hacc
      · rw [hslot]
        exact .inl rfl
    have hsend : Announced c { w with
        store, log := w.log ++ [.data w.submissions (store.slots i).event (c.answer w.calls).isOk] } :=
      hnote.send hcovered rfl rfl rfl
    rw [sendNow_eq]
    refine hsend.of_slots (l := if (c.answer w.calls).isOk then [.submitted w.submissions] else [])
      (by simp) ?_ rfl fun i _ _ => .inl rfl
    intro p e sent
    split <;> simp
  | publish =>
    rw [publish_eq]
    exact h.of_slots rfl (by simp) rfl fun i _ _ => .inl rfl
  | accept hfault hgroup haccept hsent => exact h.accept hinv hfault hgroup haccept hsent
  | @sendHeld visited rest p hheld hacc _ _ =>
    have hmem : p ∈ w.packets := mem_packets.mpr (by rw [hheld]; simp)
    obtain ⟨hlt, -⟩ := hinv.sound.referred _ (referenced_of_mem_packets hmem)
    obtain ⟨hlive, hdep⟩ := hinv.held p hmem
    exact h.send (h.covered _ hlt hlive hacc (.inl hdep)) rfl rfl rfl

/-- In a run in which no packet is submitted for a superseded revision, Data are sent only after a valid
frame with the metadata of their revision. -/
theorem context_before_data {c : PublisherConfig} {generation : ℕ} {inputs : List Input}
    (h : Meets c (fun w i => standing w i) (initial c generation) inputs) :
    Traced Gated (run c (initial c generation) inputs).log := by
  have hinitial : Announced c (initial c generation) :=
    ⟨by simp [initial, RevisionStore.Live], by simp [initial]⟩
  exact (run_invariant (inv_initial generation) hinitial h
    fun _ _ hinv hann hmove => hann.move hinv hmove).traced

/-- Two revisions take effect at one time and are published together. A packet of the second comes
before that, and another one afterwards. -/
def coalescedRevisions : List Input :=
  [.initial (streamEvent 1048576 5) none, .reserve 1, .record (streamEvent 2097152 5) 2 none, .current,
   .start 0, .submit 1 0, .progress 1 { seconds := 9 } .utc true true, .submit 1 2]

theorem context_before_data_coalesced :
    Meets (failingAt []) (fun w i => standing w i) (initial (failingAt []) 1) coalescedRevisions ∧
      Traced Gated (run (failingAt []) (initial (failingAt []) 1) coalescedRevisions).log :=
  have h : Meets (failingAt []) (fun w i => standing w i) (initial (failingAt []) 1) coalescedRevisions := by
    decide +kernel
  ⟨h, context_before_data h⟩

/-- Two revisions take effect at one time, and a packet of the first comes after their publication. -/
def lateSubmission : List Input :=
  [.initial (streamEvent 1048576 5) none, .reserve 1, .record (streamEvent 2097152 5) 2 none, .start 0,
   .progress 1 { seconds := 9 } .utc true true, .submit 0 2]

/-- `Gated`, as a computation. -/
def gated (pre : List StreamEvent) : StreamEvent → Bool
  | .data _ e _ => covered pre e
  | _ => true

theorem gated_of_traced {log : List StreamEvent} (h : Traced Gated log) (k : ℕ) :
    (log[k]?).all (gated (log.take k)) := by
  cases hk : log[k]? with
  | none => rfl
  | some entry =>
    cases entry with
    | data p e sent => exact covered_iff.mpr (h.get hk p e sent rfl)
    | context | submitted | dropped => rfl

/-- Only the metadata of the second revision have been published when the packet is sent. -/
theorem late_submission_not_covered :
    ¬∀ c generation inputs, Traced Gated (run c (initial c generation) inputs).log := by
  intro hall
  have hdata := gated_of_traced (hall (failingAt []) 1 lateSubmission) 2
  revert hdata
  decide +kernel

end Vita.Context.Publisher
