import Vita.Context.RevisionTheorems

/-!
# The slots of the revision store

What each call does to the slots, with any marks of publication.

Main lemmas:
- `Consistent`: the invariant of the slots, with one preservation lemma for each call;
- `reservedFor`: how many slots are set aside for a reservation, and what each call does to the number.
-/

namespace Vita.Context

open Checked Timing State Transaction

namespace Revision

/-- The slot is set aside for a revision to come. -/
def reserved (r : Revision) : Bool := r.occupied ∧ ¬r.committed

/-- Nothing differs but marks and credits. -/
structure SameAs (r r' : Revision) : Prop where
  event : r'.event = r.event
  id : r'.id = r.id
  reservation : r'.reservation = r.reservation
  occupied : r'.occupied = r.occupied
  committed : r'.committed = r.committed
  detached : r'.detached = r.detached

theorem SameAs.refl (r : Revision) : SameAs r r := ⟨rfl, rfl, rfl, rfl, rfl, rfl⟩

/-- A slot keeps what was written to it, and is not set aside. -/
structure Remains (r r' : Revision) : Prop where
  event : r'.event = r.event
  id : r'.id = r.id
  reservation : r'.reservation = r.reservation
  unreserved : ¬r'.reserved

theorem SameAs.remains {r r' : Revision} (h : SameAs r r') (hc : r.committed) : Remains r r' where
  event := h.event
  id := h.id
  reservation := h.reservation
  unreserved := by simp [reserved, h.committed, hc]

end Revision

namespace RevisionStore

open Revision (SameAs Remains)

variable {n : ℕ} {s s' : RevisionStore} {held : ℕ → Prop}

/-! ## The slots -/

/-- The invariant of the slots; `held` tells which slots have handles. -/
structure Consistent (n : ℕ) (s : RevisionStore) (held : ℕ → Prop) : Prop where
  current : ∀ i, s.current = some i → i < n ∧ s.Live i
  occupied : ∀ i < n, (s.slots i).committed → (s.slots i).occupied
  reserved : ∀ i < n, (s.slots i).reserved →
    ¬(s.slots i).detached ∧ (s.slots i).reservation < s.nextReservation
  present : ∀ i < n, s.Live i → (s.slots i).event.associationGeneration = s.generation
  past : ∀ i < n, (s.slots i).committed → (s.slots i).detached →
    (s.slots i).event.associationGeneration < s.generation
  below : ∀ i < n, (s.slots i).committed → (s.slots i).id < s.nextId
  distinct : ∀ i < n, ∀ j < n, (s.slots i).committed → (s.slots j).committed →
    (s.slots i).id = (s.slots j).id → i = j
  held : ∀ i, held i → i < n ∧ (s.slots i).committed

theorem Consistent.of_held {held' : ℕ → Prop} (h : Consistent n s held)
    (hheld : ∀ i, held' i → i < n ∧ (s.slots i).committed) : Consistent n s held' :=
  { h with held := hheld }

/-- No event is recorded: a slot stays the same, or it has no revision and is nobody's. -/
theorem Consistent.of_slots (h : Consistent n s held) (hcurrent : s'.current = s.current)
    (hgeneration : s'.generation = s.generation) (hid : s'.nextId = s.nextId)
    (hreservation : s.nextReservation ≤ s'.nextReservation)
    (hslot : ∀ i < n, SameAs (s.slots i) (s'.slots i) ∨
      ¬(s'.slots i).committed ∧ s.current ≠ some i ∧ ¬held i ∧
        ((s'.slots i).reserved →
          ¬(s'.slots i).detached ∧ (s'.slots i).reservation < s'.nextReservation)) :
    Consistent n s' held := by
  have hsame : ∀ i < n, (s'.slots i).committed → SameAs (s.slots i) (s'.slots i) := fun i hi hc =>
    (hslot i hi).resolve_right fun hgone => hgone.1 hc
  have hcommitted : ∀ i < n, (s'.slots i).committed → (s.slots i).committed := fun i hi hc => by
    rw [← (hsame i hi hc).committed]
    exact hc
  have hlive : ∀ i < n, s'.Live i → s.Live i := fun i hi hl =>
    ⟨hcommitted i hi hl.1, by rw [← (hsame i hi hl.1).detached]; exact hl.2⟩
  refine ⟨fun i hi => ?_, fun i hi hc => ?_, fun i hi hr => ?_, fun i hi hl => ?_, fun i hi hc hd => ?_,
    fun i hi hc => ?_, fun i hi j hj hci hcj hij => ?_, fun i hi => ?_⟩
  · rw [hcurrent] at hi
    obtain ⟨hlt, hl⟩ := h.current i hi
    have hs := (hslot i hlt).resolve_right fun hgone => hgone.2.1 hi
    refine ⟨hlt, ?_, ?_⟩
    · rw [hs.committed]
      exact hl.1
    · rw [hs.detached]
      exact hl.2
  · rw [(hsame i hi hc).occupied]
    exact h.occupied i hi (hcommitted i hi hc)
  · rcases hslot i hi with hs | ⟨-, -, -, hnew⟩
    · have hr' : (s.slots i).reserved := by
        simpa only [Revision.reserved, hs.occupied, hs.committed] using hr
      obtain ⟨hd, hlt⟩ := h.reserved i hi hr'
      rw [hs.detached, hs.reservation]
      exact ⟨hd, hlt.trans_le hreservation⟩
    · exact hnew hr
  · rw [(hsame i hi hl.1).event, hgeneration]
    exact h.present i hi (hlive i hi hl)
  · have hs := hsame i hi hc
    rw [hs.detached] at hd
    rw [hs.event, hgeneration]
    exact h.past i hi (hcommitted i hi hc) hd
  · rw [(hsame i hi hc).id, hid]
    exact h.below i hi (hcommitted i hi hc)
  · rw [(hsame i hi hci).id, (hsame j hj hcj).id] at hij
    exact h.distinct i hi j hj (hcommitted i hi hci) (hcommitted j hj hcj) hij
  · obtain ⟨hlt, hc⟩ := h.held i hi
    have hs := (hslot i hlt).resolve_right fun hgone => hgone.2.2.1 hi
    rw [hs.committed]
    exact ⟨hlt, hc⟩

/-- An event is recorded in a reserved slot. -/
theorem Consistent.recorded (h : Consistent n s held) {k : ℕ} (hk : k < n)
    (hr : (s.slots k).reserved) {event : EffectiveEvent} {credits : AdmissionBundle}
    (hevent : event.associationGeneration = s.generation) {faulted : Bool}
    {returned : List AdmissionBundle} :
    Consistent n { s.setSlot k { s.slots k with event, credits, id := s.nextId, committed := true
                                                publication := .pending } with
      nextId := s.nextId + 1, current := some k, faulted, returned } held := by
  have hd := (h.reserved k hk hr).1
  simp only [Revision.reserved, decide_eq_true_eq] at hr
  obtain ⟨hocc, hfree⟩ := hr
  refine ⟨fun i hi => ?_, fun i hi hc => ?_, fun i hi hr => ?_, fun i hi hl => ?_, fun i hi hc hd' => ?_,
    fun i hi hc => ?_, fun i hi j hj hci hcj hij => ?_, fun i hi => ?_⟩
  · obtain rfl := Option.some.inj hi
    exact ⟨hk, by simpa [Live, setSlot] using hd⟩
  all_goals
    by_cases hik : i = k
  · subst hik
    simpa [setSlot] using hocc
  · simp only [setSlot, Function.update_of_ne hik] at hc ⊢
    exact h.occupied i hi hc
  · subst hik
    simp [setSlot, Revision.reserved] at hr
  · simp only [setSlot, Function.update_of_ne hik] at hr ⊢
    exact h.reserved i hi hr
  · subst hik
    simpa [setSlot] using hevent
  · simp only [Live, setSlot, Function.update_of_ne hik] at hl ⊢
    exact h.present i hi hl
  · subst hik
    simp only [setSlot, Function.update_self] at hd'
    exact absurd hd' hd
  · simp only [setSlot, Function.update_of_ne hik] at hc hd' ⊢
    exact h.past i hi hc hd'
  · subst hik
    simp [setSlot]
  · simp only [setSlot, Function.update_of_ne hik] at hc ⊢
    exact Nat.lt_succ_of_lt (h.below i hi hc)
  · subst hik
    by_contra hne
    simp only [setSlot, Function.update_self, Function.update_of_ne (Ne.symm hne)] at hcj hij
    exact absurd (h.below j hj hcj) (hij ▸ lt_irrefl _)
  · simp only [setSlot, Function.update_of_ne hik] at hci hij
    by_cases hjk : j = k
    · subst hjk
      simp only [Function.update_self] at hij
      exact absurd (h.below i hi hci) (hij ▸ lt_irrefl _)
    · simp only [setSlot, Function.update_of_ne hjk] at hcj hij
      exact h.distinct i hi j hj hci hcj hij
  · subst hik
    exact absurd (h.held i hi).2 hfree
  · simp only [setSlot, Function.update_of_ne hik]
    exact h.held i hi

/-! ### One lemma for each call -/

/-- What collecting does to a slot. -/
theorem collect_slot (referenced : ℕ → Bool) (i : ℕ) :
    (collect n referenced s).slots i = s.slots i ∨
      (collect n referenced s).slots i =
        { s.slots i with credits := none, occupied := false, committed := false } ∧
      (s.slots i).committed ∧ s.current ≠ some i ∧ ¬(s.slots i).waiting ∧ ¬referenced i := by
  rcases collect_slots (n := n) (s := s) referenced i with ⟨heq, hgone⟩ | heq
  · simp only [collectable, decide_eq_true_eq] at hgone
    obtain ⟨-, hc, hcurrent, hdone, hfree⟩ := hgone
    refine .inr ⟨heq, hc, hcurrent, fun hw => ?_, hfree⟩
    simp only [Revision.waiting, decide_eq_true_eq] at hw
    exact hdone.elim hw.2.1 fun hp => hp hw.2.2
  · exact .inl heq

theorem Consistent.collect (h : Consistent n s held) {referenced : ℕ → Bool}
    (hheld : ∀ i, held i → referenced i) : Consistent n (RevisionStore.collect n referenced s) held := by
  refine h.of_slots rfl rfl rfl le_rfl fun i _ => ?_
  rcases collect_slot (n := n) (s := s) referenced i with heq | ⟨heq, -, hcurrent, -, hfree⟩
  · rw [heq]
    exact .inl (SameAs.refl _)
  · rw [heq]
    exact .inr ⟨Bool.false_ne_true, hcurrent, fun hi => hfree (hheld i hi), by simp [Revision.reserved]⟩

/-- The slots that a reservation of `count` takes. -/
def takenSlots (n : ℕ) (s : RevisionStore) (count : ℕ) : List ℕ :=
  ((List.range n).filter fun i => ¬(s.slots i).occupied).take count

/-- The slots that are set aside are given to a reservation. -/
def take (n : ℕ) (s : RevisionStore) (count : ℕ) : RevisionStore :=
  { s with
    nextReservation := s.nextReservation + 1
    slots := fun i => if i ∈ takenSlots n s count then
        { s.slots i with
          occupied := true, committed := false, detached := false, dataDependency := false
          reservation := s.nextReservation, publication := .pending }
      else s.slots i }

/-- The number of slots that are set aside for the reservations of a kind. -/
def reservedFor (n : ℕ) (p : ℕ → Bool) (s : RevisionStore) : ℕ :=
  (List.range n).countP fun i => (s.slots i).reserved ∧ p (s.slots i).reservation

/-- A reservation collects, and then it is refused or takes free slots. -/
theorem reserve_cases (referenced : ℕ → Bool) (count : ℕ) (s : RevisionStore) :
    (∃ e, reserve n referenced count s = (.error e, s) ∨
      reserve n referenced count s = (.error e, collect n referenced s)) ∨
    (takenSlots n (collect n referenced s) count).length = count ∧
      s.nextReservation ≠ uint64Max ∧
      s.nextId ≤ uint64Max - count - reservedFor n (fun _ => true) (collect n referenced s) ∧
      reserve n referenced count s = (.ok s.nextReservation, take n (collect n referenced s) count) := by
  unfold reserve
  split
  · exact .inl ⟨_, .inl rfl⟩
  · dsimp only
    split
    · exact .inl ⟨_, .inr rfl⟩
    · next hfree =>
      split
      · exact .inl ⟨_, .inr rfl⟩
      · next hroom =>
        simp only [not_or, not_lt, gt_iff_lt] at hroom hfree
        refine .inr ⟨?_, hroom.1, ?_, rfl⟩
        · rw [takenSlots, List.length_take, Nat.min_eq_left hfree]
        · show (collect n referenced s).nextId ≤ _
          simpa only [reservedFor, Revision.reserved, and_true, Bool.decide_eq_true] using hroom.2

theorem mem_takenSlots {count i : ℕ} (hi : i ∈ takenSlots n s count) : i < n ∧ ¬(s.slots i).occupied := by
  have hmem := List.mem_of_mem_take hi
  simp only [List.mem_filter, List.mem_range, decide_eq_true_eq] at hmem
  exact hmem

/-- New reservations take slots that nobody holds. -/
theorem Consistent.take (h : Consistent n s held) (count : ℕ) :
    Consistent n (RevisionStore.take n s count) held := by
  refine h.of_slots rfl rfl rfl (Nat.le_succ _) fun i hi => ?_
  by_cases htaken : i ∈ takenSlots n s count
  · have hfree := (mem_takenSlots htaken).2
    simp only [RevisionStore.take, if_pos htaken]
    refine .inr ⟨Bool.false_ne_true, fun hcur => ?_, fun hh => ?_, fun _ =>
      ⟨Bool.false_ne_true, Nat.lt_succ_self _⟩⟩
    · exact hfree (h.occupied i hi (h.current i hcur).2.1)
    · exact hfree (h.occupied i hi (h.held i hh).2)
  · simp only [RevisionStore.take, if_neg htaken]
    exact .inl (SameAs.refl _)

/-- What giving a reservation back does to a slot. -/
theorem release_slot (token i : ℕ) : (release n token s).slots i = s.slots i ∨
    (release n token s).slots i = { s.slots i with occupied := false } ∧
      (s.slots i).reserved ∧ (s.slots i).reservation = token := by
  simp only [release]
  split
  · next hcond =>
    exact .inr ⟨rfl, by simp [Revision.reserved, hcond.2.1, hcond.2.2.1], hcond.2.2.2⟩
  · exact .inl rfl

theorem Consistent.release (h : Consistent n s held) (token : ℕ) :
    Consistent n (RevisionStore.release n token s) held := by
  refine h.of_slots rfl rfl rfl le_rfl fun i hi => ?_
  rcases release_slot (n := n) (s := s) token i with heq | ⟨heq, hr, -⟩
  · rw [heq]
    exact .inl (SameAs.refl _)
  · simp only [Revision.reserved, decide_eq_true_eq] at hr
    rw [heq]
    exact .inr ⟨hr.2, fun hcur => hr.2 (h.current i hcur).2.1, fun hh => hr.2 (h.held i hh).2,
      by simp [Revision.reserved]⟩

/-- An event is refused, or it takes a slot of its reservation. -/
theorem record_spec (event : EffectiveEvent) (token : ℕ) (credits : AdmissionBundle)
    (s : RevisionStore) :
    (∃ faulted : Bool, record n event token credits s =
        { s with faulted, returned := s.returned ++ [credits] } ∧
      (event.associationGeneration = s.generation →
        ∀ i < n, (s.slots i).reserved → (s.slots i).reservation ≠ token)) ∨
    ∃ k < n, (s.slots k).reserved ∧ (s.slots k).reservation = token ∧
      event.associationGeneration = s.generation ∧
      record n event token credits s =
        { s.setSlot k { s.slots k with event, credits, id := s.nextId, committed := true
                                       publication := .pending } with
          nextId := s.nextId + 1, current := some k
          faulted := s.faulted ∨ ¬requiredKnown event.state } := by
  unfold record
  split
  · next hgen => exact .inl ⟨s.faulted, rfl, fun h => absurd h hgen⟩
  · next hgen =>
    split
    · next hfind =>
      refine .inl ⟨true, rfl, fun _ i hi hr heq => ?_⟩
      have hnot := List.find?_eq_none.mp hfind i (List.mem_range.mpr hi)
      simp only [Revision.reserved, decide_eq_true_eq] at hr hnot
      exact hnot ⟨hr.1, hr.2, heq⟩
    · next k hfind =>
      have hlt := List.mem_range.mp (List.mem_of_find?_eq_some hfind)
      have hp := List.find?_some hfind
      simp only [decide_eq_true_eq] at hp
      exact .inr ⟨k, hlt, by simp [Revision.reserved, hp.1, hp.2.1], hp.2.2, not_not.mp hgen, rfl⟩

/-- A call that only sets marks, and marks publication only in the present association. -/
structure Marks (n : ℕ) (s s' : RevisionStore) : Prop where
  slot : ∀ i, SameAs (s.slots i) (s'.slots i)
  publication : ∀ i, (s'.slots i).publication = (s.slots i).publication ∨ i < n ∧ s.Live i
  current : s'.current = s.current
  generation : s'.generation = s.generation
  nextId : s'.nextId = s.nextId
  nextReservation : s'.nextReservation = s.nextReservation

theorem Consistent.marks (h : Consistent n s held) (hm : Marks n s s') : Consistent n s' held :=
  h.of_slots hm.current hm.generation hm.nextId (le_of_eq hm.nextReservation.symm) fun i _ =>
    .inl (hm.slot i)

/-- An accepted group only sets marks. -/
theorem marks_acceptGroup {k : ℕ} (h : acceptGroup n k s = .ok s') : Marks n s s' := by
  have hslot := acceptGroup_slot h
  obtain ⟨r, -, -, rfl⟩ := acceptGroup_eq_ok h
  refine ⟨fun i => ?_, fun i => ?_, rfl, rfl, rfl, rfl⟩
  · rw [hslot i]
    exact ⟨rfl, rfl, rfl, rfl, rfl, rfl⟩
  · rw [hslot i]
    unfold acceptedMark
    split
    · next hin =>
      obtain ⟨hi, hin⟩ := hin
      simp only [inGroup, Revision.waiting, decide_eq_true_eq] at hin
      exact .inr ⟨hi, hin.1.1, hin.1.2.1⟩
    · exact .inl rfl

/-- A publication is marked in the slot of the revision. -/
theorem markPublication_eq_ok {k : ℕ} {status : Publication} (h : markPublication n k status s = .ok s') :
    ∃ i < n, s.Live i ∧ (s.slots i).id = (s.slots k).id ∧
      (s.slots i).event.associationGeneration = s.generation ∧
      s' = s.setSlot i { s.slots i with publication := status } := by
  unfold markPublication at h
  split at h
  · cases h
  · next i hfind =>
    have hp := List.find?_some hfind
    simp only [decide_eq_true_eq] at hp
    exact ⟨i, List.mem_range.mp (List.mem_of_find?_eq_some hfind), ⟨hp.1, hp.2.1⟩, hp.2.2.1, hp.2.2.2,
      (Except.ok.inj h).symm⟩

/-- A publication only sets a mark. -/
theorem marks_markPublication {k : ℕ} {status : Publication}
    (h : markPublication n k status s = .ok s') : Marks n s s' := by
  obtain ⟨j, hj, hlive, -, -, rfl⟩ := markPublication_eq_ok h
  refine ⟨fun i => ?_, fun i => ?_, rfl, rfl, rfl, rfl⟩
  all_goals
    by_cases hij : i = j
  · subst hij
    simp only [setSlot, Function.update_self]
    exact ⟨rfl, rfl, rfl, rfl, rfl, rfl⟩
  · simp only [setSlot, Function.update_of_ne hij]
    exact SameAs.refl _
  · subst hij
    exact .inr ⟨hj, hlive⟩
  · simp only [setSlot, Function.update_of_ne hij]
    exact .inl trivial

theorem marks_noteDataDependency {k : ℕ} (h : noteDataDependency n k s = .ok s') : Marks n s s' := by
  have hslot := noteDataDependency_slots h
  obtain ⟨-, rfl⟩ := noteDataDependency_eq_ok.mp h
  refine ⟨fun i => ?_, fun i => ?_, rfl, rfl, rfl, rfl⟩
  · rw [hslot i]
    exact ⟨rfl, rfl, rfl, rfl, rfl, rfl⟩
  · rw [hslot i]
    exact .inl rfl

theorem marks_fault (s : RevisionStore) : Marks n s { s with faulted := true } :=
  ⟨fun _ => SameAs.refl _, fun _ => .inl rfl, rfl, rfl, rfl, rfl⟩

/-- What the end of an association does to a slot, before anything is collected. -/
theorem detachedSlots_cases (i : ℕ) :
    detachedSlots n s i = s.slots i ∧ (i < n → ¬(s.slots i).occupied) ∨
    detachedSlots n s i = { s.slots i with detached := true } ∧ (s.slots i).occupied ∧
      (s.slots i).committed ∨
    detachedSlots n s i = { s.slots i with occupied := false } ∧ ¬(s.slots i).committed := by
  simp only [detachedSlots]
  split
  · next hocc =>
    split
    · next hc => exact .inr (.inl ⟨rfl, hocc.2, hc⟩)
    · next hc => exact .inr (.inr ⟨rfl, hc⟩)
  · next hocc => exact .inl ⟨rfl, fun hi ho => hocc ⟨hi, ho⟩⟩

theorem detach_eq_ok {referenced : ℕ → Bool} {generation : ℕ} :
    detach n referenced generation s = .ok s' ↔ s.generation < generation ∧
      s' = collect n referenced
        { s with slots := detachedSlots n s, current := none, generation, faulted := false } := by
  simp only [detach, bind_eq_ok, rejectIf_eq_ok, pure_eq_ok, Except.ok.injEq, not_le]
  constructor
  · rintro ⟨_, hlt, rfl⟩
    exact ⟨hlt, rfl⟩
  · rintro ⟨hlt, rfl⟩
    exact ⟨(), hlt, rfl⟩

/-- A detachment frees the slots that no handle refers to. -/
theorem Consistent.detachedSlots (h : Consistent n s held) {generation : ℕ}
    (hlt : s.generation < generation) {faulted : Bool} :
    Consistent n { s with slots := RevisionStore.detachedSlots n s, current := none, generation
                          faulted } held := by
  have hslot : ∀ i < n, (RevisionStore.detachedSlots n s i).committed →
      (s.slots i).committed ∧ RevisionStore.detachedSlots n s i = { s.slots i with detached := true } := by
    intro i hi hc
    rcases detachedSlots_cases (n := n) (s := s) i with ⟨heq, hfree⟩ | ⟨heq, -, hcs⟩ | ⟨heq, hcs⟩
    · rw [heq] at hc
      exact absurd (h.occupied i hi hc) (hfree hi)
    · exact ⟨hcs, heq⟩
    · rw [heq] at hc
      exact absurd hc hcs
  have hreserved : ∀ i < n, ¬(RevisionStore.detachedSlots n s i).reserved := by
    intro i hi hr
    simp only [Revision.reserved, decide_eq_true_eq] at hr
    rcases detachedSlots_cases (n := n) (s := s) i with ⟨heq, hfree⟩ | ⟨heq, -, hcs⟩ | ⟨heq, -⟩ <;>
      rw [heq] at hr
    · exact hfree hi hr.1
    · exact hr.2 hcs
    · exact Bool.false_ne_true hr.1
  refine ⟨fun i hi => ?_, fun i hi hc => ?_, fun i hi hr => ?_, fun i hi hl => ?_, fun i hi hc _ => ?_,
    fun i hi hc => ?_, fun i hi j hj hci hcj hij => ?_, fun i hi => ?_⟩
  · cases hi
  · obtain ⟨hcs, heq⟩ := hslot i hi hc
    dsimp only
    rw [heq]
    exact h.occupied i hi hcs
  · exact absurd hr (hreserved i hi)
  · obtain ⟨hc, hnd⟩ := hl
    obtain ⟨-, heq⟩ := hslot i hi hc
    dsimp only at hnd
    rw [heq] at hnd
    exact absurd rfl hnd
  · obtain ⟨hcs, heq⟩ := hslot i hi hc
    dsimp only
    rw [heq]
    show (s.slots i).event.associationGeneration < generation
    by_cases hd : (s.slots i).detached
    · exact (h.past i hi hcs hd).trans hlt
    · rw [h.present i hi ⟨hcs, hd⟩]
      exact hlt
  · obtain ⟨hcs, heq⟩ := hslot i hi hc
    dsimp only
    rw [heq]
    exact h.below i hi hcs
  · obtain ⟨hcs, heq⟩ := hslot i hi hci
    obtain ⟨hcs', heq'⟩ := hslot j hj hcj
    dsimp only at hij
    rw [heq, heq'] at hij
    exact h.distinct i hi j hj hcs hcs' hij
  · obtain ⟨hlt', hcs⟩ := h.held i hi
    refine ⟨hlt', ?_⟩
    simp [RevisionStore.detachedSlots, hlt', h.occupied i hlt' hcs, hcs]

/-! ## What a reservation has left -/

/-- Two ways to count that differ at one place. -/
theorem countP_range_change {p q : ℕ → Bool} {k m : ℕ} (hk : k < m) (h : ∀ i < m, i ≠ k → p i = q i) :
    (List.range m).countP p + (q k).toNat = (List.range m).countP q + (p k).toNat := by
  induction m with
  | zero => exact absurd hk (Nat.not_lt_zero k)
  | succ m ih =>
    simp only [List.range_succ, List.countP_append, List.countP_singleton]
    by_cases hkm : k = m
    · subst hkm
      have hsame : (List.range k).countP p = (List.range k).countP q :=
        List.countP_congr fun i hi => by
          have hi' := List.mem_range.mp hi
          rw [h i (hi'.trans (Nat.lt_succ_self k)) (Nat.ne_of_lt hi')]
      rw [hsame]
      cases p k <;> cases q k <;> simp
    · have hlt : k < m := by omega
      have hrest := ih hlt fun i hi => h i (hi.trans (Nat.lt_succ_self m))
      rw [h m (Nat.lt_succ_self m) (Ne.symm hkm)]
      omega

theorem reservedFor_congr {p : ℕ → Bool} (h : ∀ i < n,
    ((s'.slots i).reserved ∧ p (s'.slots i).reservation ↔ (s.slots i).reserved ∧ p (s.slots i).reservation)) :
    reservedFor n p s' = reservedFor n p s :=
  List.countP_congr fun i hi => by
    simpa only [decide_eq_true_eq] using h i (List.mem_range.mp hi)

theorem reservedFor_marks (hm : Marks n s s') (p : ℕ → Bool) :
    reservedFor n p s' = reservedFor n p s :=
  reservedFor_congr fun i _ => by
    have hs := hm.slot i
    simp only [Revision.reserved, hs.occupied, hs.committed, hs.reservation]

theorem reservedFor_collect (referenced : ℕ → Bool) (p : ℕ → Bool) :
    reservedFor n p (collect n referenced s) = reservedFor n p s := by
  refine reservedFor_congr fun i _ => ?_
  rcases collect_slot (n := n) (s := s) referenced i with heq | ⟨heq, hc, -⟩
  · rw [heq]
  · rw [heq]
    simp [Revision.reserved, hc]

/-- The slots that are taken are the only new ones. -/
theorem reservedFor_take (count : ℕ) (p : ℕ → Bool) :
    reservedFor n p (take n s count) =
      reservedFor n p s + if p s.nextReservation then (takenSlots n s count).length else 0 := by
  have hnodup : (takenSlots n s count).Nodup :=
    (List.nodup_range.filter _).sublist (List.take_sublist _ _)
  have hperm : ((List.range n).filter (· ∈ takenSlots n s count)).Perm (takenSlots n s count) := by
    refine (List.perm_ext_iff_of_nodup (List.nodup_range.filter _) hnodup).mpr fun i => ?_
    simp only [List.mem_filter, List.mem_range, decide_eq_true_eq, and_iff_right_iff_imp]
    exact fun hi => (mem_takenSlots hi).1
  unfold reservedFor
  rw [List.countP_eq_countP_filter_add (List.range n) _ (· ∈ takenSlots n s count),
    List.countP_eq_countP_filter_add (List.range n) (fun i => decide ((s.slots i).reserved ∧ _))
      (· ∈ takenSlots n s count)]
  have hnew : ((List.range n).filter (· ∈ takenSlots n s count)).countP (fun i =>
      ((take n s count).slots i).reserved ∧ p ((take n s count).slots i).reservation) =
        if p s.nextReservation then (takenSlots n s count).length else 0 := by
    rw [hperm.countP_eq]
    split
    · next hp =>
      refine List.countP_eq_length.mpr fun i hi => ?_
      simp [take, hi, Revision.reserved, hp]
    · next hp =>
      refine List.countP_eq_zero.mpr fun i hi => ?_
      simp [take, hi, hp]
  have hold : ((List.range n).filter (· ∈ takenSlots n s count)).countP (fun i =>
      (s.slots i).reserved ∧ p (s.slots i).reservation) = 0 := by
    refine List.countP_eq_zero.mpr fun i hi => ?_
    have hfree := (mem_takenSlots (hperm.mem_iff.mp hi)).2
    simp [Revision.reserved, hfree]
  have hrest : ((List.range n).filter (fun i => !decide (i ∈ takenSlots n s count))).countP (fun i =>
      ((take n s count).slots i).reserved ∧ p ((take n s count).slots i).reservation) =
        ((List.range n).filter (fun i => !decide (i ∈ takenSlots n s count))).countP fun i =>
          (s.slots i).reserved ∧ p (s.slots i).reservation := by
    refine List.countP_congr fun i hi => ?_
    have hnot : i ∉ takenSlots n s count := by simpa using (List.mem_filter.mp hi).2
    simp [take, hnot]
  rw [hnew, hold, hrest]
  omega

/-- A release gives the reservations of one token back. -/
theorem reservedFor_release (token : ℕ) (p : ℕ → Bool) :
    reservedFor n p (release n token s) = reservedFor n (fun t => p t ∧ t ≠ token) s := by
  refine List.countP_congr fun i hi => ?_
  simp only [release, decide_eq_true_eq, Revision.reserved, List.mem_range.mp hi, true_and]
  split
  · next hcond =>
    simp [hcond]
  · next hcond =>
    simp only [not_and] at hcond
    constructor
    · rintro ⟨hr, hp⟩
      exact ⟨hr, hp, hcond hr.1 hr.2⟩
    · rintro ⟨hr, hp, -⟩
      exact ⟨hr, hp⟩

/-- After a detach nothing is reserved. -/
theorem reservedFor_detach {referenced : ℕ → Bool} {generation : ℕ}
    (h : detach n referenced generation s = .ok s') (p : ℕ → Bool) : reservedFor n p s' = 0 := by
  obtain ⟨-, rfl⟩ := detach_eq_ok.mp h
  rw [reservedFor_collect]
  refine List.countP_eq_zero.mpr fun i hi => ?_
  simp only [decide_eq_true_eq, Revision.reserved, not_and]
  intro hr
  rcases detachedSlots_cases (n := n) (s := s) i with ⟨heq, hfree⟩ | ⟨heq, -, hcs⟩ | ⟨heq, -⟩ <;>
    rw [heq] at hr
  · exact absurd hr.1 (hfree (List.mem_range.mp hi))
  · exact absurd hcs hr.2
  · exact absurd hr.1 Bool.false_ne_true

end RevisionStore

end Vita.Context
