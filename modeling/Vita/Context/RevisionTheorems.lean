import Vita.Context.Revisions

/-!
# Invariants of the revision store

A revision that is referred to keeps its slot, and the event of a slot changes only when the slot is
used for a new revision.

Main lemmas:
- `Sound`: the invariant, with one preservation lemma for each operation;
- `acceptGroup_spec`: which revisions are accepted together, and what they have in common;
- `waiting_acceptGroup`: accepting a group leaves fewer revisions that wait for publication.
-/

namespace Vita.Context.RevisionStore

open Checked Timing State Transaction

variable {n : ℕ}

/-- A slot with an event of the present association. -/
def Live (s : RevisionStore) (i : ℕ) : Prop := (s.slots i).committed ∧ ¬(s.slots i).detached

/-- The invariant of a store; `refers` tells which slots are referred to. -/
structure Sound (n : ℕ) (s : RevisionStore) (refers : ℕ → Prop) : Prop where
  current : ∀ i, s.current = some i → i < n ∧ s.Live i
  occupied : ∀ i < n, (s.slots i).committed → (s.slots i).occupied
  reserved : ∀ i < n, (s.slots i).occupied → ¬(s.slots i).committed → ¬(s.slots i).detached
  generation : ∀ i < n, s.Live i → (s.slots i).event.associationGeneration = s.generation
  below : ∀ i < n, (s.slots i).committed → (s.slots i).id < s.nextId
  distinct : ∀ i < n, ∀ j < n, (s.slots i).committed → (s.slots j).committed →
    (s.slots i).id = (s.slots j).id → i = j
  known : ¬s.faulted → ∀ i < n, s.Live i → requiredKnown (s.slots i).event.state
  unfailed : ∀ i < n, (s.slots i).committed → (s.slots i).publication ≠ .failed
  referred : ∀ i, refers i → i < n ∧ (s.slots i).committed

variable {s s' : RevisionStore} {refers : ℕ → Prop}

theorem Sound.of_refers {refers' : ℕ → Prop} (h : Sound n s refers)
    (hrefers : ∀ i, refers' i → i < n ∧ (s.slots i).committed) : Sound n s refers' :=
  { h with referred := hrefers }

theorem Sound.fault (h : Sound n s refers) : Sound n { s with faulted := true } refers :=
  { h with known := fun hf => absurd rfl hf }

/-! ## Operations that add no revision -/

/-- Every revision of the second store is one of the first, up to the marks of publication. -/
structure Keeps (n : ℕ) (s s' : RevisionStore) : Prop where
  current : ∀ i, s'.current = some i → s.current = some i ∧ s'.Live i
  nextId : s'.nextId = s.nextId
  generation : s'.generation = s.generation
  faulted : s.faulted → s'.faulted
  slot : ∀ i < n, (s'.slots i).committed → s'.slots i =
    { s.slots i with
      publication := (s'.slots i).publication, dataDependency := (s'.slots i).dataDependency }
  reserved : ∀ i < n, (s'.slots i).occupied → ¬(s'.slots i).committed → ¬(s'.slots i).detached ∨
    (s.slots i).occupied ∧ ¬(s.slots i).committed ∧ (s'.slots i).detached = (s.slots i).detached
  unfailed : ∀ i < n, (s'.slots i).committed → (s'.slots i).publication = .failed →
    (s.slots i).publication = .failed

theorem Keeps.committed (h : Keeps n s s') {i : ℕ} (hi : i < n) (hc : (s'.slots i).committed) :
    (s.slots i).committed := by
  rw [h.slot i hi hc] at hc
  exact hc

theorem Keeps.live (h : Keeps n s s') {i : ℕ} (hi : i < n) (hl : s'.Live i) : s.Live i := by
  obtain ⟨hc, hd⟩ := hl
  rw [h.slot i hi hc] at hd
  exact ⟨h.committed hi hc, hd⟩

theorem Keeps.event (h : Keeps n s s') {i : ℕ} (hi : i < n) (hc : (s'.slots i).committed) :
    (s'.slots i).event = (s.slots i).event ∧ (s'.slots i).id = (s.slots i).id := by
  rw [h.slot i hi hc]
  exact ⟨rfl, rfl⟩

/-- A store that keeps its revisions is as sound as before. -/
theorem Sound.of_keeps (h : Sound n s refers) (hk : Keeps n s s')
    (href : ∀ i, refers i → (s'.slots i).committed) : Sound n s' refers where
  current i hi := by
    obtain ⟨hcur, hlive⟩ := hk.current i hi
    exact ⟨(h.current i hcur).1, hlive⟩
  occupied i hi hc := by
    have ho := h.occupied i hi (hk.committed hi hc)
    rw [hk.slot i hi hc]
    exact ho
  reserved i hi ho hc := by
    rcases hk.reserved i hi ho hc with hd | ⟨ho', hc', hd⟩
    · exact hd
    · rw [hd]
      exact h.reserved i hi ho' hc'
  generation i hi hl := by
    rw [(hk.event hi hl.1).1, hk.generation]
    exact h.generation i hi (hk.live hi hl)
  below i hi hc := by
    rw [(hk.event hi hc).2, hk.nextId]
    exact h.below i hi (hk.committed hi hc)
  distinct i hi j hj hci hcj hid := by
    rw [(hk.event hi hci).2, (hk.event hj hcj).2] at hid
    exact h.distinct i hi j hj (hk.committed hi hci) (hk.committed hj hcj) hid
  known hf i hi hl := by
    rw [(hk.event hi hl.1).1]
    exact h.known (fun hs => hf (hk.faulted hs)) i hi (hk.live hi hl)
  unfailed i hi hc hfailed := h.unfailed i hi (hk.committed hi hc) (hk.unfailed i hi hc hfailed)
  referred i hi := ⟨(h.referred i hi).1, href i hi⟩

/-- What two steps keep, both together keep. -/
theorem Keeps.trans {s'' : RevisionStore} (h : Keeps n s s') (h' : Keeps n s' s'') : Keeps n s s'' where
  current i hi := by
    obtain ⟨hcur, hlive⟩ := h'.current i hi
    exact ⟨(h.current i hcur).1, hlive⟩
  nextId := h'.nextId.trans h.nextId
  generation := h'.generation.trans h.generation
  faulted hf := h'.faulted (h.faulted hf)
  slot i hi hc := by
    have hs' := h.slot i hi (h'.committed hi hc)
    rw [h'.slot i hi hc, hs']
  reserved i hi ho hc := by
    rcases h'.reserved i hi ho hc with hd | ⟨ho', hc', hd⟩
    · exact .inl hd
    · rcases h.reserved i hi ho' hc' with hd' | ⟨ho'', hc'', hd'⟩
      · exact .inl (hd ▸ hd')
      · exact .inr ⟨ho'', hc'', hd.trans hd'⟩
  unfailed i hi hc hf := h.unfailed i hi (h'.committed hi hc) (h'.unfailed i hi hc hf)

/-- A store that differs only by slots without a revision. -/
theorem keeps_of_slots {slots : ℕ → Revision} {reservation : ℕ} {returned : List AdmissionBundle}
    (hslots : ∀ i, (slots i).committed → slots i = s.slots i)
    (hcurrent : ∀ i, s.current = some i → s.Live i ∧ slots i = s.slots i)
    (hreserved : ∀ i < n, (slots i).occupied → ¬(slots i).committed → ¬(slots i).detached ∨
      (s.slots i).occupied ∧ ¬(s.slots i).committed ∧ (slots i).detached = (s.slots i).detached) :
    Keeps n s { s with slots, nextReservation := reservation, returned } where
  current i hi := by
    obtain ⟨hlive, heq⟩ := hcurrent i hi
    refine ⟨hi, ?_⟩
    unfold Live at hlive ⊢
    simpa only [heq] using hlive
  nextId := rfl
  generation := rfl
  faulted h := h
  slot i _ hc := by
    have heq := hslots i hc
    simp only [heq]
  reserved := hreserved
  unfailed i _ hc hfailed := by
    rw [← hslots i hc]
    exact hfailed

/-! ### Collection and reservation -/

theorem collect_slots (referenced : ℕ → Bool) (i : ℕ) :
    (collect n referenced s).slots i =
        { s.slots i with credits := none, occupied := false, committed := false } ∧
      s.collectable referenced i ∨ (collect n referenced s).slots i = s.slots i := by
  simp only [collect]
  split
  · next hmem =>
    exact .inl ⟨rfl, (List.mem_filter.mp hmem).2⟩
  · exact .inr rfl

theorem collect_slot_of_committed {referenced : ℕ → Bool} {i : ℕ}
    (h : ((collect n referenced s).slots i).committed) :
    (collect n referenced s).slots i = s.slots i := by
  rcases collect_slots (n := n) (s := s) referenced i with ⟨heq, -⟩ | heq
  · rw [heq] at h
    exact absurd h Bool.false_ne_true
  · exact heq

theorem collect_slot_of_current {referenced : ℕ → Bool} {i : ℕ} (h : s.current = some i) :
    (collect n referenced s).slots i = s.slots i := by
  rcases collect_slots (n := n) (s := s) referenced i with ⟨-, hgone⟩ | heq
  · simp only [collectable, decide_eq_true_eq] at hgone
    exact absurd h hgone.2.2.1
  · exact heq

theorem collect_slot_of_referenced {referenced : ℕ → Bool} {i : ℕ} (h : referenced i) :
    (collect n referenced s).slots i = s.slots i := by
  rcases collect_slots (n := n) (s := s) referenced i with ⟨-, hgone⟩ | heq
  · simp only [collectable, decide_eq_true_eq] at hgone
    exact absurd h hgone.2.2.2.2
  · exact heq

theorem Sound.collect_keeps (h : Sound n s refers) (referenced : ℕ → Bool) :
    Keeps n s (collect n referenced s) :=
  keeps_of_slots (fun _ hc => collect_slot_of_committed hc)
    (fun i hi => ⟨(h.current i hi).2, collect_slot_of_current hi⟩) fun i _ ho hc => by
      split at ho
      · exact absurd ho Bool.false_ne_true
      · next hnot =>
        rw [if_neg hnot] at hc ⊢
        exact .inr ⟨ho, hc, rfl⟩

theorem Sound.collect (h : Sound n s refers) {referenced : ℕ → Bool}
    (hreferenced : ∀ i, refers i → referenced i) :
    Sound n (RevisionStore.collect n referenced s) refers := by
  refine h.of_keeps (h.collect_keeps referenced) fun i hi => ?_
  rw [collect_slot_of_referenced (hreferenced i hi)]
  exact (h.referred i hi).2

/-- A reservation takes slots that are not occupied. -/
theorem reserve_spec (h : Sound n s refers) {referenced : ℕ → Bool}
    (hreferenced : ∀ i, refers i → referenced i) (count : ℕ) :
    (Keeps n s (reserve n referenced count s).2 ∧ Sound n (reserve n referenced count s).2 refers) ∧
      ∀ i, ((reserve n referenced count s).2.slots i).committed →
        (reserve n referenced count s).2.slots i = s.slots i := by
  have hcollect := h.collect hreferenced
  have hkeeps := h.collect_keeps referenced
  have hsame : ∀ i, ((RevisionStore.collect n referenced s).slots i).committed →
      (RevisionStore.collect n referenced s).slots i = s.slots i := fun i => collect_slot_of_committed
  unfold reserve
  split
  · exact ⟨⟨keeps_of_slots (fun _ _ => rfl) (fun i hi => ⟨(h.current i hi).2, rfl⟩)
      fun i _ ho hc => .inr ⟨ho, hc, rfl⟩, h⟩, fun _ _ => rfl⟩
  · dsimp only
    split
    · exact ⟨⟨hkeeps, hcollect⟩, hsame⟩
    · split
      · exact ⟨⟨hkeeps, hcollect⟩, hsame⟩
      · -- the slots that are taken were free
        generalize RevisionStore.collect n referenced s = r at hcollect hkeeps hsame ⊢
        have hfree : ∀ i ∈ ((List.range n).filter fun i => ¬(r.slots i).occupied).take count,
            ¬(r.slots i).committed := by
          intro i hi hc
          have hmem := List.mem_of_mem_take hi
          simp only [List.mem_filter, List.mem_range, decide_eq_true_eq] at hmem
          exact hmem.2 (hcollect.occupied i hmem.1 hc)
        have hk : Keeps n r { r with
            nextReservation := r.nextReservation + 1
            slots := fun i =>
              if i ∈ ((List.range n).filter fun i => ¬(r.slots i).occupied).take count then
                { r.slots i with
                  occupied := true, committed := false, detached := false, dataDependency := false
                  reservation := r.nextReservation, publication := .pending }
              else r.slots i } := by
          refine keeps_of_slots (fun i hc => ?_) (fun i hi => ?_) fun i _ ho hc => ?_
          · split at hc
            · exact absurd hc Bool.false_ne_true
            · next hi => rw [if_neg hi]
          · obtain ⟨-, hlive⟩ := hcollect.current i hi
            exact ⟨hlive, if_neg fun hmem => hfree i hmem hlive.1⟩
          · split at ho
            · next hi =>
              rw [if_pos hi]
              exact .inl Bool.false_ne_true
            · next hi =>
              rw [if_neg hi] at hc ⊢
              exact .inr ⟨ho, hc, rfl⟩
        refine ⟨⟨hkeeps.trans hk, hcollect.of_keeps hk fun i hi => ?_⟩, fun i hc => ?_⟩
        · obtain ⟨-, hc⟩ := hcollect.referred i hi
          dsimp only
          rw [if_neg fun hmem => hfree i hmem hc]
          exact hc
        · dsimp only at hc ⊢
          split at hc
          · exact absurd hc Bool.false_ne_true
          · next hi =>
            rw [if_neg hi]
            exact hsame i hc

theorem release_slot_of_committed {token i : ℕ} (h : ((release n token s).slots i).committed) :
    (release n token s).slots i = s.slots i := by
  have hcommitted : ((release n token s).slots i).committed = (s.slots i).committed := by
    simp only [release]
    split <;> rfl
  rw [hcommitted] at h
  simp [release, h]

/-- A release keeps the revisions. -/
theorem Sound.release_keeps (h : Sound n s refers) (token : ℕ) : Keeps n s (release n token s) := by
  refine keeps_of_slots (fun i hc => release_slot_of_committed hc) (fun i hi => ?_) fun i _ ho hc => ?_
  · have hlive := (h.current i hi).2
    have hc := hlive.1
    exact ⟨hlive, by simp [hc]⟩
  · dsimp only at ho hc ⊢
    split at ho
    · exact absurd ho Bool.false_ne_true
    · next hnot =>
      rw [if_neg hnot] at hc ⊢
      exact .inr ⟨ho, hc, rfl⟩

theorem Sound.release (h : Sound n s refers) (token : ℕ) :
    Sound n (RevisionStore.release n token s) refers := by
  refine h.of_keeps (h.release_keeps token) fun i hi => ?_
  have hc := (h.referred i hi).2
  simp [RevisionStore.release, hc]

/-! ### Data dependencies -/

theorem noteDataDependency_eq_ok {h : ℕ} :
    noteDataDependency n h s = .ok s' ↔ (h < n ∧ s.Live h) ∧
      s' = s.setSlot h { s.slots h with dataDependency := true } := by
  simp only [noteDataDependency, bind_eq_ok, rejectIf_eq_ok, pure_eq_ok, Except.ok.injEq, Live]
  constructor
  · rintro ⟨_, hcond, rfl⟩
    exact ⟨by simpa using hcond, rfl⟩
  · rintro ⟨hcond, rfl⟩
    exact ⟨(), by simpa using hcond, rfl⟩

/-- Only the mark of one slot changes. -/
theorem noteDataDependency_slots {h : ℕ} (hnote : noteDataDependency n h s = .ok s') (i : ℕ) :
    s'.slots i = { s.slots i with dataDependency := (s.slots i).dataDependency ∨ i = h } := by
  obtain ⟨-, rfl⟩ := noteDataDependency_eq_ok.mp hnote
  by_cases hi : i = h
  · subst hi
    simp [setSlot]
  · simp [setSlot, hi]

/-- A dependency of Data keeps the revisions. -/
theorem Sound.note_keeps (h : Sound n s refers) {k : ℕ} (hnote : noteDataDependency n k s = .ok s') :
    Keeps n s s' := by
  have hslots := noteDataDependency_slots hnote
  obtain ⟨-, rfl⟩ := noteDataDependency_eq_ok.mp hnote
  refine ⟨fun i hi => ⟨hi, ?_⟩, rfl, rfl, fun hf => hf, fun i _ _ => ?_, fun i _ ho hc => ?_,
    fun i _ _ hf => ?_⟩
  · have hlive := (h.current i hi).2
    unfold Live
    rw [hslots i]
    exact hlive
  · rw [hslots i]
  · rw [hslots i] at ho hc ⊢
    exact .inr ⟨ho, hc, rfl⟩
  · rw [hslots i] at hf
    exact hf

theorem Sound.note (h : Sound n s refers) {k : ℕ} (hnote : noteDataDependency n k s = .ok s') :
    Sound n s' refers := by
  refine h.of_keeps (h.note_keeps hnote) fun i hi => ?_
  rw [noteDataDependency_slots hnote i]
  exact (h.referred i hi).2

/-! ## New revisions -/

/-- An event is not taken, or it takes a free slot of its reservation. -/
theorem record_cases (event : EffectiveEvent) (token : ℕ) (credits : AdmissionBundle)
    (s : RevisionStore) :
    (∃ faulted : Bool, (s.faulted → faulted) ∧ record n event token credits s =
      { s with faulted := faulted, returned := s.returned ++ [credits] }) ∨
    ∃ i < n, ¬(s.slots i).committed ∧ (s.slots i).occupied ∧
      event.associationGeneration = s.generation ∧
      record n event token credits s =
        { s.setSlot i { s.slots i with event, credits, id := s.nextId, committed := true
                                       publication := .pending } with
          nextId := s.nextId + 1, current := some i
          faulted := s.faulted ∨ ¬requiredKnown event.state } := by
  unfold record
  split
  · exact .inl ⟨s.faulted, fun h => h, rfl⟩
  · next hgen =>
    split
    · exact .inl ⟨true, fun _ => rfl, rfl⟩
    · next i hfind =>
      have hlt := List.mem_range.mp (List.mem_of_find?_eq_some hfind)
      have hp := List.find?_some hfind
      simp only [decide_eq_true_eq] at hp
      exact .inr ⟨i, hlt, hp.2.1, hp.1, by simpa using hgen, rfl⟩

/-- A slot with a revision is as before, or it was free and has the new one. -/
theorem record_slot (event : EffectiveEvent) (token : ℕ) (credits : AdmissionBundle)
    (s : RevisionStore) (i : ℕ) :
    (record n event token credits s).slots i = s.slots i ∨ ¬(s.slots i).committed ∧
      ((record n event token credits s).slots i).publication = .pending := by
  rcases record_cases (n := n) event token credits s with ⟨faulted, -, heq⟩ | ⟨k, -, hfree, -, -, heq⟩
  · rw [heq]
    exact .inl rfl
  · rw [heq]
    by_cases hik : i = k
    · subst hik
      exact .inr ⟨hfree, by simp [setSlot]⟩
    · exact .inl (by simp [setSlot, Function.update_of_ne hik])

/-- The new revision is that of its slot; all others are as before. -/
theorem Sound.record (h : Sound n s refers) (event : EffectiveEvent) (token : ℕ)
    (credits : AdmissionBundle) : Sound n (RevisionStore.record n event token credits s) refers := by
  rcases record_cases (n := n) event token credits s with ⟨faulted, hf, heq⟩ | ⟨k, hk, hfree, hocc, hgen, heq⟩
  · rw [heq]
    refine h.of_keeps ⟨fun i hi => ⟨hi, (h.current i hi).2⟩, rfl, rfl, hf, fun _ _ _ => rfl,
      fun i _ ho hc => .inr ⟨ho, hc, rfl⟩, fun _ _ _ h => h⟩ fun i hi => (h.referred i hi).2
  · rw [heq]
    have hnew := h.reserved k hk hocc hfree
    refine ⟨fun i hi => ?_, fun i hi hc => ?_, fun i hi ho hc => ?_, fun i hi hl => ?_, fun i hi hc => ?_,
      fun i hi j hj hci hcj hid => ?_, fun hf i hi hl => ?_, fun i hi hc => ?_, fun i hi => ?_⟩
    · obtain rfl := Option.some.inj hi
      exact ⟨hk, by simpa [Live, setSlot] using hnew⟩
    all_goals
      by_cases hik : i = k
    · subst hik
      simpa [setSlot] using hocc
    · simp only [setSlot, Function.update_of_ne hik] at hc ⊢
      exact h.occupied i hi hc
    · subst hik
      simp [setSlot] at hc
    · simp only [setSlot, Function.update_of_ne hik] at ho hc ⊢
      exact h.reserved i hi ho hc
    · subst hik
      simpa [setSlot] using hgen
    · simp only [Live, setSlot, Function.update_of_ne hik] at hl ⊢
      exact h.generation i hi hl
    · subst hik
      simp [setSlot]
    · simp only [setSlot, Function.update_of_ne hik] at hc ⊢
      exact Nat.lt_succ_of_lt (h.below i hi hc)
    · subst hik
      by_contra hij
      simp only [setSlot, Function.update_self, Function.update_of_ne (Ne.symm hij)] at hcj hid
      exact absurd (h.below j hj hcj) (hid ▸ lt_irrefl _)
    · simp only [setSlot, Function.update_of_ne hik] at hci hid
      by_cases hjk : j = k
      · subst hjk
        simp only [Function.update_self] at hid
        exact absurd (h.below i hi hci) (hid ▸ lt_irrefl _)
      · simp only [setSlot, Function.update_of_ne hjk] at hcj hid
        exact h.distinct i hi j hj hci hcj hid
    · subst hik
      simp only [decide_eq_true_eq, not_or, Bool.not_eq_true, Bool.not_eq_false] at hf
      simpa [setSlot] using hf.2
    · simp only [decide_eq_true_eq, not_or] at hf
      simp only [Live, setSlot, Function.update_of_ne hik] at hl ⊢
      exact h.known hf.1 i hi hl
    · subst hik
      simp [setSlot]
    · simp only [setSlot, Function.update_of_ne hik] at hc ⊢
      exact h.unfailed i hi hc
    · subst hik
      exact absurd (h.referred i hi).2 hfree
    · simp only [setSlot, Function.update_of_ne hik]
      exact h.referred i hi

/-- `initial` is a reservation and a record, unless it is refused. -/
theorem initial_cases (referenced : ℕ → Bool) (event : EffectiveEvent) (credits : AdmissionBundle)
    (s : RevisionStore) {r : Result ℕ} (h : initial n referenced event credits s = (r, s')) :
    (∃ e returned, r = .error e ∧ s' = { s with returned }) ∨
    (∃ e returned, r = .error e ∧ s' = { (reserve n referenced 1 s).2 with returned }) ∨
    ∃ token, s' = record n event token credits (reserve n referenced 1 s).2 ∧
      ∀ i, r = .ok i → s'.current = some i := by
  unfold initial at h
  dsimp only at h
  split at h
  · obtain ⟨rfl, rfl⟩ := Prod.mk.inj h
    exact .inl ⟨_, _, rfl, rfl⟩
  · split at h
    · obtain ⟨rfl, rfl⟩ := Prod.mk.inj h
      exact .inl ⟨_, _, rfl, rfl⟩
    · split at h
      · next e s₁ hreserve =>
        obtain ⟨rfl, rfl⟩ := Prod.mk.inj h
        exact .inr (.inl ⟨_, _, rfl, by rw [hreserve]⟩)
      · next token s₁ hreserve =>
        refine .inr (.inr ⟨token, ?_⟩)
        rw [hreserve]
        split at h
        · obtain ⟨rfl, rfl⟩ := Prod.mk.inj h
          exact ⟨rfl, fun i hi => absurd hi (by simp)⟩
        · next i hcurrent =>
          obtain ⟨rfl, rfl⟩ := Prod.mk.inj h
          exact ⟨rfl, fun j hj => Except.ok.inj hj ▸ hcurrent⟩

/-! ## A new association -/

/-- The slots after `detach`, before they are collected. -/
def detachedSlots (n : ℕ) (s : RevisionStore) (i : ℕ) : Revision :=
  let r := s.slots i
  if i < n ∧ r.occupied then
    if r.committed then { r with detached := true } else { r with occupied := false }
  else r

/-- A slot that stays committed through a detach is only marked. -/
theorem Sound.detachedSlots (h : Sound n s refers) {i : ℕ} (hi : i < n)
    (hc : (detachedSlots n s i).committed) : (s.slots i).committed ∧
      RevisionStore.detachedSlots n s i = { s.slots i with detached := true } := by
  have hcs : (s.slots i).committed := by
    simp only [RevisionStore.detachedSlots] at hc
    split at hc
    · split at hc
      · assumption
      · exact hc
    · exact hc
  refine ⟨hcs, ?_⟩
  simp [RevisionStore.detachedSlots, hi, h.occupied i hi hcs, hcs]

/-- After `detach` there are no revisions of the present association. -/
theorem detach_spec (h : Sound n s refers) {referenced : ℕ → Bool}
    (hreferenced : ∀ i, refers i → referenced i) {generation : ℕ}
    (hd : detach n referenced generation s = .ok s') :
    Sound n s' refers ∧ s.generation < s'.generation ∧ s'.nextId = s.nextId ∧ ∀ i < n, ¬s'.Live i := by
  simp only [detach, bind_eq_ok, rejectIf_eq_ok, pure_eq_ok, Except.ok.injEq, not_le] at hd
  obtain ⟨_, hlt, rfl⟩ := hd
  have hnone : ∀ i < n, ¬Live { s with slots := RevisionStore.detachedSlots n s, current := none
                                       generation, faulted := false } i := by
    rintro i hi ⟨hc, hnd⟩
    obtain ⟨-, heq⟩ := h.detachedSlots hi hc
    dsimp only at hnd
    rw [heq] at hnd
    exact hnd rfl
  have hsound : Sound n { s with slots := RevisionStore.detachedSlots n s, current := none
                                 generation, faulted := false } refers := by
    refine ⟨fun i hi => ?_, fun i hi hc => ?_, fun i hi ho hc => ?_, fun i hi hl => ?_,
      fun i hi hc => ?_, fun i hi j hj hci hcj hid => ?_, fun _ i hi hl => ?_, fun i hi hc => ?_,
      fun i hi => ?_⟩
    · exact absurd hi (by simp)
    · obtain ⟨hcs, heq⟩ := h.detachedSlots hi hc
      dsimp only
      rw [heq]
      exact h.occupied i hi hcs
    · -- a reserved slot is given back
      exfalso
      simp only [RevisionStore.detachedSlots, hi, true_and] at ho hc
      split at ho
      · next hocc =>
        rw [if_pos hocc] at hc
        split at ho
        · next hcs =>
          rw [if_pos hcs] at hc
          exact hc hcs
        · exact Bool.false_ne_true ho
      · next hocc => exact hocc ho
    · exact absurd hl (hnone i hi)
    · obtain ⟨hcs, heq⟩ := h.detachedSlots hi hc
      dsimp only
      rw [heq]
      exact h.below i hi hcs
    · obtain ⟨hcs, heq⟩ := h.detachedSlots hi hci
      obtain ⟨hcs', heq'⟩ := h.detachedSlots hj hcj
      dsimp only at hid
      rw [heq, heq'] at hid
      exact h.distinct i hi j hj hcs hcs' hid
    · exact absurd hl (hnone i hi)
    · obtain ⟨hcs, heq⟩ := h.detachedSlots hi hc
      dsimp only
      rw [heq]
      exact h.unfailed i hi hcs
    · obtain ⟨hlt, hcs⟩ := h.referred i hi
      refine ⟨hlt, ?_⟩
      simp [RevisionStore.detachedSlots, hlt, h.occupied i hlt hcs, hcs]
  refine ⟨hsound.collect hreferenced, hlt, rfl, fun i hi hl => ?_⟩
  exact hnone i hi ((hsound.collect_keeps referenced).live hi hl)

/-! ## Publication -/

/-- The revision that is published next waits. -/
theorem nextPublication_eq_some {i : ℕ} (h : nextPublication n s = some i) :
    i < n ∧ (s.slots i).waiting := by
  unfold nextPublication at h
  revert h
  refine List.foldlRecOn (List.range n) _ (motive := fun next => next = some i → i < n ∧ (s.slots i).waiting)
    (by simp) fun next ih j hj hnext => ?_
  split at hnext
  · next hw =>
    split at hnext
    · obtain rfl := Option.some.inj hnext
      exact ⟨List.mem_range.mp hj, hw⟩
    · split at hnext
      · obtain rfl := Option.some.inj hnext
        exact ⟨List.mem_range.mp hj, hw⟩
      · exact ih hnext
  · exact ih hnext

/-- A search that keeps what it has found finds nothing only where there is nothing. -/
theorem foldl_eq_none {α β : Type} {f : Option β → α → Option β} {p : α → Prop}
    (hkeeps : ∀ x a, f (some x) a ≠ none) (hfinds : ∀ a, p a → f none a ≠ none) {l : List α}
    {next : Option β} (h : l.foldl f next = none) : next = none ∧ ∀ a ∈ l, ¬p a := by
  induction l generalizing next with
  | nil => exact ⟨h, by simp⟩
  | cons a l ih =>
    obtain ⟨hnext, hl⟩ := ih h
    rcases next with _ | x
    · refine ⟨rfl, fun b hb => ?_⟩
      rcases List.mem_cons.mp hb with rfl | hb
      · exact fun hp => hfinds b hp hnext
      · exact hl b hb
    · exact absurd hnext (hkeeps x a)

theorem nextPublication_eq_none (h : nextPublication n s = none) : ∀ i < n, ¬(s.slots i).waiting := by
  unfold nextPublication at h
  have hnone := foldl_eq_none (p := fun i => (s.slots i).waiting) ?_ ?_ h
  · exact fun i hi => hnone.2 i (List.mem_range.mpr hi)
  · intro j i
    dsimp only
    repeat' split
    all_goals simp
  · intro i hw
    simp [hw]

/-- The last revision of one time waits too. -/
theorem lastTogether_eq_ok {l : List ℕ} {last r : ℕ} (h : lastTogether s l last = .ok r)
    (hl : ∀ i ∈ l, i < n) (hlt : last < n) (hw : (s.slots last).waiting)
    (ht : (s.slots last).event.timeKnown) :
    r < n ∧ (s.slots r).waiting ∧ (s.slots r).event.timeKnown := by
  induction l generalizing last with
  | nil =>
    obtain rfl := Except.ok.inj h
    exact ⟨hlt, hw, ht⟩
  | cons i l ih =>
    have hi := hl i List.mem_cons_self
    have hl' : ∀ j ∈ l, j < n := fun j hj => hl j (List.mem_cons_of_mem _ hj)
    simp only [lastTogether] at h
    split at h
    · next hsame =>
      split at h
      · exact absurd h (by simp)
      · split at h
        · simp only [Revision.sameTime, decide_eq_true_eq] at hsame
          exact ih h hl' hi hsame.1 hsame.2.1
        · exact ih h hl' hlt hw ht
    · exact ih h hl' hlt hw ht

/-- A group is refused for its identity only. -/
theorem lastTogether_error {l : List ℕ} {last : ℕ} {e : Error} (h : lastTogether s l last = .error e) :
    e.code = .identityConflict := by
  induction l generalizing last with
  | nil => exact absurd h (by simp [lastTogether])
  | cons i l ih =>
    simp only [lastTogether] at h
    split at h
    · split at h
      · exact Except.error.inj h ▸ rfl
      · exact ih h
    · exact ih h

/-- The revision that stands for a group, and what its members have in common with it. -/
theorem publicationGroup_eq_ok {r : ℕ} (h : publicationGroup n s = .ok r) :
    r < n ∧ (s.slots r).waiting ∧
      (if (s.slots r).event.timeKnown then
        ∀ i < n, (s.slots i).waiting → (s.slots i).id ≠ (s.slots r).id →
          (s.slots i).sameTime (s.slots r) → (s.slots i).pinned →
            sameState (s.slots i).event.state (s.slots r).event.state
      else ∀ i < n, (s.slots i).waiting → ¬(s.slots i).event.timeKnown → ¬(s.slots i).pinned) := by
  unfold publicationGroup at h
  split at h
  · exact absurd h (by simp)
  · next first hfirst =>
    obtain ⟨hlt, hw⟩ := nextPublication_eq_some hfirst
    split at h
    · next hunknown =>
      split at h
      · exact absurd h (by simp)
      · next hpinned =>
        obtain rfl := Except.ok.inj h
        refine ⟨hlt, hw, ?_⟩
        rw [if_neg hunknown]
        simp only [List.mem_range, not_exists, not_and] at hpinned
        exact hpinned
    · next hknown =>
      split at h
      · exact absurd h (by simp)
      · next last hlast =>
        split at h
        · exact absurd h (by simp)
        · next hpinned =>
          obtain rfl := Except.ok.inj h
          obtain ⟨hlt', hw', ht'⟩ := lastTogether_eq_ok (n := n) hlast
            (fun i hi => List.mem_range.mp hi) hlt hw (by simpa using hknown)
          refine ⟨hlt', hw', ?_⟩
          rw [if_pos ht']
          intro i hi hwi hid hsame hpin
          by_contra hdiff
          exact hpinned ⟨i, List.mem_range.mpr hi, hwi, hid, hsame, hpin, hdiff⟩

/-- Without a conflict there is a group as long as a revision waits. -/
theorem publicationGroup_error {e : Error} (h : publicationGroup n s = .error e)
    (hcode : e.code ≠ .identityConflict) : ∀ i < n, ¬(s.slots i).waiting := by
  unfold publicationGroup at h
  split at h
  · next hnone => exact nextPublication_eq_none hnone
  · exfalso
    split at h
    · split at h
      · exact hcode (Except.error.inj h ▸ rfl)
      · exact absurd h (by simp)
    · split at h
      · next hlast =>
        obtain rfl := Except.error.inj h
        exact hcode (lastTogether_error hlast)
      · split at h
        · exact hcode (Except.error.inj h ▸ rfl)
        · exact absurd h (by simp)

theorem acceptGroup_eq_ok {k : ℕ} (h : acceptGroup n k s = .ok s') :
    ∃ r, publicationGroup n s = .ok r ∧ (s.slots r).id = (s.slots k).id ∧
      s' = { s with slots := fun i =>
        if i < n ∧ inGroup s k i then { s.slots i with publication := .accepted } else s.slots i } := by
  simp only [acceptGroup, bind_eq_ok, rejectIf_eq_ok, pure_eq_ok, Except.ok.injEq] at h
  obtain ⟨_, -, r, hr, _, hid, rfl⟩ := h
  exact ⟨r, hr, by simpa using hid, rfl⟩

/-- The mark of a slot after the group of another one is accepted. -/
def acceptedMark (n : ℕ) (s : RevisionStore) (k i : ℕ) : Publication :=
  if i < n ∧ inGroup s k i then .accepted else (s.slots i).publication

section Accept

variable {k : ℕ} (h : acceptGroup n k s = .ok s')

include h

/-- What accepting a group does to the mark of a slot. -/
theorem acceptGroup_slot (i : ℕ) :
    s'.slots i = { s.slots i with publication := acceptedMark n s k i } := by
  unfold acceptedMark
  obtain ⟨r, -, -, rfl⟩ := acceptGroup_eq_ok h
  dsimp only
  split <;> rfl

/-- An acceptance keeps the revisions. -/
theorem Sound.accept_keeps (hs : Sound n s refers) : Keeps n s s' := by
  have hslot := acceptGroup_slot h
  obtain ⟨r, -, -, hs'⟩ := acceptGroup_eq_ok h
  have hcurrent : s'.current = s.current := by rw [hs']
  refine ⟨fun i hi => ?_, by rw [hs'], by rw [hs'], fun hf => by rw [hs']; exact hf, fun i _ _ => ?_,
    fun i _ ho hc => ?_, fun i _ _ hf => ?_⟩
  · rw [hcurrent] at hi
    refine ⟨hi, ?_⟩
    have hlive := (hs.current i hi).2
    unfold Live at hlive ⊢
    rw [hslot i]
    exact hlive
  · rw [hslot i]
  · rw [hslot i] at ho hc ⊢
    exact .inr ⟨ho, hc, rfl⟩
  · rw [hslot i] at hf
    simp only [acceptedMark] at hf
    split at hf
    · exact absurd hf (by simp)
    · exact hf

theorem Sound.accept (hs : Sound n s refers) : Sound n s' refers := by
  refine hs.of_keeps (hs.accept_keeps h) fun i hi => ?_
  rw [acceptGroup_slot h i]
  exact (hs.referred i hi).2

/-- A revision that is accepted was so before, or it is in the group. -/
theorem acceptGroup_accepted {i : ℕ} (hi : (s'.slots i).publication = .accepted) :
    (s.slots i).publication = .accepted ∨ i < n ∧ inGroup s k i := by
  rw [acceptGroup_slot h i] at hi
  simp only [acceptedMark] at hi
  split at hi
  · exact .inr ‹_›
  · exact .inl hi

/-- Accepting a group leaves fewer revisions that wait. -/
theorem waiting_acceptGroup (hk : k < n) (hw : (s.slots k).waiting) :
    (List.range n).countP (fun i => (s'.slots i).waiting) <
      (List.range n).countP fun i => (s.slots i).waiting := by
  have hsub : ∀ i, (s'.slots i).waiting → (s.slots i).waiting := by
    intro i hi
    rw [acceptGroup_slot h i] at hi
    simp only [Revision.waiting, decide_eq_true_eq] at hi ⊢
    refine ⟨hi.1, hi.2.1, ?_⟩
    have hp := hi.2.2
    unfold acceptedMark at hp
    split at hp
    · exact absurd hp (by simp)
    · exact hp
  have hgone : ¬(s'.slots k).waiting := by
    have hin : inGroup s k k := by
      simp only [inGroup, decide_eq_true_eq]
      exact ⟨hw, .inl trivial⟩
    rw [acceptGroup_slot h k]
    simp [Revision.waiting, acceptedMark, hk, hin]
  obtain ⟨before, after, hsplit⟩ := List.append_of_mem (List.mem_range.mpr hk)
  have hle : ∀ l : List ℕ, (l.countP fun i => (s'.slots i).waiting) ≤
      l.countP fun i => (s.slots i).waiting :=
    fun l => List.countP_mono_left fun i _ => hsub i
  rw [hsplit, List.countP_append, List.countP_append, List.countP_cons, List.countP_cons]
  have hb := hle before
  have ha := hle after
  simp only [hgone, hw, if_true]
  simp only [Bool.false_eq_true, if_false]
  omega

end Accept

end Vita.Context.RevisionStore
