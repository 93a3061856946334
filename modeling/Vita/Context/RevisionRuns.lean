import Vita.Context.RevisionSlots

/-!
# Runs of the revision store

A store together with the handles to its revisions and the revisions it has recorded.

Main results:
- `step_effect`: everything that one call can do;
- `step_inv`: the invariant of the system;
- `slots_never_recycled`: slots that are in use stay what they are, a reservation gives what it has
  promised, revisions are numbered in order, and nothing of an association comes back after its end.
-/

namespace Vita.Context

open Checked Timing State Transaction RevisionStore
open Revision (SameAs Remains)

/-- The calls of a store and of its handles. -/
inductive Op where
  | reserve (count : ℕ)
  | record (event : EffectiveEvent) (token : ℕ) (credits : AdmissionBundle)
  | release (token : ℕ)
  | current
  | nextPublication
  | publicationGroup
  | copy (handle : ℕ)
  | drop (handle : ℕ)
  | acceptGroup (handle : ℕ)
  | markPublication (handle : ℕ) (status : Publication)
  | noteDataDependency (handle : ℕ)
  | fault
  | detach (generation : ℕ)
  | collect

/-- The call offers an event to a reservation. -/
def Op.records (token generation : ℕ) : Op → Bool
  | .record event t _ => t = token ∧ event.associationGeneration = generation
  | _ => false

/-- A store, its handles and its history. -/
structure System where
  store : RevisionStore
  /-- The slot of every handle that exists. -/
  handles : List ℕ := []
  /-- The revisions in the order in which they were recorded. -/
  records : List Revision := []

namespace System

variable (n : ℕ)

def start (generation : ℕ) : System := { store := { generation } }

/-- The reference count of a slot is not zero. -/
def referenced (s : System) (i : ℕ) : Bool := i ∈ s.handles

/-- A handle is returned, or nothing. -/
def hold (slot : Option ℕ) (s : System) : System := { s with handles := slot.toList ++ s.handles }

/-- A call that fails has no effect. -/
def attempt (r : Result RevisionStore) (s : System) : System :=
  match r with
  | .error _ => s
  | .ok store => { s with store }

/-- The revision that a call has recorded. -/
def noted (before after : RevisionStore) : List Revision :=
  if after.nextId = before.nextId then [] else (after.current.map after.slots).toList

def step (op : Op) (s : System) : System :=
  match op with
  | .reserve count => { s with store := (reserve n s.referenced count s.store).2 }
  | .record event token credits =>
    let store := record n event token credits s.store
    { s with store, records := s.records ++ noted s.store store }
  | .release token => { s with store := release n token s.store }
  | .current => s.hold s.store.current
  | .nextPublication => s.hold (RevisionStore.nextPublication n s.store)
  | .publicationGroup => s.hold (RevisionStore.publicationGroup n s.store).toOption
  | .copy i => if i ∈ s.handles then s.hold (some i) else s
  | .drop i => { s with handles := s.handles.erase i }
  | .acceptGroup i => if i ∈ s.handles then s.attempt (acceptGroup n i s.store) else s
  | .markPublication i status => if i ∈ s.handles then s.attempt (markPublication n i status s.store) else s
  | .noteDataDependency i => if i ∈ s.handles then s.attempt (noteDataDependency n i s.store) else s
  | .fault => { s with store := { s.store with faulted := true } }
  | .detach generation => s.attempt (detach n s.referenced generation s.store)
  | .collect => { s with store := collect n s.referenced s.store }

def run (ops : List Op) (s : System) : System := ops.foldl (fun s op => step n op s) s

variable {n : ℕ} {s : System}

/-! ## One call -/

/-- Everything that one call can do. -/
inductive Effect (n : ℕ) (s : System) (op : Op) : System → Prop
  | marks {store : RevisionStore} (hm : Marks n s.store store)
      (hop : ∀ token generation, ¬op.records token generation) : Effect n s op { s with store }
  | hold {slot : Option ℕ} (hslot : ∀ i, slot = some i → i < n ∧ (s.store.slots i).committed)
      (hop : ∀ token generation, ¬op.records token generation) : Effect n s op (s.hold slot)
  | drop {i : ℕ} (hop : op = .drop i) : Effect n s op { s with handles := s.handles.erase i }
  | collect (hop : ∀ token generation, ¬op.records token generation) :
      Effect n s op { s with store := RevisionStore.collect n s.referenced s.store }
  | reserve {count : ℕ} (hop : op = .reserve count)
      (hcount : (takenSlots n (RevisionStore.collect n s.referenced s.store) count).length = count)
      (hlast : s.store.nextReservation ≠ uint64Max)
      (hroom : s.store.nextId ≤ uint64Max - count -
        reservedFor n (fun _ => true) (RevisionStore.collect n s.referenced s.store)) :
      Effect n s op
        { s with store := take n (RevisionStore.collect n s.referenced s.store) count }
  | release {token : ℕ} (hop : op = .release token) :
      Effect n s op { s with store := RevisionStore.release n token s.store }
  | refuse {event : EffectiveEvent} {token : ℕ} {credits : AdmissionBundle} {store : RevisionStore}
      (hop : op = .record event token credits) (hm : Marks n s.store store)
      (hnone : event.associationGeneration = s.store.generation →
        ∀ i < n, (s.store.slots i).reserved → (s.store.slots i).reservation ≠ token) :
      Effect n s op { s with store }
  | record {event : EffectiveEvent} {token : ℕ} {credits : AdmissionBundle} {k : ℕ} {faulted : Bool}
      (hop : op = .record event token credits) (hk : k < n) (hr : (s.store.slots k).reserved)
      (htoken : (s.store.slots k).reservation = token)
      (hevent : event.associationGeneration = s.store.generation) :
      Effect n s op
        { s with
          store := { s.store.setSlot k { s.store.slots k with
                       event, credits, id := s.store.nextId, committed := true, publication := .pending } with
                     nextId := s.store.nextId + 1, current := some k, faulted }
          records := s.records ++ [{ s.store.slots k with
            event, credits, id := s.store.nextId, committed := true, publication := .pending }] }
  | detach {generation : ℕ} {store : RevisionStore} (hop : op = .detach generation)
      (hd : RevisionStore.detach n s.referenced generation s.store = .ok store) :
      Effect n s op { s with store }

theorem effect_refl {op : Op} (hop : ∀ token generation, ¬op.records token generation) :
    Effect n s op s :=
  .marks ⟨fun _ => SameAs.refl _, fun _ => .inl rfl, rfl, rfl, rfl, rfl⟩ hop

/-- A call on a handle that only sets marks. -/
theorem effect_attempt {op : Op} {i : ℕ} {r : Result RevisionStore}
    (hr : ∀ store, r = .ok store → Marks n s.store store)
    (hop : ∀ token generation, ¬op.records token generation) :
    Effect n s op (if i ∈ s.handles then s.attempt r else s) := by
  split
  · cases r with
    | error e => exact effect_refl hop
    | ok store => exact .marks (hr store rfl) hop
  · exact effect_refl hop

/-- What an operation does to the revisions in use. -/
theorem step_effect (h : Consistent n s.store (· ∈ s.handles)) (op : Op) : Effect n s op (step n op s) := by
  cases op with
  | reserve count =>
    simp only [step]
    rcases reserve_cases (n := n) s.referenced count s.store with ⟨e, heq | heq⟩ | ⟨hc, hl, hroom, heq⟩ <;>
      rw [heq]
    · exact effect_refl (by simp [Op.records])
    · exact .collect (by simp [Op.records])
    · exact .reserve rfl hc hl hroom
  | record event token credits =>
    simp only [step]
    rcases record_spec (n := n) event token credits s.store with
      ⟨faulted, heq, hnone⟩ | ⟨k, hk, hr, htoken, hevent, heq⟩
    · have hnoted : noted s.store (RevisionStore.record n event token credits s.store) = [] := by
        rw [heq]
        exact if_pos rfl
      rw [hnoted, List.append_nil, heq]
      exact .refuse rfl ⟨fun _ => SameAs.refl _, fun _ => .inl rfl, rfl, rfl, rfl, rfl⟩ hnone
    · have hnoted : noted s.store (RevisionStore.record n event token credits s.store) =
          [{ s.store.slots k with
            event, credits, id := s.store.nextId, committed := true, publication := .pending }] := by
        rw [heq]
        simp [noted, setSlot]
      rw [hnoted, heq]
      exact .record rfl hk hr htoken hevent
  | release token => exact .release rfl
  | current => exact .hold (fun i hi => ⟨(h.current i hi).1, (h.current i hi).2.1⟩) (by simp [Op.records])
  | nextPublication =>
    refine .hold (fun i hi => ?_) (by simp [Op.records])
    obtain ⟨hlt, hw⟩ := nextPublication_eq_some hi
    simp only [Revision.waiting, decide_eq_true_eq] at hw
    exact ⟨hlt, hw.1⟩
  | publicationGroup =>
    refine .hold (fun i hi => ?_) (by simp [Op.records])
    have hok : RevisionStore.publicationGroup n s.store = .ok i := by
      cases hgroup : RevisionStore.publicationGroup n s.store with
      | error e =>
        rw [hgroup] at hi
        cases hi
      | ok j =>
        rw [hgroup] at hi
        rw [Option.some.inj hi]
    obtain ⟨hlt, hw, -⟩ := publicationGroup_eq_ok hok
    simp only [Revision.waiting, decide_eq_true_eq] at hw
    exact ⟨hlt, hw.1⟩
  | copy i =>
    simp only [step]
    split
    · next hi =>
      refine .hold (fun j hj => ?_) (by simp [Op.records])
      obtain rfl := Option.some.inj hj
      exact h.held i hi
    · exact effect_refl (by simp [Op.records])
  | drop i => exact .drop rfl
  | acceptGroup i => exact effect_attempt (fun _ => marks_acceptGroup) (by simp [Op.records])
  | markPublication i status => exact effect_attempt (fun _ => marks_markPublication) (by simp [Op.records])
  | noteDataDependency i => exact effect_attempt (fun _ => marks_noteDataDependency) (by simp [Op.records])
  | fault => exact .marks (marks_fault s.store) (by simp [Op.records])
  | detach generation =>
    simp only [step, attempt]
    split
    · exact effect_refl (by simp [Op.records])
    · next store hd => exact .detach rfl hd
  | collect => exact .collect (by simp [Op.records])

/-! ## The invariant -/

/-- Numbers never wrap around: there is one for every slot that is set aside. -/
structure Numbered (n : ℕ) (s : RevisionStore) : Prop where
  positive : 0 < s.nextId
  reservations : s.nextReservation ≤ uint64Max
  ids : s.nextId + reservedFor n (fun _ => true) s ≤ uint64Max

theorem Numbered.of_marks {r r' : RevisionStore} (h : Numbered n r) (hm : Marks n r r') :
    Numbered n r' := by
  refine ⟨?_, ?_, ?_⟩
  · rw [hm.nextId]
    exact h.positive
  · rw [hm.nextReservation]
    exact h.reservations
  · rw [hm.nextId, reservedFor_marks hm]
    exact h.ids

/-- The invariant of the system. -/
structure Inv (n : ℕ) (s : System) : Prop where
  slots : Consistent n s.store (· ∈ s.handles)
  numbers : Numbered n s.store
  ordered : s.records.Pairwise (·.id < ·.id)
  bounded : ∀ r ∈ s.records, r.id < s.store.nextId ∧ r.reservation < s.store.nextReservation
  logged : ∀ i < n, (s.store.slots i).committed →
    ∃ r ∈ s.records, r.id = (s.store.slots i).id ∧ r.event = (s.store.slots i).event

/-- A call that records nothing keeps the history. -/
theorem Inv.of_store (h : Inv n s) {store : RevisionStore} (hslots : Consistent n store (· ∈ s.handles))
    (hnumbers : Numbered n store) (hid : store.nextId = s.store.nextId)
    (hreservation : s.store.nextReservation ≤ store.nextReservation)
    (hslot : ∀ i < n, (store.slots i).committed → (s.store.slots i).committed ∧
      (store.slots i).id = (s.store.slots i).id ∧ (store.slots i).event = (s.store.slots i).event) :
    Inv n { s with store } where
  slots := hslots
  numbers := hnumbers
  ordered := h.ordered
  bounded r hr := by
    obtain ⟨hlt, hres⟩ := h.bounded r hr
    exact ⟨hlt.trans_eq hid.symm, hres.trans_le hreservation⟩
  logged i hi hc := by
    obtain ⟨hcs, hid', hevent⟩ := hslot i hi hc
    obtain ⟨r, hr, hrid, hrevent⟩ := h.logged i hi hcs
    exact ⟨r, hr, hrid.trans hid'.symm, hrevent.trans hevent.symm⟩

theorem Inv.of_marks (h : Inv n s) {store : RevisionStore} (hm : Marks n s.store store) :
    Inv n { s with store } :=
  h.of_store (h.slots.marks hm) (h.numbers.of_marks hm) hm.nextId (le_of_eq hm.nextReservation.symm)
    fun i _ hc => by
      have hs := hm.slot i
      rw [hs.committed] at hc
      exact ⟨hc, hs.id, hs.event⟩

theorem Inv.of_handles (h : Inv n s) {handles : List ℕ}
    (hheld : ∀ i ∈ handles, i < n ∧ (s.store.slots i).committed) : Inv n { s with handles } :=
  { h with slots := h.slots.of_held hheld }

theorem referenced_of_mem {i : ℕ} (hi : i ∈ s.handles) : s.referenced i := by
  simpa only [referenced, decide_eq_true_eq] using hi

theorem Inv.of_collect (h : Inv n s) :
    Inv n { s with store := RevisionStore.collect n s.referenced s.store } := by
  refine h.of_store (h.slots.collect fun i => referenced_of_mem) ⟨h.numbers.positive,
    h.numbers.reservations, ?_⟩ rfl le_rfl fun i _ hc => ?_
  · rw [reservedFor_collect]
    exact h.numbers.ids
  · have heq := collect_slot_of_committed hc
    rw [heq] at hc ⊢
    exact ⟨hc, rfl, rfl⟩

/-- Slots that are free are reserved. -/
theorem Inv.of_take (h : Inv n s) {count : ℕ}
    (hcount : (takenSlots n s.store count).length = count) (hlast : s.store.nextReservation ≠ uint64Max)
    (hroom : s.store.nextId ≤ uint64Max - count - reservedFor n (fun _ => true) s.store) :
    Inv n { s with store := take n s.store count } := by
  refine h.of_store (h.slots.take count) ⟨h.numbers.positive, ?_, ?_⟩ rfl (Nat.le_succ _) fun i _ hc => ?_
  · have hle := h.numbers.reservations
    show s.store.nextReservation + 1 ≤ uint64Max
    omega
  · have hpos := h.numbers.positive
    rw [reservedFor_take, if_pos rfl, hcount]
    show s.store.nextId + _ ≤ uint64Max
    omega
  · by_cases htaken : i ∈ takenSlots n s.store count
    · simp only [take, if_pos htaken] at hc
      exact absurd hc Bool.false_ne_true
    · simp only [take, if_neg htaken] at hc ⊢
      exact ⟨hc, trivial, trivial⟩

theorem reservedFor_mono {p q : ℕ → Bool} (hpq : ∀ t, p t → q t) (r : RevisionStore) :
    reservedFor n p r ≤ reservedFor n q r :=
  List.countP_mono_left fun i _ hi => by
    simp only [decide_eq_true_eq] at hi ⊢
    exact ⟨hi.1, hpq _ hi.2⟩

/-- A release of reservations keeps the invariant. -/
theorem Inv.of_release (h : Inv n s) (token : ℕ) :
    Inv n { s with store := RevisionStore.release n token s.store } := by
  refine h.of_store (h.slots.release token) ⟨h.numbers.positive, h.numbers.reservations, ?_⟩ rfl le_rfl
    fun i _ hc => ?_
  · rw [reservedFor_release]
    have hle := h.numbers.ids
    have hmono := reservedFor_mono (n := n) (p := fun t => (true : Bool) ∧ t ≠ token)
      (q := fun _ => true) (fun _ _ => rfl) s.store
    show s.store.nextId + _ ≤ uint64Max
    omega
  · rcases release_slot (n := n) (s := s.store) token i with heq | ⟨heq, -, -⟩ <;> rw [heq] at hc ⊢
    · exact ⟨hc, rfl, rfl⟩
    · exact ⟨hc, rfl, rfl⟩

/-- The slot of a new revision is not set aside any more. -/
theorem reservedFor_setSlot {r : RevisionStore} {k : ℕ} (hk : k < n) (hr : (r.slots k).reserved)
    (revision : Revision) (hnew : ¬revision.reserved) (p : ℕ → Bool) :
    reservedFor n p (r.setSlot k revision) + (p (r.slots k).reservation).toNat = reservedFor n p r := by
  have hchange := countP_range_change hk (m := n)
    (p := fun i => decide (((r.setSlot k revision).slots i).reserved ∧
      p ((r.setSlot k revision).slots i).reservation))
    (q := fun i => decide ((r.slots i).reserved ∧ p (r.slots i).reservation))
    fun i _ hik => by simp only [setSlot, Function.update_of_ne hik]
  have hself : (r.setSlot k revision).slots k = revision := Function.update_self ..
  simpa [reservedFor, hself, hnew, hr] using hchange

/-- A reserved slot is committed, under the next identifier. -/
theorem Inv.of_record (h : Inv n s) {k : ℕ} (hk : k < n) (hr : (s.store.slots k).reserved)
    {event : EffectiveEvent} {credits : AdmissionBundle}
    (hevent : event.associationGeneration = s.store.generation) {faulted : Bool} :
    Inv n { s with
      store := { s.store.setSlot k { s.store.slots k with
                   event, credits, id := s.store.nextId, committed := true, publication := .pending } with
                 nextId := s.store.nextId + 1, current := some k, faulted }
      records := s.records ++ [{ s.store.slots k with
        event, credits, id := s.store.nextId, committed := true, publication := .pending }] } := by
  refine ⟨h.slots.recorded hk hr hevent, ⟨Nat.succ_pos _, h.numbers.reservations, ?_⟩, ?_, fun r hmem => ?_,
    fun i hi hc => ?_⟩
  · have hleft := reservedFor_setSlot hk hr { s.store.slots k with
      event, credits, id := s.store.nextId, committed := true, publication := .pending }
      (by simp [Revision.reserved]) fun _ => true
    have hids := h.numbers.ids
    have hroom : ∀ left, left + 1 = reservedFor n (fun _ => true) s.store →
        s.store.nextId + 1 + left ≤ uint64Max := fun left hl => by omega
    exact hroom _ hleft
  · refine List.pairwise_append.mpr ⟨h.ordered, List.pairwise_singleton _ _, fun r hr' r' hr'' => ?_⟩
    rw [List.mem_singleton.mp hr'']
    exact (h.bounded r hr').1
  · rcases List.mem_append.mp hmem with hold | hnew
    · obtain ⟨hlt, hres⟩ := h.bounded r hold
      exact ⟨Nat.lt_succ_of_lt hlt, hres⟩
    · rw [List.mem_singleton.mp hnew]
      exact ⟨Nat.lt_succ_self _, (h.slots.reserved k hk hr).2⟩
  · by_cases hik : i = k
    · subst hik
      refine ⟨_, List.mem_append_right _ (List.mem_singleton_self _), ?_, ?_⟩ <;> simp [setSlot]
    · simp only [setSlot, Function.update_of_ne hik] at hc ⊢
      obtain ⟨r, hmem, hrest⟩ := h.logged i hi hc
      exact ⟨r, List.mem_append_left _ hmem, hrest⟩

/-- A slot keeps its event and its number when an association ends. -/
theorem detach_slot {r r' : RevisionStore} {referenced : ℕ → Bool} {generation : ℕ}
    (hd : RevisionStore.detach n referenced generation r = .ok r') (i : ℕ) :
    (r'.slots i).event = (r.slots i).event ∧ (r'.slots i).id = (r.slots i).id ∧
      (r'.slots i).reservation = (r.slots i).reservation ∧
      (r'.slots i).publication = (r.slots i).publication ∧
      ((r'.slots i).committed → (r.slots i).committed) := by
  obtain ⟨-, rfl⟩ := detach_eq_ok.mp hd
  have hdetached : (detachedSlots n r i).event = (r.slots i).event ∧
      (detachedSlots n r i).id = (r.slots i).id ∧
      (detachedSlots n r i).reservation = (r.slots i).reservation ∧
      (detachedSlots n r i).publication = (r.slots i).publication ∧
      ((detachedSlots n r i).committed → (r.slots i).committed) := by
    rcases detachedSlots_cases (n := n) (s := r) i with ⟨heq, -⟩ | ⟨heq, -, -⟩ | ⟨heq, -⟩ <;> rw [heq] <;>
      exact ⟨rfl, rfl, rfl, rfl, id⟩
  rcases collect_slot (n := n) (s := { r with slots := detachedSlots n r, current := none, generation
                                              faulted := false }) referenced i with heq | ⟨heq, -⟩
  · rw [heq]
    exact hdetached
  · rw [heq]
    exact ⟨hdetached.1, hdetached.2.1, hdetached.2.2.1, hdetached.2.2.2.1,
      fun hc => absurd hc Bool.false_ne_true⟩

/-- A detach keeps the invariant. -/
theorem Inv.of_detach (h : Inv n s) {generation : ℕ} {store : RevisionStore}
    (hd : RevisionStore.detach n s.referenced generation s.store = .ok store) :
    Inv n { s with store } := by
  have hnone := reservedFor_detach hd fun _ => true
  have hslot := detach_slot hd
  obtain ⟨hlt, rfl⟩ := detach_eq_ok.mp hd
  refine h.of_store ((h.slots.detachedSlots hlt).collect fun i => referenced_of_mem)
    ⟨h.numbers.positive, h.numbers.reservations, ?_⟩ rfl le_rfl fun i _ hc => ?_
  · rw [hnone]
    exact (Nat.le_add_right _ _).trans h.numbers.ids
  · obtain ⟨hevent, hid, -, -, hcommitted⟩ := hslot i
    exact ⟨hcommitted hc, hid, hevent⟩

/-- Every operation keeps the invariant. -/
theorem step_inv (h : Inv n s) (op : Op) : Inv n (step n op s) := by
  have heffect := step_effect h.slots op
  generalize step n op s = s' at heffect
  cases heffect with
  | marks hm => exact h.of_marks hm
  | hold hslot =>
    refine h.of_handles fun i hi => ?_
    rcases List.mem_append.mp hi with hnew | hold
    · exact hslot i (Option.mem_toList.mp hnew)
    · exact h.slots.held i hold
  | drop => exact h.of_handles fun i hi => h.slots.held i (List.mem_of_mem_erase hi)
  | collect => exact h.of_collect
  | reserve hop hcount hlast hroom =>
    refine h.of_collect.of_take hcount hlast ?_
    exact hroom
  | release => exact h.of_release _
  | refuse hop hm => exact h.of_marks hm
  | record hop hk hr htoken hevent => exact h.of_record hk hr hevent
  | detach hop hd => exact h.of_detach hd

/-- A new store keeps it. -/
theorem start_inv (generation : ℕ) : Inv n (start generation) := by
  have hfree : ∀ i, ¬((start generation).store.slots i).committed := fun i => Bool.false_ne_true
  have hunreserved : reservedFor n (fun _ => true) (start generation).store = 0 :=
    List.countP_eq_zero.mpr fun i _ => by simp [start, Revision.reserved]
  refine ⟨⟨?_, ?_, ?_, ?_, ?_, ?_, ?_, ?_⟩, ⟨Nat.one_pos, ?_, ?_⟩, List.Pairwise.nil, ?_, ?_⟩
  · exact fun i hi => absurd hi (by simp [start])
  · exact fun i _ hc => absurd hc (hfree i)
  · exact fun i _ hr => absurd hr (by simp [start, Revision.reserved])
  · exact fun i _ hl => absurd hl.1 (hfree i)
  · exact fun i _ hc => absurd hc (hfree i)
  · exact fun i _ hc => absurd hc (hfree i)
  · exact fun i _ j _ hc => absurd hc (hfree i)
  · exact fun i hi => absurd hi List.not_mem_nil
  · show 1 ≤ uint64Max
    decide
  · rw [hunreserved]
    show 1 ≤ uint64Max
    decide
  · exact fun r hr => absurd hr List.not_mem_nil
  · exact fun i _ hc => absurd hc (hfree i)

theorem run_inv (h : Inv n s) (ops : List Op) : Inv n (run n ops s) := by
  induction ops generalizing s with
  | nil => exact h
  | cons op ops ih => exact ih (step_inv h op)

/-! ## Slots in use -/

/-- A slot is current, waits for its publication, or has a handle. -/
def InUse (n : ℕ) (s : System) (i : ℕ) : Prop :=
  s.store.current = some i ∨
    i < n ∧ (s.store.slots i).waiting ∧
      (s.store.slots i).event.associationGeneration = s.store.generation ∨
    i ∈ s.handles

theorem Inv.committed (h : Inv n s) {i : ℕ} (hi : InUse n s i) : i < n ∧ (s.store.slots i).committed := by
  rcases hi with hcurrent | ⟨hlt, hw, -⟩ | hheld
  · obtain ⟨hlt, hlive⟩ := h.slots.current i hcurrent
    exact ⟨hlt, hlive.1⟩
  · simp only [Revision.waiting, decide_eq_true_eq] at hw
    exact ⟨hlt, hw.1⟩
  · exact h.slots.held i hheld

/-- Collecting frees no slot in use. -/
theorem collect_slot_of_inUse {i : ℕ} (hi : InUse n s i) :
    (RevisionStore.collect n s.referenced s.store).slots i = s.store.slots i := by
  rcases collect_slot (n := n) (s := s.store) s.referenced i with heq | ⟨-, -, hcurrent, hw, hfree⟩
  · exact heq
  · rcases hi with hcur | ⟨-, hwaiting, -⟩ | hheld
    · exact absurd hcur hcurrent
    · exact absurd hwaiting hw
    · exact absurd (referenced_of_mem hheld) hfree

/-- A revision in use stays what it is. -/
theorem step_remains (h : Inv n s) (op : Op) {i : ℕ} (hi : InUse n s i) :
    Remains (s.store.slots i) ((step n op s).store.slots i) := by
  obtain ⟨hlt, hc⟩ := h.committed hi
  have hself := (SameAs.refl (s.store.slots i)).remains hc
  have heffect := step_effect h.slots op
  generalize step n op s = s' at heffect
  cases heffect with
  | marks hm => exact (hm.slot i).remains hc
  | hold => exact hself
  | drop => exact hself
  | collect =>
    dsimp only
    rw [collect_slot_of_inUse hi]
    exact hself
  | @reserve count =>
    have hocc : ((RevisionStore.collect n s.referenced s.store).slots i).occupied := by
      rw [collect_slot_of_inUse hi]
      exact h.slots.occupied i hlt hc
    have htaken : i ∉ takenSlots n (RevisionStore.collect n s.referenced s.store) count :=
      fun hmem => (mem_takenSlots hmem).2 hocc
    simp only [take, if_neg htaken]
    rw [collect_slot_of_inUse hi]
    exact hself
  | @release token =>
    rcases release_slot (n := n) (s := s.store) token i with heq | ⟨-, hr, -⟩
    · dsimp only
      rw [heq]
      exact hself
    · simp [Revision.reserved, hc] at hr
  | refuse _ hm => exact (hm.slot i).remains hc
  | @record event token credits k faulted _ _ hr =>
    have hik : i ≠ k := by
      rintro rfl
      simp [Revision.reserved, hc] at hr
    simp only [setSlot, Function.update_of_ne hik]
    exact hself
  | detach _ hd =>
    obtain ⟨hevent, hid, hreservation, -, -⟩ := detach_slot hd i
    refine ⟨hevent, hid, hreservation, fun hr => ?_⟩
    have hnone := List.countP_eq_zero.mp (reservedFor_detach hd fun _ => true) i (List.mem_range.mpr hlt)
    simp [hr] at hnone

/-! ## Reservations -/

theorem step_generation (h : Inv n s) (op : Op) : s.store.generation ≤ (step n op s).store.generation := by
  have heffect := step_effect h.slots op
  generalize step n op s = s' at heffect
  cases heffect with
  | marks hm => exact le_of_eq hm.generation.symm
  | refuse _ hm => exact le_of_eq hm.generation.symm
  | detach _ hd =>
    obtain ⟨hlt, rfl⟩ := detach_eq_ok.mp hd
    exact le_of_lt hlt
  | _ => exact le_rfl

theorem run_generation (h : Inv n s) (ops : List Op) :
    s.store.generation ≤ (run n ops s).store.generation := by
  induction ops generalizing s with
  | nil => exact le_rfl
  | cons op ops ih => exact (step_generation h op).trans (ih (step_inv h op))

/-- Reservation tokens only grow. -/
theorem step_nextReservation (h : Inv n s) (op : Op) :
    s.store.nextReservation ≤ (step n op s).store.nextReservation := by
  have heffect := step_effect h.slots op
  generalize step n op s = s' at heffect
  cases heffect with
  | marks hm => exact le_of_eq hm.nextReservation.symm
  | refuse _ hm => exact le_of_eq hm.nextReservation.symm
  | reserve => exact Nat.le_succ _
  | detach _ hd =>
    obtain ⟨-, rfl⟩ := detach_eq_ok.mp hd
    exact le_rfl
  | _ => exact le_rfl

/-- How many revisions a reservation has given. -/
def granted (token : ℕ) (s : System) : ℕ := s.records.countP (·.reservation = token)

/-- How many slots a reservation still has. -/
def left (n token : ℕ) (s : System) : ℕ := reservedFor n (· = token) s.store

/-- A call takes a slot of a reservation if it offers an event to it, and in no other case. -/
theorem step_left (h : Inv n s) {op : Op} {token : ℕ} (htoken : token < s.store.nextReservation)
    (hop : op ≠ .release token) (hgeneration : (step n op s).store.generation = s.store.generation) :
    left n token (step n op s) =
        left n token s - (op.records token s.store.generation).toNat ∧
      granted token (step n op s) =
        granted token s + min (left n token s) (op.records token s.store.generation).toNat := by
  have heffect := step_effect h.slots op
  generalize step n op s = s' at heffect hgeneration
  -- a call that offers nothing to the reservation
  have hidle : ∀ s' : System, s'.records = s.records →
      left n token s' = left n token s → op.records token s.store.generation = false →
      left n token s' = left n token s - (op.records token s.store.generation).toNat ∧
        granted token s' =
          granted token s + min (left n token s) (op.records token s.store.generation).toNat := by
    intro s' hrecords hleft hnot
    rw [hnot, hleft, granted, granted, hrecords]
    simp
  cases heffect with
  | marks hm hnot =>
    exact hidle _ rfl (reservedFor_marks hm _) (Bool.eq_false_of_not_eq_true (hnot _ _))
  | hold _ hnot => exact hidle _ rfl rfl (Bool.eq_false_of_not_eq_true (hnot _ _))
  | drop hdrop =>
    subst hdrop
    exact hidle _ rfl rfl rfl
  | collect hnot =>
    exact hidle _ rfl (reservedFor_collect _ _) (Bool.eq_false_of_not_eq_true (hnot _ _))
  | reserve hreserve =>
    subst hreserve
    refine hidle _ rfl ?_ rfl
    show reservedFor n _ (take n _ _) = _
    have hne : ¬decide ((RevisionStore.collect n s.referenced s.store).nextReservation = token) := by
      rw [decide_eq_true_eq]
      exact Nat.ne_of_gt htoken
    rw [reservedFor_take, if_neg hne, Nat.add_zero]
    exact reservedFor_collect _ _
  | release hrelease =>
    subst hrelease
    refine hidle _ rfl ?_ rfl
    show reservedFor n _ (RevisionStore.release n _ _) = _
    rw [reservedFor_release]
    congr 1
    funext t
    simp only [decide_eq_true_eq, decide_eq_decide, and_iff_left_iff_imp]
    rintro rfl rfl
    exact hop rfl
  | @refuse event token' credits store hrecord hm hnone =>
    subst hrecord
    have hleft : left n token { s with store } = left n token s := reservedFor_marks hm _
    by_cases hmatch : (Op.record event token' credits).records token s.store.generation
    · simp only [Op.records, decide_eq_true_eq] at hmatch
      obtain ⟨rfl, hevent⟩ := hmatch
      have hempty : left n token' s = 0 := by
        refine List.countP_eq_zero.mpr fun i hi => ?_
        simp only [decide_eq_true_eq, not_and]
        exact hnone hevent i (List.mem_range.mp hi)
      rw [hleft, hempty]
      simp [granted]
    · exact hidle _ rfl hleft (Bool.eq_false_of_not_eq_true hmatch)
  | @record event token' credits k faulted hrecord hk hr hslot hevent =>
    subst hrecord
    have htaken := reservedFor_setSlot hk hr { s.store.slots k with
      event, credits, id := s.store.nextId, committed := true, publication := .pending }
      (by simp [Revision.reserved]) (· = token)
    have hmatch : (Op.record event token' credits).records token s.store.generation =
        decide (token' = token) := by
      simp [Op.records, hevent]
    have hgranted : ∀ store : RevisionStore,
        granted token { s with
          store
          records := s.records ++ [{ s.store.slots k with
            event, credits, id := s.store.nextId, committed := true, publication := .pending }] } =
        granted token s + (decide (token' = token)).toNat := by
      intro store
      rw [granted, List.countP_append, List.countP_singleton, hslot]
      by_cases heq : token' = token <;> simp [granted, heq]
    rw [hgranted, hmatch]
    rw [hslot] at htaken
    have harith : ∀ a b c : ℕ, a + c = b → c ≤ 1 → a = b - c ∧ granted token s + c = granted token s + min b c := by
      intro a b c hab hc
      omega
    exact harith _ _ _ htaken (Bool.toNat_le _)
  | detach hdetach hd =>
    obtain ⟨hlt, rfl⟩ := detach_eq_ok.mp hd
    exact absurd hgeneration (Nat.ne_of_gt hlt)

/-- A reservation gives as many revisions as events are offered to it, up to what it has. -/
theorem run_granted (h : Inv n s) {token : ℕ} (htoken : token < s.store.nextReservation) {ops : List Op}
    (hops : .release token ∉ ops) (hgeneration : (run n ops s).store.generation = s.store.generation) :
    granted token (run n ops s) =
      granted token s + min (left n token s) (ops.countP (Op.records token s.store.generation)) := by
  induction ops generalizing s with
  | nil => simp [run]
  | cons op ops ih =>
    have hinv := step_inv h op
    -- the generation only grows, so it is the same all along
    have hstep : (step n op s).store.generation = s.store.generation :=
      le_antisymm ((run_generation hinv ops).trans_eq hgeneration) (step_generation h op)
    have hne : op ≠ .release token := fun heq => hops (heq ▸ List.mem_cons_self)
    obtain ⟨hleft, hgranted⟩ := step_left h htoken hne hstep
    have hrest := ih hinv (htoken.trans_le (step_nextReservation h op))
      (fun hmem => hops (List.mem_cons_of_mem _ hmem)) (hgeneration.trans hstep.symm)
    rw [hstep, hleft, hgranted] at hrest
    rw [List.countP_cons]
    show granted token (run n ops (step n op s)) = _
    rw [hrest]
    cases op.records token s.store.generation
    · simp
    · simp
      omega

/-- A new reservation has as many slots as it asked for. -/
theorem left_of_reserve (h : Inv n s) {count token : ℕ}
    (hr : (RevisionStore.reserve n s.referenced count s.store).1 = .ok token) :
    left n token (step n (.reserve count) s) = count ∧
      granted token (step n (.reserve count) s) = 0 ∧
      token < (step n (.reserve count) s).store.nextReservation := by
  rcases reserve_cases (n := n) s.referenced count s.store with ⟨e, heq | heq⟩ | ⟨hc, -, -, heq⟩
  · rw [heq] at hr
    cases hr
  · rw [heq] at hr
    cases hr
  · rw [heq] at hr
    obtain rfl : s.store.nextReservation = token := Except.ok.inj hr
    have hstore : (step n (.reserve count) s).store =
        take n (RevisionStore.collect n s.referenced s.store) count := by
      simp only [step, heq]
    refine ⟨?_, ?_, ?_⟩
    · -- the number of the reservation is new
      have hfresh : reservedFor n (· = s.store.nextReservation) s.store = 0 := by
        refine List.countP_eq_zero.mpr fun i hi => ?_
        simp only [decide_eq_true_eq, not_and]
        intro hres
        exact Nat.ne_of_lt (h.slots.reserved i (List.mem_range.mp hi) hres).2
      have hself : (RevisionStore.collect n s.referenced s.store).nextReservation =
          s.store.nextReservation := rfl
      rw [left, hstore, reservedFor_take, hself, if_pos (decide_eq_true rfl), hc, reservedFor_collect,
        hfresh, Nat.zero_add]
    · refine List.countP_eq_zero.mpr fun r hr => ?_
      simp only [decide_eq_true_eq]
      exact Nat.ne_of_lt (h.bounded r hr).2
    · rw [hstore]
      exact Nat.lt_succ_self _

/-! ## The end of an association -/

/-- Nothing from before generation `g` is current, is published or gets recorded. -/
structure Retired (n g : ℕ) (s : System) : Prop where
  current : ∀ i, s.store.current = some i → g ≤ (s.store.slots i).event.associationGeneration
  next : ∀ i, RevisionStore.nextPublication n s.store = some i →
    g ≤ (s.store.slots i).event.associationGeneration
  group : ∀ i, RevisionStore.publicationGroup n s.store = .ok i →
    g ≤ (s.store.slots i).event.associationGeneration
  accepted : ∀ i ∈ s.handles, (s.store.slots i).event.associationGeneration < g →
    acceptGroup n i s.store = .error (failure .staleGeneration)
  marked : ∀ i ∈ s.handles, (s.store.slots i).event.associationGeneration < g → ∀ status,
    RevisionStore.markPublication n i status s.store = .error (failure .staleGeneration)
  publication : ∀ op, ∀ i < n, (s.store.slots i).committed →
    (s.store.slots i).event.associationGeneration < g → ((step n op s).store.slots i).committed →
      ((step n op s).store.slots i).publication = (s.store.slots i).publication
  recorded : ∀ event token credits, event.associationGeneration < g →
    (RevisionStore.record n event token credits s.store).slots = s.store.slots ∧
      (RevisionStore.record n event token credits s.store).current = s.store.current ∧
      (RevisionStore.record n event token credits s.store).nextId = s.store.nextId

/-- A revision of an earlier association keeps its mark as long as it has its slot. -/
theorem step_publication (h : Inv n s) (op : Op) {i : ℕ} (hi : i < n) (hc : (s.store.slots i).committed)
    (hold : (s.store.slots i).event.associationGeneration ≠ s.store.generation)
    (hc' : ((step n op s).store.slots i).committed) :
    ((step n op s).store.slots i).publication = (s.store.slots i).publication := by
  have hdead : ¬s.store.Live i := fun hl => hold (h.slots.present i hi hl)
  have heffect := step_effect h.slots op
  generalize step n op s = s' at heffect hc' ⊢
  have hcollect : ((RevisionStore.collect n s.referenced s.store).slots i).publication =
      (s.store.slots i).publication := by
    rcases collect_slot (n := n) (s := s.store) s.referenced i with heq | ⟨heq, -⟩ <;> rw [heq]
  cases heffect with
  | marks hm => exact (hm.publication i).resolve_right fun hl => hdead hl.2
  | hold => rfl
  | drop => rfl
  | collect => exact hcollect
  | @reserve count =>
    -- a slot that the reservation takes has no revision afterwards
    have htaken : i ∉ takenSlots n (RevisionStore.collect n s.referenced s.store) count := by
      intro hmem
      simp [take, hmem] at hc'
    simp only [take, if_neg htaken]
    exact hcollect
  | @release token =>
    rcases release_slot (n := n) (s := s.store) token i with heq | ⟨heq, -, -⟩ <;> simp only [heq]
  | refuse _ hm => exact (hm.publication i).resolve_right fun hl => hdead hl.2
  | @record event token credits k faulted _ _ hr =>
    have hik : i ≠ k := by
      rintro rfl
      simp [Revision.reserved, hc] at hr
    simp only [setSlot, Function.update_of_ne hik]
  | detach _ hd => exact (detach_slot hd i).2.2.2.1

theorem present_of_waiting (h : Inv n s) {i : ℕ} (hi : i < n) (hw : (s.store.slots i).waiting) :
    (s.store.slots i).event.associationGeneration = s.store.generation := by
  simp only [Revision.waiting, decide_eq_true_eq] at hw
  exact h.slots.present i hi ⟨hw.1, hw.2.1⟩

/-- The revisions of an earlier generation are not in use. -/
theorem retired (h : Inv n s) {g : ℕ} (hg : g ≤ s.store.generation) : Retired n g s where
  current i hi := by
    obtain ⟨hlt, hlive⟩ := h.slots.current i hi
    rw [h.slots.present i hlt hlive]
    exact hg
  next i hi := by
    obtain ⟨hlt, hw⟩ := nextPublication_eq_some hi
    rw [present_of_waiting h hlt hw]
    exact hg
  group i hi := by
    obtain ⟨hlt, hw, -⟩ := publicationGroup_eq_ok hi
    rw [present_of_waiting h hlt hw]
    exact hg
  accepted i _ hold := by
    have hne : (s.store.slots i).event.associationGeneration ≠ s.store.generation :=
      Nat.ne_of_lt (hold.trans_le hg)
    unfold acceptGroup
    simp only [rejectIf, hne, ne_eq, not_false_eq_true, if_true]
    rfl
  marked i hi hold status := by
    obtain ⟨hlt, hc⟩ := h.slots.held i hi
    cases hmark : RevisionStore.markPublication n i status s.store with
    | error e =>
      unfold RevisionStore.markPublication at hmark
      split at hmark
      · exact hmark.symm
      · cases hmark
    | ok store =>
      -- the revision that is found has the number of the handle's, so it is the same one
      obtain ⟨j, hj, hlive, hid, hgen, -⟩ := markPublication_eq_ok hmark
      obtain rfl := h.slots.distinct j hj i hlt hlive.1 hc hid
      exact absurd hgen (Nat.ne_of_lt (hold.trans_le hg))
  publication op i hi hc hold hc' := step_publication h op hi hc (Nat.ne_of_lt (hold.trans_le hg)) hc'
  recorded event token credits hold := by
    unfold RevisionStore.record
    rw [if_pos (Nat.ne_of_lt (hold.trans_le hg))]
    exact ⟨rfl, rfl, rfl⟩

/-! ## Main result -/

/-- Slots are never used again under a reader: after any calls,
* a slot that is in use keeps its event through the next call and is not given to a reservation, and
  the slots of handles hold revisions;
* a reservation that lasts gives exactly what it has promised;
* revisions are numbered in order, without overflow, and every slot with a revision shows one of them;
* after the end of an association nothing from before it is current, published or recorded. -/
theorem slots_never_recycled (n generation : ℕ) (ops : List Op) :
    let s := run n ops (start generation)
    (∀ op i, InUse n s i → Remains (s.store.slots i) ((step n op s).store.slots i)) ∧
    (∀ i ∈ s.handles, i < n ∧ (s.store.slots i).occupied ∧ (s.store.slots i).committed) ∧
    (∀ count token, (RevisionStore.reserve n s.referenced count s.store).1 = .ok token →
      ∀ later : List Op, .release token ∉ later →
        let s' := run n later (step n (.reserve count) s)
        s'.store.generation = s.store.generation →
          s'.records.countP (·.reservation = token) =
            min count (later.countP (Op.records token s.store.generation))) ∧
    s.records.Pairwise (·.id < ·.id) ∧ s.store.nextId ≤ uint64Max ∧
    (∀ i < n, (s.store.slots i).committed →
      ∃ r ∈ s.records, r.id = (s.store.slots i).id ∧ r.event = (s.store.slots i).event) ∧
    ∀ g, s.store.generation < g → ∀ later,
      Retired n g (run n later (step n (.detach g) s)) := by
  intro s
  have h : Inv n s := run_inv (start_inv generation) ops
  refine ⟨fun op i => step_remains h op, fun i hi => ?_, fun count token hr later hops hgen => ?_, h.ordered,
    (Nat.le_add_right _ _).trans h.numbers.ids, h.logged, fun g hg later => ?_⟩
  · obtain ⟨hlt, hc⟩ := h.slots.held i hi
    exact ⟨hlt, h.slots.occupied i hlt hc, hc⟩
  · obtain ⟨hleft, hgranted, htoken⟩ := left_of_reserve h hr
    have hinv := step_inv h (.reserve count)
    have hsame : (step n (.reserve count) s).store.generation = s.store.generation :=
      le_antisymm ((run_generation hinv later).trans_eq hgen) (step_generation h _)
    have hrun := run_granted hinv htoken hops (hgen.trans hsame.symm)
    rw [hleft, hgranted, hsame, Nat.zero_add] at hrun
    exact hrun
  · have hinv := step_inv h (.detach g)
    have hnew : (step n (.detach g) s).store.generation = g := by
      simp only [step, attempt]
      split
      · next e he =>
        exfalso
        have hok : ∃ store, RevisionStore.detach n s.referenced g s.store = .ok store :=
          ⟨_, detach_eq_ok.mpr ⟨hg, rfl⟩⟩
        rw [he] at hok
        obtain ⟨store, hok⟩ := hok
        cases hok
      · next store hok =>
        obtain ⟨-, rfl⟩ := detach_eq_ok.mp hok
        rfl
    exact retired (run_inv hinv later) (hnew.symm.trans_le (run_generation hinv later))

end System

end Vita.Context
