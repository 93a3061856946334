import Vita.Transaction.Retention
import Mathlib.Data.List.Pairwise

/-!
# Invariants of the retention store

The list of used records is exact and in the order of the offsets, so extents do not overlap and what is
stored for one token is not changed through another.

Main lemmas:
- `Sound`: the invariant of the list, with one preservation lemma for each way to change it;
- `step_sound`: every call keeps it;
- `retained_bytes_stay`: what is read through a token that lives on, and when a record finds no place.
-/

namespace Vita.Transaction.RetentionStore

open Checked Timing State Codec

variable {l : AckLayout} {n m : ℕ} {s s' : RetentionStore}

/-! ## Records -/

theorem recordId_div (i : ℕ) (b : Bool) : recordId i b / 2 = i := by
  cases b
  · simp [recordId]
  · simp only [recordId, Bool.toNat_true]
    omega

theorem recordId_mod (i : ℕ) (b : Bool) : decide (recordId i b % 2 = 1) = b := by
  cases b <;> simp [recordId]

theorem recordId_injective {i j : ℕ} {b d : Bool} (h : recordId i b = recordId j d) : i = j ∧ b = d := by
  refine ⟨?_, ?_⟩
  · rw [← recordId_div i b, h, recordId_div]
  · rw [← recordId_mod i b, h, recordId_mod]

theorem recordId_surjective (id : ℕ) : recordId (id / 2) (id % 2 = 1) = id := by
  rcases Nat.mod_two_eq_zero_or_one id with h | h <;> simp [recordId, h] <;> omega

theorem recordId_lt {i : ℕ} {b : Bool} : recordId i b < 2 * n ↔ i < n := by
  cases b <;> simp [recordId] <;> omega

@[simp] theorem record_recordId (i : ℕ) (b : Bool) :
    s.record (recordId i b) = (s.entries i).records b := by
  simp only [record, recordId_div, recordId_mod]

/-- The record under a number after one record of an entry was set. -/
theorem record_update {i : ℕ} {b : Bool} {r : Record} {e : Entry}
    (h : e.records = Function.update (s.entries i).records b r) (id : ℕ) :
    (s.setEntry i e).record id = if id = recordId i b then r else s.record id := by
  obtain ⟨j, d, rfl⟩ : ∃ j d, id = recordId j d := ⟨_, _, (recordId_surjective id).symm⟩
  rw [record_recordId, record_recordId]
  by_cases hji : j = i
  · subst hji
    by_cases hdb : d = b
    · subst hdb
      simp [setEntry, h]
    · rw [if_neg fun heq => hdb (recordId_injective heq).2]
      simp [setEntry, h, hdb]
  · rw [if_neg fun heq => hji (recordId_injective heq).1]
    simp [setEntry, hji]

theorem record_setRecord (i : ℕ) (b : Bool) (r : Record) (id : ℕ) :
    (s.setRecord i b r).record id = if id = recordId i b then r else s.record id :=
  record_update rfl id

/-- An entry that keeps its records. -/
theorem record_setEntry {i : ℕ} {e : Entry} (h : e.records = (s.entries i).records) (id : ℕ) :
    (s.setEntry i e).record id = s.record id := by
  by_cases hi : id / 2 = i
  · simp [record, setEntry, hi, h]
  · simp [record, setEntry, hi]

/-! ## The list of used records -/

/-- The list is exact and in order, and every extent has room for what its record holds. -/
structure Sound (l : AckLayout) (n m : ℕ) (s : RetentionStore) : Prop where
  index : ∀ id, id ∈ s.occupied ↔ id < 2 * n ∧ (s.record id).used
  ordered : FirstFit.Ordered (fun id => (s.record id).offset) (fun id => (s.record id).bytes) s.occupied
  inside : ∀ id ∈ s.occupied, (s.record id).offset + (s.record id).bytes ≤ m
  positive : ∀ id ∈ s.occupied, 0 < (s.record id).canonical
  bytes : ∀ id ∈ s.occupied,
    (s.record id).bytes = (s.record id).canonical + (s.record id).responseCapacity * l.size
  count : ∀ id ∈ s.occupied, (s.record id).responseCount ≤ (s.record id).responseCapacity

theorem Sound.bytes_pos (h : Sound l n m s) {id : ℕ} (hid : id ∈ s.occupied) : 0 < (s.record id).bytes := by
  rw [h.bytes id hid]
  have := h.positive id hid
  omega

theorem Sound.nodup (h : Sound l n m s) : s.occupied.Nodup := by
  have hord := h.ordered
  unfold FirstFit.Ordered at hord
  refine List.Pairwise.imp_of_mem ?_ hord
  rintro a b ha - hle rfl
  have hpos := h.bytes_pos ha
  dsimp only at hle
  omega

/-- The extents of two records do not overlap. -/
theorem Sound.disjoint (h : Sound l n m s) {a b : ℕ} (ha : a ∈ s.occupied) (hb : b ∈ s.occupied)
    (hab : a ≠ b) : (s.record a).offset + (s.record a).bytes ≤ (s.record b).offset ∨
      (s.record b).offset + (s.record b).bytes ≤ (s.record a).offset := by
  have hsymm : Std.Symm fun a b : ℕ =>
      (s.record a).offset + (s.record a).bytes ≤ (s.record b).offset ∨
        (s.record b).offset + (s.record b).bytes ≤ (s.record a).offset := ⟨fun _ _ => Or.symm⟩
  have hall : s.occupied.Pairwise fun a b : ℕ =>
      (s.record a).offset + (s.record a).bytes ≤ (s.record b).offset ∨
        (s.record b).offset + (s.record b).bytes ≤ (s.record a).offset := h.ordered.imp .inl
  exact List.Pairwise.forall hall ha hb hab

/-- The parts of a record that its extent depends on. -/
def extent (r : Record) : Bool × ℕ × ℕ × ℕ × ℕ := (r.used, r.offset, r.bytes, r.canonical, r.responseCapacity)

/-- Nothing changes but marks and counts. -/
theorem Sound.of_extent (h : Sound l n m s) (hocc : s'.occupied = s.occupied)
    (hextent : ∀ id, extent (s'.record id) = extent (s.record id))
    (hcount : ∀ id ∈ s.occupied, (s'.record id).responseCount ≤ (s'.record id).responseCapacity) :
    Sound l n m s' := by
  have hfields : ∀ id, (s'.record id).used = (s.record id).used ∧
      (s'.record id).offset = (s.record id).offset ∧ (s'.record id).bytes = (s.record id).bytes ∧
      (s'.record id).canonical = (s.record id).canonical ∧
      (s'.record id).responseCapacity = (s.record id).responseCapacity := by
    intro id
    simpa [extent] using hextent id
  have hoffset : (fun id => (s'.record id).offset) = fun id => (s.record id).offset := by
    funext id
    exact (hfields id).2.1
  have hbytes : (fun id => (s'.record id).bytes) = fun id => (s.record id).bytes := by
    funext id
    exact (hfields id).2.2.1
  refine ⟨fun id => ?_, ?_, fun id hid => ?_, fun id hid => ?_, fun id hid => ?_, fun id hid => ?_⟩
  · rw [hocc, (hfields id).1]
    exact h.index id
  · rw [hocc, hoffset, hbytes]
    exact h.ordered
  all_goals
    rw [hocc] at hid
    obtain ⟨-, ho, hb, hc, hr⟩ := hfields id
  · rw [ho, hb]
    exact h.inside id hid
  · rw [hc]
    exact h.positive id hid
  · rw [hb, hc, hr]
    exact h.bytes id hid
  · exact hcount id hid

theorem Sound.setEntry (h : Sound l n m s) {i : ℕ} {e : Entry} (hrecords : e.records = (s.entries i).records) :
    Sound l n m (s.setEntry i e) := by
  refine h.of_extent rfl (fun id => ?_) fun id hid => ?_ <;> rw [record_setEntry hrecords]
  exact h.count id hid

/-- A record that keeps its extent keeps the store sound. -/
theorem Sound.setRecord (h : Sound l n m s) {i : ℕ} {b : Bool} {r : Record}
    (hextent : extent r = extent ((s.entries i).records b))
    (hcount : recordId i b ∈ s.occupied → r.responseCount ≤ r.responseCapacity) :
    Sound l n m (s.setRecord i b r) := by
  refine h.of_extent rfl (fun id => ?_) fun id hid => ?_ <;> rw [record_setRecord]
  · split
    · next heq => rw [hextent, heq, record_recordId]
    · rfl
  · split
    · next heq => exact hcount (heq ▸ hid)
    · exact h.count id hid

/-- A record that is cleared leaves the list. -/
theorem Sound.clearRecord (h : Sound l n m s) (i : ℕ) (b : Bool) : Sound l n m (clearRecord i b s) := by
  have hrecord : ∀ id, (RetentionStore.clearRecord i b s).record id =
      if id = recordId i b then {} else s.record id := record_setRecord i b {}
  have hocc : ∀ id, id ∈ (RetentionStore.clearRecord i b s).occupied ↔ id ∈ s.occupied ∧ id ≠ recordId i b := by
    intro id
    simp only [RetentionStore.clearRecord]
    split
    · rw [List.Nodup.mem_erase_iff h.nodup, and_comm]
    · next hunused =>
      refine ⟨fun hid => ⟨hid, ?_⟩, fun hid => hid.1⟩
      rintro rfl
      have hused := ((h.index _).mp hid).2
      rw [record_recordId] at hused
      exact hunused hused
  have hsub : (RetentionStore.clearRecord i b s).occupied.Sublist s.occupied := by
    simp only [RetentionStore.clearRecord]
    split
    · exact List.erase_sublist
    · exact List.Sublist.refl _
  refine ⟨fun id => ?_, ?_, fun id hid => ?_, fun id hid => ?_, fun id hid => ?_, fun id hid => ?_⟩
  · rw [hocc, h.index, hrecord]
    by_cases hid : id = recordId i b
    · simp [hid]
    · simp [hid]
  · refine List.Pairwise.imp_of_mem (fun ha hb hle => ?_) (h.ordered.sublist hsub)
    dsimp only at hle ⊢
    rw [hrecord, hrecord, if_neg ((hocc _).mp ha).2, if_neg ((hocc _).mp hb).2]
    exact hle
  all_goals
    obtain ⟨hmem, hne⟩ := (hocc id).mp hid
    rw [hrecord, if_neg hne]
  · exact h.inside id hmem
  · exact h.positive id hmem
  · exact h.bytes id hmem
  · exact h.count id hmem

theorem Sound.erase (h : Sound l n m s) (i : ℕ) : Sound l n m (erase i s) :=
  ((h.clearRecord i false).clearRecord i true).setEntry rfl

/-! ## New records -/

/-- A record has a place in the store: an unused record of an entry, and a gap. -/
structure Placed (l : AckLayout) (n m : ℕ) (packet : PacketView) (responses slot : ℕ)
    (s : RetentionStore) : Prop where
  bound : slot < n
  unused : ¬((s.entries slot).records packet.envelope.envelope.cancel).used
  length : 0 < packet.envelope.wire.length
  fits : (placement (requiredBytes l packet responses) s).1 + requiredBytes l packet responses ≤ m

section Insert

variable {key : TransactionKey} {packet : PacketView} {responses slot : ℕ} {credits : AdmissionBundle}

/-- The store with the new record. -/
def inserted (l : AckLayout) (key : TransactionKey) (packet : PacketView) (responses slot : ℕ)
    (credits : AdmissionBundle) (s : RetentionStore) : RetentionStore :=
  insertRecord l key packet responses slot (placement (requiredBytes l packet responses) s).1
    (placement (requiredBytes l packet responses) s).2 credits s

theorem record_inserted (id : ℕ) :
    (inserted l key packet responses slot credits s).record id =
      if id = recordId slot packet.envelope.envelope.cancel then
        { (s.entries slot).records packet.envelope.envelope.cancel with
          used := true, offset := (placement (requiredBytes l packet responses) s).1
          bytes := requiredBytes l packet responses, canonical := packet.envelope.wire.length
          responseCapacity := responses, responseCount := 0, active := false, terminal := false, credits }
      else s.record id :=
  record_update rfl id

theorem occupied_inserted :
    (inserted l key packet responses slot credits s).occupied =
      s.occupied.take (placement (requiredBytes l packet responses) s).2 ++
        recordId slot packet.envelope.envelope.cancel ::
          s.occupied.drop (placement (requiredBytes l packet responses) s).2 :=
  rfl

/-- A new record occupies one place. -/
theorem mem_occupied_inserted {id : ℕ} :
    id ∈ (inserted l key packet responses slot credits s).occupied ↔
      id ∈ s.occupied ∨ id = recordId slot packet.envelope.envelope.cancel := by
  have hsplit := List.take_append_drop (placement (requiredBytes l packet responses) s).2 s.occupied
  rw [occupied_inserted, List.mem_append, List.mem_cons]
  constructor
  · rintro (h | h | h)
    · exact .inl (List.mem_of_mem_take h)
    · exact .inr h
    · exact .inl (List.mem_of_mem_drop h)
  · rintro (h | h)
    · rw [← hsplit, List.mem_append] at h
      exact h.imp_right .inr
    · exact .inr (.inl h)

/-- A new record keeps the list exact and in order. -/
theorem Sound.insert (h : Sound l n m s) (hp : Placed l n m packet responses slot s) :
    Sound l n m (inserted l key packet responses slot credits s) := by
  have hnew : recordId slot packet.envelope.envelope.cancel ∉ s.occupied := by
    intro hmem
    have hused := ((h.index _).mp hmem).2
    rw [record_recordId] at hused
    exact hp.unused hused
  have hother : ∀ id ∈ s.occupied, (inserted l key packet responses slot credits s).record id =
      s.record id := by
    intro id hid
    rw [record_inserted, if_neg]
    rintro rfl
    exact hnew hid
  have hself : (inserted l key packet responses slot credits s).record
      (recordId slot packet.envelope.envelope.cancel) = _ := record_inserted _
  rw [if_pos rfl] at hself
  refine ⟨fun id => ?_, ?_, ?_, ?_, ?_, ?_⟩
  · rw [mem_occupied_inserted, h.index]
    by_cases hid : id = recordId slot packet.envelope.envelope.cancel
    · subst hid
      simp only [hself, or_true, and_true, true_iff]
      exact recordId_lt.mpr hp.bound
    · rw [record_inserted, if_neg hid]
      simp [hid]
  · have hord : FirstFit.Ordered
        (fun id => ((inserted l key packet responses slot credits s).record id).offset)
        (fun id => ((inserted l key packet responses slot credits s).record id).bytes) s.occupied := by
      refine List.Pairwise.imp_of_mem (fun ha hb hle => ?_) h.ordered
      dsimp only
      rw [hother _ ha, hother _ hb]
      exact hle
    -- the place was found with the old records, which those of the list still are
    have hplace : placement (requiredBytes l packet responses) s = FirstFit.place
        (fun id => ((inserted l key packet responses slot credits s).record id).offset)
        (fun id => ((inserted l key packet responses slot credits s).record id).bytes)
        (requiredBytes l packet responses) s.occupied 0 := by
      refine FirstFit.place_congr fun id hid => ?_
      rw [hother id hid]
      exact ⟨rfl, rfl⟩
    rw [occupied_inserted, hplace]
    refine hord.insert ?_ ?_
    · rw [hself, ← hplace]
    · rw [hself]
  all_goals
    intro id hid
    rcases mem_occupied_inserted.mp hid with hid | rfl
  · rw [hother id hid]
    exact h.inside id hid
  · rw [hself]
    exact hp.fits
  · rw [hother id hid]
    exact h.positive id hid
  · rw [hself]
    exact hp.length
  · rw [hother id hid]
    exact h.bytes id hid
  · rw [hself]
    rfl
  · rw [hother id hid]
    exact h.count id hid
  · rw [hself]
    exact Nat.zero_le _

end Insert

theorem findKey_eq_some {key : TransactionKey} {i : ℕ} (h : findKey n key s = some i) :
    i < n ∧ ((s.entries i).records false).used ∧ sameKey (s.entries i).key key := by
  have hp := List.find?_some h
  simp only [decide_eq_true_eq] at hp
  exact ⟨List.mem_range.mp (List.mem_of_find?_eq_some h), hp⟩

theorem freeSlot_eq_some {i : ℕ} (h : freeSlot n s = some i) :
    i < n ∧ ¬((s.entries i).records false).used ∧ (s.entries i).generation ≠ uint64Max := by
  have hp := List.find?_some h
  simp only [decide_eq_true_eq] at hp
  exact ⟨List.mem_range.mp (List.mem_of_find?_eq_some h), hp⟩

/-- Why a new record is refused. -/
inductive Refused (l : AckLayout) (n m : ℕ) (packet : PacketView) (responses : ℕ) (found : Option ℕ)
    (s : RetentionStore) : Prop
  | size (h : requiredBytes l packet responses > m)
  | entry (h : found = none ∧ freeSlot n s = none)
  | gap (h : (placement (requiredBytes l packet responses) s).1 + requiredBytes l packet responses > m)
  | credits {e : Error} (h : s.pool.acquire
      (retentionRequest packet.envelope.envelope.cancel (requiredBytes l packet responses)) = .error e)

/-- A new record is refused, or it is inserted where it has a place. -/
theorem reserveFresh_cases {key : TransactionKey} {packet : PacketView} {responses : ℕ} {found : Option ℕ}
    {r : Result RetentionAdmission} (hlength : 4 ≤ packet.envelope.wire.length)
    (hfound : ∀ i, found = some i → i < n ∧ ¬((s.entries i).records packet.envelope.envelope.cancel).used)
    (hcancel : packet.envelope.envelope.cancel → found.isSome)
    (h : reserveFresh l n m key packet responses found s = (r, s')) :
    (s' = s ∧ (∃ e, r = .error e) ∧ Refused l n m packet responses found s) ∨
    ∃ slot credits pool, Placed l n m packet responses slot { s with pool } ∧
      (found = some slot ∨ found = none ∧ freeSlot n s = some slot) ∧
      s.pool.acquire (retentionRequest packet.envelope.envelope.cancel
        (requiredBytes l packet responses)) = .ok (credits, pool) ∧
      r = .ok { token := { slot, generation := (s.entries slot).generation
                           cancellation := packet.envelope.envelope.cancel }, kind := .fresh } ∧
      s' = inserted l key packet responses slot credits { s with pool } := by
  unfold reserveFresh at h
  dsimp only at h
  split at h
  · next hsize =>
    obtain ⟨rfl, rfl⟩ := Prod.mk.inj h
    refine .inl ⟨rfl, ⟨_, rfl⟩, .size ?_⟩
    rcases hsize with hsize | hsize
    · unfold requiredBytes
      omega
    · rw [gt_iff_lt, Nat.div_lt_iff_lt_mul l.size_pos] at hsize
      unfold requiredBytes
      omega
  · next hsize =>
    rw [not_or, not_lt, not_lt, Nat.le_div_iff_mul_le l.size_pos] at hsize
    have hrequired : requiredBytes l packet responses ≤ m := by
      unfold requiredBytes
      omega
    split at h
    · next hnone =>
      obtain ⟨rfl, rfl⟩ := Prod.mk.inj h
      exact .inl ⟨rfl, ⟨_, rfl⟩, .entry (by simpa using hnone)⟩
    · next slot hslot =>
      have hplace : found = some slot ∨ found = none ∧ freeSlot n s = some slot := by
        cases found with
        | none => exact .inr ⟨rfl, by simpa using hslot⟩
        | some i => exact .inl (by simpa using hslot)
      split at h
      · next hgap =>
        obtain ⟨rfl, rfl⟩ := Prod.mk.inj h
        exact .inl ⟨rfl, ⟨_, rfl⟩, .gap (by omega)⟩
      · next hgap =>
        split at h
        · next e hacquire =>
          obtain ⟨rfl, rfl⟩ := Prod.mk.inj h
          exact .inl ⟨rfl, ⟨_, rfl⟩, .credits hacquire⟩
        · next credits pool hacquire =>
          obtain ⟨rfl, rfl⟩ := Prod.mk.inj h
          refine .inr ⟨slot, credits, pool, ?_, hplace, hacquire, rfl, rfl⟩
          have hfree : slot < n ∧
              ¬((s.entries slot).records packet.envelope.envelope.cancel).used := by
            rcases hplace with hsome | ⟨hnone, hfree⟩
            · exact hfound slot hsome
            · -- without an entry it is not a cancellation
              obtain ⟨hlt, hunused, -⟩ := freeSlot_eq_some hfree
              cases hc : packet.envelope.envelope.cancel with
              | false => exact ⟨hlt, hunused⟩
              | true =>
                rw [hnone] at hcancel
                exact absurd (hcancel hc) (by simp)
          exact ⟨hfree.1, hfree.2, by omega, by
            show (placement (requiredBytes l packet responses) s).1 + _ ≤ m
            omega⟩

/-- `reserve` refuses a packet, adds a reference to the record of the same command, or makes a record. -/
theorem reserve_cases {key : TransactionKey} {packet : PacketView} {responses : ℕ}
    {r : Result RetentionAdmission} (h : reserve l n m key packet responses s = (r, s')) :
    (s' = s ∧ ∃ e, r = .error e ∧
      (e.code ≠ .capacityExhausted ∨ Refused l n m packet responses (findKey n key s) s)) ∨
    (∃ i, findKey n key s = some i ∧ ((s.entries i).records packet.envelope.envelope.cancel).used ∧
      s.sameCommand ((s.entries i).records packet.envelope.envelope.cancel) packet ∧
      r = .ok (admissionOf i packet.envelope.envelope.cancel s) ∧ s' = addReference i s) ∨
    ∃ slot credits pool, Placed l n m packet responses slot { s with pool } ∧
      (findKey n key s = some slot ∨
        findKey n key s = none ∧ ¬packet.envelope.envelope.cancel ∧ freeSlot n s = some slot) ∧
      r = .ok { token := { slot, generation := (s.entries slot).generation
                           cancellation := packet.envelope.envelope.cancel }, kind := .fresh } ∧
      s' = inserted l key packet responses slot credits { s with pool } := by
  unfold reserve at h
  dsimp only at h
  generalize (if packet.envelope.envelope.cancel = true then 2 else 3) = limit at h
  split at h
  · obtain ⟨rfl, rfl⟩ := Prod.mk.inj h
    exact .inl ⟨rfl, _, rfl, .inl (by simp [failure])⟩
  · next hvalid =>
    simp only [not_or, not_lt] at hvalid
    have hlength := hvalid.2.2.1
    split at h
    · next hkey =>
      split at h
      · obtain ⟨rfl, rfl⟩ := Prod.mk.inj h
        exact .inl ⟨rfl, _, rfl, .inl (by simp [failure])⟩
      · next hcancel =>
        rcases reserveFresh_cases hlength (by simp) (fun hc => absurd hc hcancel) h with
          ⟨rfl, ⟨e, rfl⟩, hrefused⟩ | ⟨slot, credits, pool, hplaced, hslot, -, rfl, rfl⟩
        · exact .inl ⟨rfl, e, rfl, .inr (hkey ▸ hrefused)⟩
        · refine .inr (.inr ⟨slot, credits, pool, hplaced, .inr ⟨hkey, hcancel, ?_⟩, rfl, rfl⟩)
          simpa using hslot
    · next i hkey =>
      split at h
      · next hunused =>
        obtain ⟨hlt, -, -⟩ := findKey_eq_some hkey
        rcases reserveFresh_cases hlength (fun j hj => by
            obtain rfl := Option.some.inj hj
            exact ⟨hlt, hunused⟩) (fun _ => rfl) h with
          ⟨rfl, ⟨e, rfl⟩, hrefused⟩ | ⟨slot, credits, pool, hplaced, hslot, -, rfl, rfl⟩
        · exact .inl ⟨rfl, e, rfl, .inr (hkey ▸ hrefused)⟩
        · refine .inr (.inr ⟨slot, credits, pool, hplaced, .inl ?_, rfl, rfl⟩)
          rw [hkey]
          simpa using hslot
      · next hused =>
        split at h
        · obtain ⟨rfl, rfl⟩ := Prod.mk.inj h
          exact .inl ⟨rfl, _, rfl, .inl (by simp [failure])⟩
        · next hsame =>
          obtain ⟨rfl, rfl⟩ := Prod.mk.inj h
          exact .inr (.inl ⟨i, hkey, not_not.mp hused, not_not.mp hsame, rfl, rfl⟩)

/-! ## What is stored for a token -/

/-- The parts of a record that tell where its command and its answers are. -/
def stored (r : Record) : (Bool × ℕ × ℕ × ℕ × ℕ) × ℕ := (extent r, r.responseCount)

/-- No byte changes, and the record of a token stays where it is as long as the token lives. -/
structure Kept (t : RetentionToken) (s s' : RetentionStore) : Prop where
  bytes : s'.bytes = s.bytes
  generation : (s.entries t.slot).generation ≤ (s'.entries t.slot).generation
  record : (s'.entries t.slot).generation = (s.entries t.slot).generation →
    ((s'.entries t.slot).records t.cancellation).used →
      stored ((s'.entries t.slot).records t.cancellation) =
        stored ((s.entries t.slot).records t.cancellation)

variable {t : RetentionToken}

theorem Kept.refl : Kept t s s := ⟨rfl, Nat.le_refl _, fun _ _ => rfl⟩

/-- What is kept twice is kept. -/
theorem Kept.trans {s'' : RetentionStore} (h : Kept t s s') (h' : Kept t s' s'') : Kept t s s'' where
  bytes := h'.bytes.trans h.bytes
  generation := h.generation.trans h'.generation
  record hgen hused := by
    have hle := h.generation
    have hle' := h'.generation
    have hstored := h'.record (by omega) hused
    -- the token lived in between
    have hused' : ((s'.entries t.slot).records t.cancellation).used := by
      simp only [stored, extent, Prod.mk.injEq] at hstored
      rw [← hstored.1.1]
      exact hused
    exact hstored.trans (h.record (by omega) hused')

theorem kept_setEntry {i : ℕ} {e : Entry} (hgen : (s.entries i).generation ≤ e.generation)
    (hrecords : e.generation = (s.entries i).generation → e.records = (s.entries i).records) :
    Kept t s (s.setEntry i e) := by
  by_cases hi : t.slot = i
  · refine ⟨rfl, by simpa [setEntry, hi] using hgen, fun h _ => ?_⟩
    simp only [setEntry, hi, Function.update_self] at h ⊢
    rw [hrecords h]
  · exact ⟨rfl, by simp [setEntry, hi], fun _ _ => by simp [setEntry, hi]⟩

theorem kept_setRecord {i : ℕ} {b : Bool} {r : Record}
    (hstored : r.used → stored r = stored ((s.entries i).records b)) : Kept t s (s.setRecord i b r) := by
  by_cases hi : t.slot = i
  · refine ⟨rfl, by simp [setRecord, setEntry, hi], fun _ hused => ?_⟩
    simp only [setRecord, setEntry, hi, Function.update_self] at hused ⊢
    by_cases hb : t.cancellation = b
    · simp only [hb, Function.update_self] at hused ⊢
      exact hstored hused
    · simp only [Function.update_of_ne hb]
  · exact ⟨rfl, by simp [setRecord, setEntry, hi], fun _ _ => by simp [setRecord, setEntry, hi]⟩

theorem kept_clearRecord (i : ℕ) (b : Bool) : Kept t s (clearRecord i b s) := by
  have h : Kept t s (s.setRecord i b {}) := kept_setRecord fun hused => absurd hused Bool.false_ne_true
  exact ⟨h.bytes, h.generation, h.record⟩

theorem kept_erase (i : ℕ) : Kept t s (erase i s) := by
  have hclear : Kept t s (clearRecord i true (clearRecord i false s)) :=
    (kept_clearRecord i false).trans (kept_clearRecord i true)
  unfold erase
  generalize clearRecord i true (clearRecord i false s) = s₁ at hclear ⊢
  refine hclear.trans (kept_setEntry (Nat.le_succ _) fun h => ?_)
  dsimp only at h
  omega

theorem kept_addReference (i : ℕ) : Kept t s (addReference i s) := by
  unfold addReference
  exact kept_setEntry (Nat.le_refl _) fun _ => rfl

theorem kept_expire (now : ℕ) : Kept t s (expire n now s) := by
  unfold expire
  refine List.foldlRecOn (List.range n) _ (motive := fun s' => Kept t s s') .refl fun s' hs' i _ => ?_
  split
  · exact hs'.trans (kept_erase i)
  · exact hs'

/-- The calls that neither make a record nor store an answer. -/
theorem step_kept {op : Operation} (hreserve : ∀ key packet responses, op ≠ .reserve key packet responses)
    (happend : ∀ t ack, op ≠ .append t ack) : Kept t s (step l n m s op) := by
  cases op with
  | reserve key packet responses => exact absurd rfl (hreserve key packet responses)
  | append t ack => exact absurd rfl (happend t ack)
  | replayExisting key packet =>
    simp only [step, replayExisting]
    split
    · exact .refl
    · split
      · exact .refl
      · split
        · exact .refl
        · split
          · exact .refl
          · split
            · exact .refl
            · exact kept_addReference _
  | bind t' handle =>
    simp only [step, bind]
    split
    · exact .refl
    · split
      · exact .refl
      · exact kept_setRecord fun _ => rfl
  | complete t' now =>
    simp only [step, complete]
    split
    · exact .refl
    · split
      · exact .refl
      · generalize (if now + minimumRetention > uint64Max then uint64Max
          else max (s.entries t'.slot).expires (now + minimumRetention)) = expires
        have hentry : Kept t s (s.setEntry t'.slot { s.entries t'.slot with expires }) :=
          kept_setEntry (Nat.le_refl _) fun _ => rfl
        refine hentry.trans (kept_setRecord fun _ => ?_)
        simp [setEntry, stored, extent]
  | retain t' =>
    simp only [step, retain]
    split
    · exact .refl
    · exact kept_addReference _
  | release t' =>
    simp only [step, release]
    split
    · exact .refl
    · have hdec : Kept t s (s.setEntry t'.slot
          { s.entries t'.slot with references := (s.entries t'.slot).references - 1 }) :=
        kept_setEntry (Nat.le_refl _) fun _ => rfl
      split
      · exact hdec.trans (kept_erase _)
      · exact hdec
  | rollback t' =>
    simp only [step, rollback]
    split
    · exact .refl
    · split
      · exact .refl
      · have hclear : Kept t s (clearRecord t'.slot t'.cancellation s) := kept_clearRecord _ _
        have hdec := hclear.trans (kept_setEntry (i := t'.slot) (e :=
          { (clearRecord t'.slot t'.cancellation s).entries t'.slot with
            references := (s.entries t'.slot).references - 1 }) (Nat.le_refl _) fun _ => rfl)
        split
        · exact hdec
        · exact hdec.trans (kept_erase _)
  | expire now => exact kept_expire now
  | credits pool => exact ⟨rfl, Nat.le_refl _, fun _ _ => rfl⟩

/-! ## Every call keeps the list -/

theorem holds_iff : s.holds n t ↔ t.slot < n ∧ ((s.entries t.slot).records t.cancellation).used ∧
    (s.entries t.slot).generation = t.generation := by
  simp [holds]

/-- The record of a live token is listed. -/
theorem Sound.mem_of_holds (h : Sound l n m s) (ht : s.holds n t) :
    recordId t.slot t.cancellation ∈ s.occupied := by
  obtain ⟨hlt, hused, -⟩ := holds_iff.mp ht
  rw [h.index, record_recordId]
  exact ⟨recordId_lt.mpr hlt, hused⟩

theorem Sound.write (h : Sound l n m s) (offset : ℕ) (data : Bytes) : Sound l n m (s.write offset data) :=
  h.of_extent rfl (fun _ => rfl) h.count

/-- An answer is refused, or it is stored behind those of its record. -/
theorem append_cases (t : RetentionToken) (ack : AckRecord) (s : RetentionStore) :
    (∃ e, append l n t ack s = (.error e, s)) ∨
    s.holds n t ∧ ((s.entries t.slot).records t.cancellation).responseCount ≠
        ((s.entries t.slot).records t.cancellation).responseCapacity ∧
      append l n t ack s = (.ok (), (s.write (responseOffset l
          ((s.entries t.slot).records t.cancellation)
          ((s.entries t.slot).records t.cancellation).responseCount) (l.write ack)).setRecord
        t.slot t.cancellation
          { (s.entries t.slot).records t.cancellation with
            responseCount := ((s.entries t.slot).records t.cancellation).responseCount + 1 }) := by
  unfold append
  dsimp only
  split
  · exact .inl ⟨_, rfl⟩
  · next hholds =>
    split
    · exact .inl ⟨_, rfl⟩
    · split
      · exact .inl ⟨_, rfl⟩
      · next hfull => exact .inr ⟨not_not.mp hholds, hfull, rfl⟩

/-- An appended answer keeps the store sound. -/
theorem Sound.append (h : Sound l n m s) (t : RetentionToken) (ack : AckRecord) :
    Sound l n m (append l n t ack s).2 := by
  rcases append_cases (l := l) (n := n) t ack s with ⟨e, heq⟩ | ⟨hholds, hfull, heq⟩
  · rw [heq]
    exact h
  · rw [heq]
    refine (h.write _ _).setRecord rfl fun _ => ?_
    have hcount := h.count _ (h.mem_of_holds hholds)
    rw [record_recordId] at hcount
    dsimp only
    omega

theorem Sound.pool (h : Sound l n m s) (pool : AdmissionPool) : Sound l n m { s with pool } :=
  h.of_extent rfl (fun _ => rfl) h.count

theorem Sound.reserve (h : Sound l n m s) (key : TransactionKey) (packet : PacketView) (responses : ℕ) :
    Sound l n m (reserve l n m key packet responses s).2 := by
  obtain ⟨⟨r, s'⟩, hreserve⟩ : ∃ x, RetentionStore.reserve l n m key packet responses s = x := ⟨_, rfl⟩
  rw [hreserve]
  rcases reserve_cases hreserve with
    ⟨rfl, -⟩ | ⟨i, -, -, -, -, rfl⟩ | ⟨slot, credits, pool, hplaced, -, -, rfl⟩
  · exact h
  · exact h.setEntry rfl
  · exact (h.pool pool).insert hplaced

/-- Every operation leaves the store sound. -/
theorem step_sound (h : Sound l n m s) (op : Operation) : Sound l n m (step l n m s op) := by
  cases op with
  | reserve key packet responses => exact h.reserve key packet responses
  | append t ack => exact h.append t ack
  | replayExisting key packet =>
    simp only [step, replayExisting]
    split
    · exact h
    · split
      · exact h
      · split
        · exact h
        · split
          · exact h
          · split
            · exact h
            · exact h.setEntry rfl
  | bind t handle =>
    simp only [step, bind]
    split
    · exact h
    · split
      · exact h
      · refine h.setRecord rfl fun hid => ?_
        have hcount := h.count _ hid
        rw [record_recordId] at hcount
        exact hcount
  | complete t now =>
    simp only [step, complete]
    split
    · exact h
    · split
      · exact h
      · generalize (if now + minimumRetention > uint64Max then uint64Max
          else max (s.entries t.slot).expires (now + minimumRetention)) = expires
        have hentry : Sound l n m (s.setEntry t.slot { s.entries t.slot with expires }) := h.setEntry rfl
        refine hentry.setRecord (by simp [setEntry, extent]) fun hid => ?_
        have hcount := h.count _ hid
        rw [record_recordId] at hcount
        exact hcount
  | retain t =>
    simp only [step, retain]
    split
    · exact h
    · exact h.setEntry rfl
  | release t =>
    simp only [step, release]
    split
    · exact h
    · have hdec : Sound l n m (s.setEntry t.slot
          { s.entries t.slot with references := (s.entries t.slot).references - 1 }) := h.setEntry rfl
      split
      · exact hdec.erase _
      · exact hdec
  | rollback t =>
    simp only [step, rollback]
    split
    · exact h
    · split
      · exact h
      · have hclear := h.clearRecord t.slot t.cancellation
        have hdec : Sound l n m ((clearRecord t.slot t.cancellation s).setEntry t.slot
            { (clearRecord t.slot t.cancellation s).entries t.slot with
              references := (s.entries t.slot).references - 1 }) := hclear.setEntry rfl
        split
        · exact hdec
        · exact hdec.erase _
  | expire now =>
    simp only [step, expire]
    refine List.foldlRecOn (List.range n) _ (motive := fun s' => Sound l n m s') h fun s' hs' i _ => ?_
    split
    · exact hs'.erase i
    · exact hs'
  | credits pool => exact h.pool pool

theorem sound_initial (pool : AdmissionPool) : Sound l n m { pool } where
  index := by simp [record]
  ordered := List.Pairwise.nil
  inside := by simp
  positive := by simp
  bytes := by simp
  count := by simp

theorem reachable_sound (h : Reachable l n m s) : Sound l n m s := by
  obtain ⟨pool, ops, rfl⟩ := h
  exact List.foldlRecOn ops _ (motive := Sound l n m) (sound_initial pool) fun s hs op _ => step_sound hs op

/-! ## What is read through a token -/

/-- The command and the answers that are read through a token. -/
def SameReading (l : AckLayout) (n : ℕ) (t : RetentionToken) (s s' : RetentionStore) : Prop :=
  canonical n t s' = canonical n t s ∧ ∀ i, response l n t i s' = response l n t i s

theorem span_congr {offset count : ℕ}
    (h : ∀ a, offset ≤ a → a < offset + count → s'.bytes a = s.bytes a) :
    s'.span offset count = s.span offset count := by
  unfold span
  refine List.map_congr_left fun b hb => h _ (Nat.le_add_right _ _) ?_
  have := List.mem_range.mp hb
  omega

/-- A record that stays where it is, with bytes that stay as they are, is read in the same way. -/
theorem sameReading_of_stored (h : Sound l n m s) (ht : s.holds n t) (ht' : s'.holds n t)
    (hstored : stored ((s'.entries t.slot).records t.cancellation) =
      stored ((s.entries t.slot).records t.cancellation))
    (hbytes : ∀ a, ((s.entries t.slot).records t.cancellation).offset ≤ a →
      a < ((s.entries t.slot).records t.cancellation).offset +
        ((s.entries t.slot).records t.cancellation).bytes → s'.bytes a = s.bytes a) :
    SameReading l n t s s' := by
  have hmem := h.mem_of_holds ht
  have hsize := h.bytes _ hmem
  have hcount := h.count _ hmem
  rw [record_recordId] at hsize hcount
  simp only [stored, extent, Prod.mk.injEq] at hstored
  obtain ⟨⟨-, hoffset, -, hcanonical, -⟩, hresponses⟩ := hstored
  refine ⟨?_, fun i => ?_⟩
  · simp only [canonical, ht, ht', not_true, if_false, hoffset, hcanonical]
    rw [span_congr fun a hlo hhi => hbytes a hlo (by omega)]
  · simp only [response, ht, ht', not_true, if_false, hresponses]
    split
    · rfl
    · next hi =>
      have hroom : (i + 1) * l.size ≤ ((s.entries t.slot).records t.cancellation).responseCapacity * l.size :=
        Nat.mul_le_mul_right _ (by omega)
      rw [Nat.succ_mul] at hroom
      have hsame : responseOffset l ((s'.entries t.slot).records t.cancellation) i =
          responseOffset l ((s.entries t.slot).records t.cancellation) i := by
        simp only [responseOffset, hoffset, hcanonical]
      rw [hsame, span_congr fun a hlo hhi => hbytes a ?_ ?_]
      · unfold responseOffset at hlo
        omega
      · unfold responseOffset at hhi
        omega

theorem write_bytes {offset a : ℕ} {data : Bytes} (h : a < offset ∨ offset + data.length ≤ a) :
    (s.write offset data).bytes a = s.bytes a := by
  simp only [RetentionStore.write]
  rw [if_neg]
  omega

/-- A new record does not touch those that are there. -/
theorem sameReading_reserve (h : Sound l n m s) (key : TransactionKey) (packet : PacketView)
    (responses : ℕ) (ht : s.holds n t) (ht' : (reserve l n m key packet responses s).2.holds n t) :
    SameReading l n t s (reserve l n m key packet responses s).2 := by
  obtain ⟨⟨r, s'⟩, hreserve⟩ : ∃ x, reserve l n m key packet responses s = x := ⟨_, rfl⟩
  rw [hreserve] at ht' ⊢
  rcases reserve_cases hreserve with
    ⟨rfl, -⟩ | ⟨i, -, -, -, -, rfl⟩ | ⟨slot, credits, pool, hplaced, -, -, rfl⟩
  · exact ⟨rfl, fun _ => rfl⟩
  · have hkept : Kept t s (addReference i s) := kept_addReference i
    obtain ⟨-, hused, hgen⟩ := holds_iff.mp ht'
    refine sameReading_of_stored h ht ht' (hkept.record ?_ hused) fun a _ _ => by rw [hkept.bytes]
    rw [hgen, (holds_iff.mp ht).2.2]
  · have hmem := h.mem_of_holds ht
    have hother : recordId t.slot t.cancellation ≠ recordId slot packet.envelope.envelope.cancel := by
      intro heq
      obtain ⟨hslot, hcancel⟩ := recordId_injective heq
      have hused := (holds_iff.mp ht).2.1
      rw [hslot, hcancel] at hused
      exact hplaced.unused hused
    have hrecord : ((inserted l key packet responses slot credits { s with pool }).entries t.slot).records
        t.cancellation = (s.entries t.slot).records t.cancellation := by
      rw [← record_recordId, record_inserted, if_neg hother, record_recordId]
    refine sameReading_of_stored h ht ht' (by rw [hrecord]) fun a hlo hhi => ?_
    -- the bytes of the new record lie in a gap
    have hsplit := @FirstFit.place_split _ _ _ (requiredBytes l packet responses) _ _ h.ordered
      fun a _ => Nat.zero_le _
    have hfree : FirstFit.Free (fun id => (s.record id).offset) (fun id => (s.record id).bytes) s.occupied
        (placement (requiredBytes l packet responses) s).1 (requiredBytes l packet responses) := by
      intro id hid
      rw [← List.take_append_drop (placement (requiredBytes l packet responses) s).2 s.occupied,
        List.mem_append] at hid
      rcases hid with hid | hid
      · exact .inr (hsplit.2.1 id hid)
      · exact .inl (hsplit.2.2 id hid)
    have hgap := hfree _ hmem
    dsimp only at hgap
    rw [record_recordId] at hgap
    have hlength : (canonicalBytes packet).length ≤ requiredBytes l packet responses := by
      simp [canonicalBytes, requiredBytes]
    exact write_bytes (s := { s with pool }) (by
      show a < (placement (requiredBytes l packet responses) s).1 ∨
        (placement (requiredBytes l packet responses) s).1 + _ ≤ a
      omega)

/-- An answer is stored in the extent of its own record. -/
theorem sameReading_append (h : Sound l n m s) {t' : RetentionToken} (hne : t' ≠ t) (ack : AckRecord)
    (ht : s.holds n t) (ht' : (append l n t' ack s).2.holds n t) :
    SameReading l n t s (append l n t' ack s).2 := by
  rcases append_cases (l := l) (n := n) t' ack s with ⟨e, heq⟩ | ⟨hholds, hfull, heq⟩
  · rw [heq]
    exact ⟨rfl, fun _ => rfl⟩
  rw [heq] at ht' ⊢
  have hother : recordId t.slot t.cancellation ≠ recordId t'.slot t'.cancellation := by
    intro heq
    obtain ⟨hslot, hcancel⟩ := recordId_injective heq
    have hgen := (holds_iff.mp ht).2.2
    have hgen' := (holds_iff.mp hholds).2.2
    rw [hslot] at hgen
    refine hne ?_
    cases t
    cases t'
    simp_all
  have hmem := h.mem_of_holds ht
  have hmem' := h.mem_of_holds hholds
  have hgap := h.disjoint hmem hmem' hother
  have hsize := h.bytes _ hmem'
  have hcount := h.count _ hmem'
  rw [record_recordId, record_recordId] at hgap
  rw [record_recordId] at hsize hcount
  have hroom : (((s.entries t'.slot).records t'.cancellation).responseCount + 1) * l.size ≤
      ((s.entries t'.slot).records t'.cancellation).responseCapacity * l.size :=
    Nat.mul_le_mul_right _ (by omega)
  rw [Nat.succ_mul] at hroom
  refine sameReading_of_stored h ht ht' ?_ fun a hlo hhi => ?_
  · rw [← record_recordId, record_setRecord, if_neg hother, record_recordId]
    rfl
  · refine write_bytes ?_
    rw [l.length_write]
    unfold responseOffset
    omega

/-- A call that does not store an answer for the token. -/
theorem sameReading_step (h : Sound l n m s) {op : Operation} (hop : ∀ ack, op ≠ .append t ack)
    (ht : s.holds n t) (ht' : (step l n m s op).holds n t) : SameReading l n t s (step l n m s op) := by
  by_cases hreserve : ∃ key packet responses, op = .reserve key packet responses
  · obtain ⟨key, packet, responses, rfl⟩ := hreserve
    exact sameReading_reserve h key packet responses ht ht'
  · by_cases happend : ∃ t' ack, op = .append t' ack
    · obtain ⟨t', ack, rfl⟩ := happend
      refine sameReading_append h ?_ ack ht ht'
      rintro rfl
      exact hop ack rfl
    · have hkept : Kept t s (step l n m s op) :=
        step_kept (fun key packet responses heq => hreserve ⟨key, packet, responses, heq⟩)
          fun t' ack heq => happend ⟨t', ack, heq⟩
      obtain ⟨-, hused, hgen⟩ := holds_iff.mp ht'
      refine sameReading_of_stored h ht ht' (hkept.record ?_ hused) fun a _ _ => by rw [hkept.bytes]
      rw [hgen, (holds_iff.mp ht).2.2]

/-- Calls after which the token is still alive, none of which stores an answer for it. -/
theorem sameReading_run (h : Sound l n m s) {ops : List Operation} (hops : ∀ ack, .append t ack ∉ ops)
    (halive : ∀ k ≤ ops.length, (List.foldl (step l n m) s (ops.take k)).holds n t) :
    SameReading l n t s (List.foldl (step l n m) s ops) := by
  induction ops generalizing s with
  | nil => exact ⟨rfl, fun _ => rfl⟩
  | cons op ops ih =>
    have ht : s.holds n t := by simpa using halive 0 (Nat.zero_le _)
    have ht' : (step l n m s op).holds n t := by simpa using halive 1 (by simp)
    have hstep : SameReading l n t s (step l n m s op) := by
      refine sameReading_step h (fun ack heq => ?_) ht ht'
      subst heq
      exact hops ack List.mem_cons_self
    have hrest : SameReading l n t (step l n m s op) (List.foldl (step l n m) (step l n m s op) ops) := by
      refine ih (step_sound h op) (fun ack hmem => hops ack (List.mem_cons_of_mem _ hmem)) fun k hk => ?_
      simpa using halive (k + 1) (by simpa using hk)
    exact ⟨hrest.1.trans hstep.1, fun i => (hrest.2 i).trans (hstep.2 i)⟩

/-! ## The store as a whole -/

/-- The list has exactly the used records, in the order of their offsets, with extents that do not
overlap and lie in the array. -/
structure Intact (n m : ℕ) (s : RetentionStore) : Prop where
  exact : ∀ id, id ∈ s.occupied ↔ id < 2 * n ∧ (s.record id).used
  nodup : s.occupied.Nodup
  increasing : s.occupied.Pairwise fun a b => (s.record a).offset < (s.record b).offset
  disjoint : s.occupied.Pairwise fun a b =>
    (s.record a).offset + (s.record a).bytes ≤ (s.record b).offset
  inside : ∀ id ∈ s.occupied, 0 < (s.record id).bytes ∧ (s.record id).offset + (s.record id).bytes ≤ m

theorem Sound.intact (h : Sound l n m s) : Intact n m s where
  exact := h.index
  nodup := h.nodup
  increasing := by
    refine List.Pairwise.imp_of_mem (fun {a b} ha _ hle => ?_) h.ordered
    have hpos := h.bytes_pos ha
    dsimp only at hle
    omega
  disjoint := h.ordered
  inside id hid := ⟨h.bytes_pos hid, h.inside id hid⟩

/-- There is room for a record somewhere. -/
def HasGap (m required : ℕ) (s : RetentionStore) : Prop :=
  ∃ start, start + required ≤ m ∧
    FirstFit.Free (fun id => (s.record id).offset) (fun id => (s.record id).bytes) s.occupied start required

/-- A refusal for want of room means a slot, a block or a gap is missing. -/
theorem Refused.no_gap {packet : PacketView} {responses : ℕ} {found : Option ℕ}
    (h : Refused l n m packet responses found s) :
    found = none ∧ freeSlot n s = none ∨
      (∃ e, s.pool.acquire (retentionRequest packet.envelope.envelope.cancel
        (requiredBytes l packet responses)) = .error e) ∨
      ¬HasGap m (requiredBytes l packet responses) s := by
  cases h with
  | size h =>
    refine .inr (.inr ?_)
    rintro ⟨start, hstart, -⟩
    omega
  | entry h => exact .inl h
  | gap h =>
    refine .inr (.inr ?_)
    rintro ⟨start, hstart, hfree⟩
    have hle := FirstFit.place_le (Nat.zero_le start) hfree
    unfold placement at h
    omega
  | credits h => exact .inr (.inl ⟨_, h⟩)

/-- In every state of the store the list is intact; what is read through a token stays the same while
the token lives, unless an answer is stored for it; and a command that is refused for want of capacity
has no entry, no credits, or no gap of its size. -/
theorem retained_bytes_stay (h : Reachable l n m s) :
    Intact n m s ∧
    (∀ t ops, (∀ ack, .append t ack ∉ ops) →
      (∀ k ≤ ops.length, (List.foldl (step l n m) s (ops.take k)).holds n t) →
        SameReading l n t s (List.foldl (step l n m) s ops)) ∧
    ∀ key packet responses e, (reserve l n m key packet responses s).1 = .error e →
      e.code = .capacityExhausted → findKey n key s = none ∧ freeSlot n s = none ∨
        (∃ e, s.pool.acquire (retentionRequest packet.envelope.envelope.cancel
          (requiredBytes l packet responses)) = .error e) ∨
        ¬HasGap m (requiredBytes l packet responses) s := by
  have hsound := reachable_sound h
  refine ⟨hsound.intact, fun t ops hops halive => sameReading_run hsound hops halive, ?_⟩
  intro key packet responses e herror hcode
  obtain ⟨⟨r, s'⟩, hreserve⟩ : ∃ x, reserve l n m key packet responses s = x := ⟨_, rfl⟩
  rw [hreserve] at herror
  rcases reserve_cases hreserve with
    ⟨-, e', hr, hrefused⟩ | ⟨i, -, -, -, hr, -⟩ | ⟨slot, credits, pool, -, -, hr, -⟩
  · obtain rfl : e = e' := by simpa using herror.symm.trans hr
    exact (hrefused.resolve_left fun hne => hne hcode).no_gap
  · exact absurd (herror.symm.trans hr) (by simp)
  · exact absurd (herror.symm.trans hr) (by simp)

/-- A layout with two bytes: the kind of an acknowledgement, and whether it is for a cancellation. -/
def twoBytes : AckLayout where
  size := 2
  write ack :=
    [(match ack.kind with | .validation => 0 | .execution => 1 | .state => 2),
      if ack.cancellation then 1 else 0]
  size_pos := by decide
  length_write _ := rfl

/-- A command of four bytes. -/
def shortCommand (message : UInt32) : PacketView :=
  { envelope := { envelope := { type := .command, command := some { messageId := message } }
                  wire := [0x60, 0x12, 0, 1], payloadOffset := 4 } }

def shortKey (message : UInt32) : TransactionKey :=
  { bindingGeneration := 1, peer := { peer := 1, generation := 1 }, messageId := message }

/-- A store of twelve bytes with two commands that have room for an answer. -/
def fullStore : RetentionStore :=
  List.foldl (step twoBytes 3 12) { pool := { capacities := fun _ => 100 } }
    [.reserve (shortKey 1) (shortCommand 1) 1, .reserve (shortKey 2) (shortCommand 2) 1,
     .bind { slot := 1, generation := 1 } none]

theorem fullStore_reachable : Reachable twoBytes 3 12 fullStore := ⟨_, _, rfl⟩

/-- An answer for the second command leaves the first one alone, and a third one finds no gap. -/
theorem retained_bytes_stay_fullStore :
    SameReading twoBytes 3 { slot := 0, generation := 1 } fullStore
        (List.foldl (step twoBytes 3 12) fullStore
          [.append { slot := 1, generation := 1 } {}, .complete { slot := 1, generation := 1 } 5]) ∧
      ¬HasGap 12 (requiredBytes twoBytes (shortCommand 3) 1) fullStore := by
  obtain ⟨-, hreading, hgap⟩ := retained_bytes_stay fullStore_reachable
  refine ⟨hreading _ _ (by simp) (by decide +kernel), ?_⟩
  have herror : (reserve twoBytes 3 12 (shortKey 3) (shortCommand 3) 1 fullStore).1 =
      .error (failure .capacityExhausted) := by decide +kernel
  rcases hgap _ _ _ _ herror rfl with ⟨-, hentry⟩ | ⟨e, hcredits⟩ | hnone
  · exact absurd hentry (by decide +kernel)
  · have hok : (fullStore.pool.acquire (retentionRequest (shortCommand 3).envelope.envelope.cancel
        (requiredBytes twoBytes (shortCommand 3) 1))).isOk = true := by decide +kernel
    rw [hcredits] at hok
    exact absurd hok Bool.false_ne_true
  · exact hnone

end Vita.Transaction.RetentionStore
