import Vita.Context.Receiver

/-!
# What a receiver knows

Only the last entry at or before a sample decides whether its metadata are known, and they are then
the state of that entry.

Main results:
- `forgetting_faithful_iff`: exactly when expiry and eviction do not change what is known. Expiry goes
  by arrival and not by effective time: it can drop an entry and keep an earlier one that the dropped
  entry had superseded;
- `insert_order_irrelevant`: the order of arrival decides neither what is kept nor what is known.
-/

namespace Vita.Context.ReceiverHistory

open Checked Timing State Codec Transaction

/-! ## The last entry -/

/-- The entry by itself is enough to know the metadata of a sample. -/
structure Decisive (e : Entry) (sample : ProtocolTime) (now : ℕ) : Prop where
  full : e.full
  agreed : ¬e.conflict
  fresh : Entry.fresh e now
  current : ¬Entry.outlived e sample
  complete : requiredKnown e.state

theorem foldl_apply {l : List Entry} {last : Entry} (h : l.getLast? = some last) :
    ∃ r, l.foldl Reading.apply {} = Reading.apply r last := by
  rw [List.getLast?_eq_some_iff] at h
  obtain ⟨before, rfl⟩ := h
  exact ⟨before.foldl Reading.apply {}, by simp⟩

/-- The last entry decides what is known. -/
theorem resolve_known {h : ReceiverHistory} {sample : ProtocolTime} {now : ℕ} :
    (resolve h sample now).confidence = .known ↔
      ∃ last, (upTo sample h.entries).getLast? = some last ∧ Decisive last sample now := by
  rcases hlast : (upTo sample h.entries).getLast? with _ | last
  · simp [resolve, hlast]
  · obtain ⟨r, hr⟩ := foldl_apply hlast
    simp only [resolve, hlast, hr, confidenceOf, Option.some.injEq, exists_eq_left']
    by_cases hfull : last.full
    · have happly : Reading.apply r last =
          { state := last.state, anchored := true, ambiguous := last.conflict, delta := false } := by
        simp [Reading.apply, hfull]
      rw [happly]
      constructor
      · intro hknown
        split_ifs at hknown with h₁ h₂ h₃ h₄
        simp only [not_true_eq_false, false_or, Bool.not_eq_true, Bool.not_eq_false] at h₁ h₂ h₃ h₄
        exact ⟨hfull, by simpa using h₁, by simpa using h₂, by simpa using h₃, by simpa using h₄⟩
      · rintro ⟨-, hagreed, hfresh, hcurrent, hcomplete⟩
        simp [hagreed, hfresh, hcurrent, hcomplete]
    · have hdelta : (Reading.apply r last).delta = true := by
        simp [Reading.apply, hfull]
      constructor
      · intro hknown
        split_ifs at hknown
      · rintro ⟨hf, -⟩
        exact absurd hf hfull

/-- Known metadata are the state of the last entry. -/
theorem resolve_state {h : ReceiverHistory} {sample : ProtocolTime} {now : ℕ} {last : Entry}
    (hlast : (upTo sample h.entries).getLast? = some last) (hfull : last.full) :
    (resolve h sample now).state = last.state := by
  obtain ⟨r, hr⟩ := foldl_apply hlast
  simp [resolve, hlast, hr, Reading.apply, hfull]

/-! ## Reachable histories -/

/-- The entries are in the order of their effective times. -/
def Ordered (h : ReceiverHistory) : Prop := Timeline.Ordered Entry.effective h.entries

theorem insert_eq_ok {n : ℕ} {x : Observation} {h h' : ReceiverHistory} :
    insert n x h = .ok h' ↔ ∃ e, entryOf h.profile x = .ok e ∧ ∃ entries,
      Timeline.placeBounded Entry.effective n mergeEntry e h.entries = some entries ∧
        h' = { h with entries } := by
  simp only [insert, bind_eq_ok]
  refine exists_congr fun e => and_congr_right fun _ => ?_
  rcases Timeline.placeBounded Entry.effective n mergeEntry e h.entries with _ | entries
  · simp
  · simp [eq_comm]

theorem entryOf_effective {profile : IqProfile} {x : Observation} {e : Entry}
    (h : entryOf profile x = .ok e) : e.effective = x.effective ∧ e.arrival = x.arrival ∧
      e.full = x.full ∧ e.conflict = false ∧ x.effective.valid := by
  simp only [entryOf, bind_eq_ok, rejectIf_eq_ok, pure_eq_ok, Except.ok.injEq] at h
  obtain ⟨_, -, _, -, _, hvalid, _, -, rfl⟩ := h
  exact ⟨rfl, rfl, rfl, rfl, by simpa using hvalid⟩

theorem mergeEntry_effective (existing e : Entry) :
    (mergeEntry existing e).effective = existing.effective := rfl

theorem insert_ordered {n : ℕ} {x : Observation} {h h' : ReceiverHistory} (hord : h.Ordered)
    (hins : insert n x h = .ok h') : h'.Ordered := by
  obtain ⟨e, -, entries, hplace, rfl⟩ := insert_eq_ok.mp hins
  exact List.Pairwise.sublist (Timeline.placeBounded_sublist hord hplace)
    (Timeline.place_ordered mergeEntry_effective hord e)

theorem receive_eq_insert {n : ℕ} {packet : PacketView} {generation arrival : ℕ} {full : Bool}
    {h h' : ReceiverHistory} (hrec : receive n packet generation arrival full h = .ok h') :
    ∃ x, insert n x h = .ok h' := by
  simp only [receive, bind_eq_ok] at hrec
  obtain ⟨_, -, _, -, snapshot, -, snapshot', -, _, -, hins⟩ := hrec
  exact ⟨_, hins⟩

theorem expire_ordered {now : ℕ} {h : ReceiverHistory} (hord : h.Ordered) : (expire now h).Ordered :=
  List.Pairwise.sublist List.filter_sublist hord

/-- Every call keeps the history in order. -/
theorem step_ordered {n : ℕ} {h : ReceiverHistory} (hord : h.Ordered) (op : Operation) :
    (step n h op).Ordered := by
  cases op with
  | insert x =>
    rcases hins : insert n x h with _ | h'
    · simpa [step, hins, Except.toOption] using hord
    · simpa [step, hins, Except.toOption] using insert_ordered hord hins
  | receive packet generation arrival full =>
    rcases hrec : receive n packet generation arrival full h with _ | h'
    · simpa [step, hrec, Except.toOption] using hord
    · obtain ⟨x, hins⟩ := receive_eq_insert hrec
      simpa [step, hrec, Except.toOption] using insert_ordered hord hins
  | expire now => exact expire_ordered hord

theorem reachable_ordered {n : ℕ} {h : ReceiverHistory} (hr : Reachable n h) : h.Ordered := by
  obtain ⟨generation, epoch, reference, profile, operations, rfl⟩ := hr
  refine List.foldlRecOn operations (step n) ?_ fun h hord op _ => step_ordered hord op
  exact List.Pairwise.nil

theorem getLast?_upTo {h : ReceiverHistory} (hord : h.Ordered) {sample : ProtocolTime} {e : Entry} :
    (upTo sample h.entries).getLast? = some e ↔ e ∈ h.entries ∧ e.effective ≤ sample ∧
      ∀ a ∈ h.entries, a.effective ≤ sample → a.effective ≤ e.effective :=
  Timeline.getLast?_upTo hord

/-! ## Forgetting -/

/-- What is known of a sample after forgetting was known before, with the same state. -/
def Faithful (before after : ReceiverHistory) (sample : ProtocolTime) (now : ℕ) : Prop :=
  (resolve after sample now).confidence = .known →
    (resolve before sample now).confidence = .known ∧
      (resolve before sample now).state = (resolve after sample now).state

/-- Expiry at a time never rewrites what is known, then or later. -/
def ExpiryFaithful (h : ReceiverHistory) (past : ℕ) : Prop :=
  ∀ sample now, past ≤ now → Faithful h (expire past h) sample now

/-- An insertion, and the eviction that it may cause, never rewrites what is known of earlier
samples. -/
def EvictionFaithful (n : ℕ) (h : ReceiverHistory) : Prop :=
  ∀ x h', insert n x h = .ok h' → ∀ sample now, sample < x.effective → Faithful h h' sample now

/-- Expiry drops an entry and keeps the one that this entry superseded, which is complete and not yet
outlived. -/
def revives (h : ReceiverHistory) (past : ℕ) : Bool :=
  ∃ e ∈ h.entries, ¬Entry.kept e past ∧ ∃ k ∈ h.entries, Entry.kept k past ∧
    k.effective < e.effective ∧
    (∀ m ∈ h.entries, Entry.kept m past → m.effective ≤ e.effective → m.effective ≤ k.effective) ∧
    k.full ∧ ¬k.conflict ∧ requiredKnown k.state ∧ ¬Entry.outlived k e.effective

theorem mem_expire {h : ReceiverHistory} {past : ℕ} {e : Entry} :
    e ∈ (expire past h).entries ↔ e ∈ h.entries ∧ Entry.kept e past := by
  simp [expire]

/-- An entry that was dropped is stale from then on. -/
theorem not_fresh_of_not_kept {e : Entry} {past now : ℕ} (h : ¬Entry.kept e past) (hle : past ≤ now) :
    ¬Entry.fresh e now := by
  simp only [Entry.kept, Entry.fresh, decide_eq_true_eq] at h ⊢
  omega

/-- An entry that was kept is fresh at some later time. -/
theorem exists_fresh_of_kept {e : Entry} {past : ℕ} (h : Entry.kept e past) :
    ∃ now, past ≤ now ∧ Entry.fresh e now := by
  simp only [Entry.kept, Entry.fresh, decide_eq_true_eq] at h ⊢
  refine ⟨max past e.arrival, le_max_left _ _, le_max_right _ _, ?_⟩
  simp only [staleAge] at h ⊢
  omega

/-- A later sample outlives what an earlier one does. -/
theorem outlived_mono {e : Entry} {s t : ProtocolTime} (hst : s ≤ t) (h : Entry.outlived e s) :
    Entry.outlived e t := by
  unfold Entry.outlived at h ⊢
  split at h
  · next last _ =>
    simp only [decide_eq_true_eq, ProtocolTime.before_iff, not_lt] at h ⊢
    exact h.trans hst
  · exact h

/-- Where no superseded entry comes back, an expiry rewrites nothing. -/
theorem expiryFaithful_of_not_revives {h : ReceiverHistory} (hord : h.Ordered) {past : ℕ}
    (hrev : revives h past = false) : ExpiryFaithful h past := by
  intro sample now hle hknown
  obtain ⟨k, hk, hdec⟩ := resolve_known.mp hknown
  obtain ⟨hkmem, hks, hkmax⟩ := (getLast?_upTo (expire_ordered hord)).mp hk
  obtain ⟨hkmem', hkept⟩ := mem_expire.mp hkmem
  -- the last entry before the expiry
  suffices hlast : (upTo sample h.entries).getLast? = some k by
    refine ⟨resolve_known.mpr ⟨k, hlast, hdec⟩, ?_⟩
    rw [resolve_state hlast hdec.full, resolve_state hk hdec.full]
  refine (getLast?_upTo hord).mpr ⟨hkmem', hks, fun e he hes => ?_⟩
  by_cases hekept : Entry.kept e past
  · exact hkmax e (mem_expire.mpr ⟨he, hekept⟩) hes
  · by_contra hlater
    rw [not_le] at hlater
    have hrevives : revives h past = true := by
      simp only [revives, decide_eq_true_eq]
      refine ⟨e, he, hekept, k, hkmem', hkept, hlater, fun m hm hmkept hme => ?_, hdec.full,
        hdec.agreed, hdec.complete, fun hout => hdec.current (outlived_mono hes hout)⟩
      exact hkmax m (mem_expire.mpr ⟨hm, hmkept⟩) (hme.trans hes)
    rw [hrev] at hrevives
    exact Bool.false_ne_true hrevives

/-- A superseded entry that comes back is known where nothing was. -/
theorem not_expiryFaithful_of_revives {h : ReceiverHistory} (hord : h.Ordered) {past : ℕ}
    (hrev : revives h past = true) : ¬ExpiryFaithful h past := by
  intro hfaithful
  simp only [revives, decide_eq_true_eq] at hrev
  obtain ⟨e, he, hdropped, k, hk, hkept, hlt, hkmax, hfull, hagreed, hcomplete, hcurrent⟩ := hrev
  obtain ⟨now, hle, hfresh⟩ := exists_fresh_of_kept hkept
  -- at the time of the dropped entry the earlier one is known again
  have hlast : (upTo e.effective (expire past h).entries).getLast? = some k := by
    refine (getLast?_upTo (expire_ordered hord)).mpr ⟨mem_expire.mpr ⟨hk, hkept⟩, hlt.le, ?_⟩
    intro m hm hme
    obtain ⟨hm, hmkept⟩ := mem_expire.mp hm
    exact hkmax m hm hmkept hme
  have hknown := resolve_known.mpr ⟨k, hlast, ⟨hfull, hagreed, hfresh, hcurrent, hcomplete⟩⟩
  obtain ⟨hbefore, -⟩ := hfaithful e.effective now hle hknown
  obtain ⟨last, hlast', hdec⟩ := resolve_known.mp hbefore
  obtain ⟨hmem, hle', hmax⟩ := (getLast?_upTo hord).mp hlast'
  have heq : last = e :=
    Timeline.Ordered.eq_of_key hord hmem he (le_antisymm hle' (hmax e he le_rfl))
  rw [heq] at hdec
  exact not_fresh_of_not_kept hdropped hle hdec.fresh

/-- An insertion does not change what is known of earlier samples, whatever it evicts: the evicted entry
is the earliest one, and where another entry decides, this one never mattered. -/
theorem evictionFaithful (n : ℕ) {h : ReceiverHistory} (hord : h.Ordered) : EvictionFaithful n h := by
  intro x h' hins sample now hsample hknown
  have hord' := insert_ordered hord hins
  obtain ⟨last, hlast, hdec⟩ := resolve_known.mp hknown
  obtain ⟨hmem, hle, hmax⟩ := (getLast?_upTo hord').mp hlast
  obtain ⟨e, hentry, entries, hplace, rfl⟩ := insert_eq_ok.mp hins
  have heff : e.effective = x.effective := (entryOf_effective hentry).1
  obtain ⟨hnew, hold⟩ := Timeline.placeBounded_mem mergeEntry_effective hord hplace
  have hbefore : last ∈ h.entries := by
    rcases hnew last hmem with hmem | hkey
    · exact hmem
    · rw [hkey, heff] at hle
      exact absurd hsample (not_lt.mpr hle)
  suffices hlast' : (upTo sample h.entries).getLast? = some last by
    refine ⟨resolve_known.mpr ⟨last, hlast', hdec⟩, ?_⟩
    rw [resolve_state hlast' hdec.full, resolve_state hlast hdec.full]
  refine (getLast?_upTo hord).mpr ⟨hbefore, hle, fun a ha hasample => ?_⟩
  have hne : a.effective ≠ e.effective := by
    rw [heff]
    exact (hasample.trans_lt hsample).ne
  rcases hold a ha hne with ha' | hfirst
  · exact hmax a ha' hasample
  · exact hfirst last hbefore

/-- Expiry and eviction rewrite nothing exactly if expiry does not bring back a superseded entry. -/
theorem forgetting_faithful_iff {n : ℕ} {h : ReceiverHistory} (hr : Reachable n h) (past : ℕ) :
    ExpiryFaithful h past ∧ EvictionFaithful n h ↔ revives h past = false := by
  have hord := reachable_ordered hr
  constructor
  · rintro ⟨hfaithful, -⟩
    by_contra hrev
    exact not_expiryFaithful_of_revives hord (Bool.not_eq_false _ ▸ hrev) hfaithful
  · intro hrev
    exact ⟨expiryFaithful_of_not_revives hord hrev, evictionFaithful n hord⟩

/-- A full state with a sample rate and a payload format. -/
def streamState (rate : Int64) : StateSnapshot :=
  setField (setField {} 1 { id := Field.sampleRate, value := .hertz rate, validity := .known }) 3
    { id := Field.dataPayloadFormat, value := .payloadFormat 0, validity := .known }

/-- A history whose entries arrived in the order of their times. -/
def orderedHistory : ReceiverHistory :=
  List.foldl (step 4) {}
    [.insert { state := streamState 1048576, effective := { seconds := 1 }, arrival := 0 },
     .insert { state := streamState 2097152, effective := { seconds := 2 }, arrival := 1900000000 }]

/-- The earlier entry expires, and brings nothing back. -/
theorem forgetting_faithful_iff_ordered :
    (expire 2000000000 orderedHistory).entries.length = 1 ∧ ExpiryFaithful orderedHistory 2000000000 ∧
      EvictionFaithful 4 orderedHistory := by
  have hreachable : Reachable 4 orderedHistory := ⟨1, .none, none, .generatorV1, _, rfl⟩
  have hrev : revives orderedHistory 2000000000 = false := by decide
  exact ⟨by decide, (forgetting_faithful_iff hreachable 2000000000).mpr hrev⟩

/-- A history in which the entry of the first second arrived after that of the next. -/
def crossedHistory : ReceiverHistory :=
  List.foldl (step 4) {}
    [.insert { state := streamState 1048576, effective := { seconds := 2 }, arrival := 0 },
     .insert { state := streamState 2097152, effective := { seconds := 1 }, arrival := 1900000000 }]

theorem crossedHistory_reachable : Reachable 4 crossedHistory :=
  ⟨1, .none, none, .generatorV1, _, rfl⟩

/-- After two seconds the later entry has expired, and the earlier one is known in its place. -/
theorem expiry_revives_superseded_entry :
    ¬∀ n h past, Reachable n h → ExpiryFaithful h past ∧ EvictionFaithful n h := by
  intro hall
  refine not_expiryFaithful_of_revives (reachable_ordered crossedHistory_reachable) ?_
    (hall 4 crossedHistory 2000000000 crossedHistory_reachable).1
  decide

/-! ## The order of arrival -/

/-- Insert observations in the order of a list. -/
def insertAll (n : ℕ) (h : ReceiverHistory) (xs : List Observation) : ReceiverHistory :=
  xs.foldl (fun h x => step n h (.insert x)) h

/-- The entries of the observations that are valid for a profile. -/
def admitted (profile : IqProfile) (xs : List Observation) : List Entry :=
  xs.filterMap fun x => (entryOf profile x).toOption

/-- The history with room for everything. -/
def unbounded (es : List Entry) : List Entry :=
  es.foldl (fun l e => Timeline.place Entry.effective mergeEntry e l) []

/-- Entries of one time that agree. -/
theorem not_disagrees_iff {a b : Entry} :
    disagrees a b = false ↔ a.full = b.full ∧ sameState a.state b.state ∧ a.events = b.events := by
  simp [disagrees, sameSnapshot]

theorem sameState_iff {a b : StateSnapshot} :
    sameState a b ↔ a.profile = b.profile ∧ ∀ i : Fin 8, i.val < activeStateFields a.profile →
      (a.fields i).id = (b.fields i).id ∧ (a.fields i).validity = (b.fields i).validity ∧
        ((a.fields i).validity = .known → (a.fields i).value = (b.fields i).value) := by
  simp [sameState]

theorem sameState_refl (a : StateSnapshot) : sameState a a := by
  rw [sameState_iff]
  exact ⟨rfl, fun _ _ => ⟨rfl, rfl, fun _ => rfl⟩⟩

theorem sameState_symm {a b : StateSnapshot} (h : sameState a b) : sameState b a := by
  rw [sameState_iff] at h ⊢
  obtain ⟨hprofile, hfields⟩ := h
  refine ⟨hprofile.symm, fun i hi => ?_⟩
  obtain ⟨hid, hvalidity, hvalue⟩ := hfields i (hprofile ▸ hi)
  exact ⟨hid.symm, hvalidity.symm, fun hk => (hvalue (hvalidity.trans hk)).symm⟩

theorem sameState_trans {a b c : StateSnapshot} (h : sameState a b) (h' : sameState b c) :
    sameState a c := by
  rw [sameState_iff] at h h' ⊢
  obtain ⟨hprofile, hfields⟩ := h
  obtain ⟨hprofile', hfields'⟩ := h'
  refine ⟨hprofile.trans hprofile', fun i hi => ?_⟩
  obtain ⟨hid, hvalidity, hvalue⟩ := hfields i hi
  obtain ⟨hid', hvalidity', hvalue'⟩ := hfields' i (hprofile ▸ hi)
  exact ⟨hid.trans hid', hvalidity.trans hvalidity',
    fun hk => (hvalue hk).trans (hvalue' (hvalidity ▸ hk))⟩

/-- Of two entries that disagree, every entry disagrees with one. -/
theorem disagrees_or {a b e : Entry} (h : disagrees a b) : disagrees e a ∨ disagrees e b := by
  by_contra hnot
  rw [not_or, Bool.not_eq_true, Bool.not_eq_true, not_disagrees_iff, not_disagrees_iff] at hnot
  obtain ⟨⟨hfull, hstate, hevents⟩, hfull', hstate', hevents'⟩ := hnot
  have hagree : disagrees a b = false := not_disagrees_iff.mpr
    ⟨hfull.symm.trans hfull', sameState_trans (sameState_symm hstate) hstate',
      hevents.symm.trans hevents'⟩
  rw [hagree] at h
  exact Bool.false_ne_true h

/-- The bounded history is the tail of the unbounded one. -/
theorem insertAll_entries (n : ℕ) (h : ReceiverHistory) (xs : List Observation) (l : List Entry)
    (hord : Timeline.Ordered Entry.effective l) (hl : h.entries = Timeline.latest n l) :
    (insertAll n h xs).entries = Timeline.latest n ((admitted h.profile xs).foldl
      (fun l e => Timeline.place Entry.effective mergeEntry e l) l) ∧
      insertAll n h xs = { h with entries := (insertAll n h xs).entries } := by
  induction xs generalizing h l with
  | nil => exact ⟨hl, rfl⟩
  | cons x xs ih =>
    rcases hentry : entryOf h.profile x with err | e
    · have hstep : step n h (.insert x) = h := by
        simp [step, insert, hentry, bind, Except.bind, Except.toOption]
      have hadm : admitted h.profile (x :: xs) = admitted h.profile xs := by
        simp [admitted, hentry, Except.toOption]
      rw [hadm, insertAll, List.foldl_cons, hstep]
      exact ih h l hord hl
    · have hadm : admitted h.profile (x :: xs) = e :: admitted h.profile xs := by
        simp [admitted, hentry, Except.toOption]
      generalize hl' : Timeline.place Entry.effective mergeEntry e l = l'
      have hord' : Timeline.Ordered Entry.effective l' :=
        hl' ▸ Timeline.place_ordered mergeEntry_effective hord e
      have hstep : step n h (.insert x) = { h with entries := Timeline.latest n l' } := by
        rw [← hl', ← Timeline.latest_place hord, ← hl]
        simp only [step, insert, hentry, bind, Except.bind]
        rcases Timeline.placeBounded Entry.effective n mergeEntry e h.entries with _ | entries
        · rfl
        · rfl
      rw [hadm, insertAll, List.foldl_cons, hstep, List.foldl_cons, hl']
      exact ih { h with entries := Timeline.latest n l' } l' hord' rfl

/-- The unbounded history of entries: it has an entry for every time, with the content of one of the
entries of that time, and marked if another one disagrees. -/
structure Records (es l : List Entry) : Prop where
  ordered : Timeline.Ordered Entry.effective l
  covers : ∀ a ∈ es, ∃ e ∈ l, e.effective = a.effective
  content : ∀ e ∈ l, ∃ a ∈ es, e.effective = a.effective ∧ e.full = a.full
  marked : ∀ e ∈ l, ∀ a ∈ es, a.effective = e.effective → disagrees e a → e.conflict

/-- One more entry is placed among the recorded ones. -/
theorem Records.place {es l : List Entry} (h : Records es l) (x : Entry) :
    Records (es ++ [x]) (Timeline.place Entry.effective mergeEntry x l) := by
  refine ⟨Timeline.place_ordered mergeEntry_effective h.ordered x, fun a ha => ?_, fun e he => ?_,
    fun e he a ha heff hdis => ?_⟩
  · -- every time has an entry
    by_cases hkey : ∃ y ∈ l, y.effective = x.effective
    · obtain ⟨y, hy, hkey⟩ := hkey
      have hmerged : mergeEntry y x ∈ Timeline.place Entry.effective mergeEntry x l :=
        (Timeline.mem_place h.ordered).mpr (.inr (.inl ⟨y, hy, hkey, rfl⟩))
      by_cases hax : a.effective = x.effective
      · exact ⟨mergeEntry y x, hmerged, hkey.trans hax.symm⟩
      · have ha : a ∈ es := by
          rcases List.mem_append.mp ha with ha | ha
          · exact ha
          · exact absurd (congrArg Entry.effective (List.mem_singleton.mp ha)) hax
        obtain ⟨e, he, heff⟩ := h.covers a ha
        exact ⟨e, (Timeline.mem_place h.ordered).mpr (.inl ⟨he, heff ▸ hax⟩), heff⟩
    · rw [not_exists] at hkey
      have hnew : ∀ y ∈ l, y.effective ≠ x.effective := fun y hy hyx => hkey y ⟨hy, hyx⟩
      rcases List.mem_append.mp ha with ha | ha
      · obtain ⟨e, he, heff⟩ := h.covers a ha
        exact ⟨e, (Timeline.mem_place h.ordered).mpr (.inl ⟨he, hnew e he⟩), heff⟩
      · obtain rfl := List.mem_singleton.mp ha
        exact ⟨a, (Timeline.mem_place h.ordered).mpr (.inr (.inr ⟨rfl, hnew⟩)), rfl⟩
  · rcases (Timeline.mem_place h.ordered).mp he with ⟨he, -⟩ | ⟨y, hy, -, rfl⟩ | ⟨rfl, -⟩
    · obtain ⟨a, ha, hcontent⟩ := h.content e he
      exact ⟨a, List.mem_append_left _ ha, hcontent⟩
    · obtain ⟨a, ha, hcontent⟩ := h.content y hy
      exact ⟨a, List.mem_append_left _ ha, hcontent⟩
    · exact ⟨e, by simp, rfl, rfl⟩
  · rcases (Timeline.mem_place h.ordered).mp he with ⟨he, hne⟩ | ⟨y, hy, -, rfl⟩ | ⟨rfl, hnew⟩
    · rcases List.mem_append.mp ha with ha | ha
      · exact h.marked e he a ha heff hdis
      · obtain rfl := List.mem_singleton.mp ha
        exact absurd heff.symm hne
    · -- the content of a merged entry is that of the old one
      have hconflict : (mergeEntry y x).conflict ↔ y.conflict ∨ disagrees y x := by
        simp [mergeEntry]
      rw [hconflict]
      rcases List.mem_append.mp ha with ha | ha
      · exact .inl (h.marked y hy a ha heff hdis)
      · obtain rfl := List.mem_singleton.mp ha
        exact .inr hdis
    · rcases List.mem_append.mp ha with ha | ha
      · obtain ⟨y, hy, hya⟩ := h.covers a ha
        exact absurd (hya.trans heff) (hnew y hy)
      · obtain rfl := List.mem_singleton.mp ha
        have hagree : disagrees a a = false := not_disagrees_iff.mpr ⟨rfl, sameState_refl _, rfl⟩
        rw [hagree] at hdis
        exact absurd hdis Bool.false_ne_true

theorem unbounded_records (es : List Entry) : Records es (unbounded es) := by
  induction es using List.reverseRecOn with
  | nil => exact ⟨List.Pairwise.nil, by simp, by simp [unbounded], by simp⟩
  | append_singleton es x ih =>
    rw [unbounded, List.foldl_append, List.foldl_cons, List.foldl_nil]
    exact ih.place x

/-- Without a bound the history holds every entry of distinct times. -/
theorem unbounded_perm {es : List Entry} (hes : (es.map Entry.effective).Nodup) :
    (unbounded es).Perm es := by
  induction es using List.reverseRecOn with
  | nil => exact List.Perm.nil
  | append_singleton es x ih =>
    rw [List.map_append, List.nodup_append] at hes
    obtain ⟨hnodup, -, hnew⟩ := hes
    have hperm := ih hnodup
    rw [unbounded, List.foldl_append, List.foldl_cons, List.foldl_nil]
    refine (Timeline.place_perm (unbounded_records es).ordered fun a ha => ?_).trans ?_
    · exact hnew _ (List.mem_map_of_mem (hperm.subset ha)) _ (by simp)
    · exact (hperm.cons x).trans (List.perm_append_singleton x es).symm

/-- The history admits some of the observations, in their order. -/
theorem admitted_sublist (profile : IqProfile) (xs : List Observation) :
    ((admitted profile xs).map Entry.effective).Sublist (xs.map Observation.effective) := by
  induction xs with
  | nil => exact List.Sublist.slnil
  | cons x xs ih =>
    rcases hentry : entryOf profile x with err | e
    · have hadm : admitted profile (x :: xs) = admitted profile xs := by
        simp [admitted, hentry, Except.toOption]
      rw [hadm, List.map_cons]
      exact ih.cons _
    · have hadm : admitted profile (x :: xs) = e :: admitted profile xs := by
        simp [admitted, hentry, Except.toOption]
      rw [hadm, List.map_cons, List.map_cons, (entryOf_effective hentry).1]
      exact ih.cons_cons _

/-- Entries of one time disagree, and no full entry lies between that time and the sample. -/
def Disputed (profile : IqProfile) (xs : List Observation) (sample : ProtocolTime) : Prop :=
  ∃ a ∈ admitted profile xs, ∃ b ∈ admitted profile xs, a.effective = b.effective ∧ disagrees a b ∧
    a.effective ≤ sample ∧
    ∀ e ∈ admitted profile xs, e.full → e.effective ≤ sample → e.effective ≤ a.effective

theorem Disputed.perm {profile : IqProfile} {xs ys : List Observation} {sample : ProtocolTime}
    (hperm : xs.Perm ys) (h : Disputed profile xs sample) : Disputed profile ys sample := by
  have hadm : (admitted profile xs).Perm (admitted profile ys) := hperm.filterMap _
  obtain ⟨a, ha, b, hb, heff, hdis, hle, hfull⟩ := h
  exact ⟨a, hadm.subset ha, b, hadm.subset hb, heff, hdis, hle,
    fun e he => hfull e (hadm.symm.subset he)⟩

theorem entries_insertAll (n : ℕ) (h : ReceiverHistory) (hempty : h.entries = [])
    (xs : List Observation) :
    insertAll n h xs =
      { h with entries := Timeline.latest n (unbounded (admitted h.profile xs)) } := by
  obtain ⟨hentries, heq⟩ := insertAll_entries n h xs [] List.Pairwise.nil (by simpa [Timeline.latest])
  rw [heq, hentries]
  rfl

/-- Nothing is known of a sample whose metadata are disputed. -/
theorem resolve_ne_known_of_disputed (n : ℕ) {h : ReceiverHistory} (hempty : h.entries = [])
    {xs : List Observation} {sample : ProtocolTime} (hdisp : Disputed h.profile xs sample) (now : ℕ) :
    (resolve (insertAll n h xs) sample now).confidence ≠ .known := by
  intro hknown
  rw [entries_insertAll n h hempty] at hknown
  obtain ⟨last, hlast, hdec⟩ := resolve_known.mp hknown
  have hrec := unbounded_records (admitted h.profile xs)
  have hord : Timeline.Ordered Entry.effective
      (Timeline.latest n (unbounded (admitted h.profile xs))) :=
    List.Pairwise.sublist (List.drop_sublist _ _) hrec.ordered
  obtain ⟨hmem, hle, hmax⟩ := (Timeline.getLast?_upTo hord).mp hlast
  obtain ⟨a, ha, b, hb, heff, hdis, hasample, hfull⟩ := hdisp
  -- the last entry is full, so its time is not after the disputed one
  obtain ⟨c, hc, hceff, hcfull⟩ := hrec.content last (Timeline.mem_of_mem_latest hmem)
  have hlast_le : last.effective ≤ a.effective :=
    hceff ▸ hfull c hc (hcfull ▸ hdec.full) (hceff ▸ hle)
  obtain ⟨e, he, heeff⟩ := hrec.covers a ha
  -- the entry of the disputed time is kept, since an earlier or equal one is
  have hkept : e ∈ Timeline.latest n (unbounded (admitted h.profile xs)) := by
    rw [Timeline.mem_latest hrec.ordered] at hmem ⊢
    refine ⟨he, lt_of_le_of_lt (List.countP_mono_left fun z _ hz => ?_) hmem.2⟩
    simp only [decide_eq_true_eq] at hz ⊢
    exact (heeff ▸ hlast_le).trans_lt hz
  have heq : e = last := by
    refine Timeline.Ordered.eq_of_key hord hkept hmem (le_antisymm ?_ (heeff ▸ hlast_le))
    exact hmax e hkept (heeff ▸ hasample)
  subst heq
  -- it disagrees with one of the two, and so it is marked
  refine hdec.agreed ?_
  rcases disagrees_or hdis with hea | heb
  · exact hrec.marked e he a ha heeff.symm hea
  · exact hrec.marked e he b hb (heff.symm.trans heeff.symm) heb

/-- The order in which Context arrives decides neither what is kept, which are the latest entries, nor
what is known; and where entries of one time disagree, nothing is known that depends on them. -/
theorem insert_order_irrelevant (n : ℕ) (h : ReceiverHistory) (hempty : h.entries = [])
    {xs ys : List Observation} (hperm : xs.Perm ys) :
    ((xs.map Observation.effective).Nodup →
      insertAll n h xs = insertAll n h ys ∧
      (∀ e, e ∈ (insertAll n h xs).entries ↔ e ∈ admitted h.profile xs ∧
        ((admitted h.profile xs).countP fun a => e.effective < a.effective) < n) ∧
      ∀ sample now, resolve (insertAll n h xs) sample now = resolve (insertAll n h ys) sample now) ∧
    ∀ sample now, Disputed h.profile xs sample →
      (resolve (insertAll n h xs) sample now).confidence ≠ .known ∧
      (resolve (insertAll n h ys) sample now).confidence ≠ .known := by
  refine ⟨fun hnodup => ?_, fun sample now hdisp => ?_⟩
  · have hadm : (admitted h.profile xs).Perm (admitted h.profile ys) := hperm.filterMap _
    have hnodup' : ((admitted h.profile xs).map Entry.effective).Nodup :=
      hnodup.sublist (admitted_sublist h.profile xs)
    have hxs := unbounded_perm hnodup'
    have hys := unbounded_perm ((hadm.map Entry.effective).nodup_iff.mp hnodup')
    have hord := (unbounded_records (admitted h.profile xs)).ordered
    -- both orders lead to one ordered list of the same entries
    have hsame : unbounded (admitted h.profile xs) = unbounded (admitted h.profile ys) := by
      refine List.Perm.eq_of_pairwise ?_ hord (unbounded_records _).ordered
        (hxs.trans (hadm.trans hys.symm))
      intro a b _ _ hab hba
      exact absurd (hab.trans hba) (lt_irrefl _)
    have heq : insertAll n h xs = insertAll n h ys := by
      rw [entries_insertAll n h hempty, entries_insertAll n h hempty, hsame]
    refine ⟨heq, fun e => ?_, fun _ _ => by rw [heq]⟩
    rw [entries_insertAll n h hempty, Timeline.mem_latest hord, hxs.mem_iff, hxs.countP_eq]
  · exact ⟨resolve_ne_known_of_disputed n hempty hdisp now,
      resolve_ne_known_of_disputed n hempty (hdisp.perm hperm) now⟩

/-- Three seconds of Context in one order. -/
def threeSeconds : List Observation :=
  [{ state := streamState 1048576, effective := { seconds := 1 }, arrival := 10 },
   { state := streamState 2097152, effective := { seconds := 2 }, arrival := 20 },
   { state := streamState 3145728, effective := { seconds := 3 }, arrival := 30 }]

theorem insert_order_irrelevant_reverse :
    insertAll 2 {} threeSeconds = insertAll 2 {} threeSeconds.reverse :=
  ((insert_order_irrelevant 2 {} rfl (List.reverse_perm threeSeconds).symm).1 (by decide)).1

end Vita.Context.ReceiverHistory
