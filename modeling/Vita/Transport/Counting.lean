import Vita.Transport.LoopbackTheorems
import Vita.Transport.UdpTheorems

/-!
# Packet counts

A registry counts the packets of every key modulo 16. Both transports commit a count when they accept a
submission and at no other time, so the counts of a key in a history are 0, 1, 2 and so on.

Main results:
- `CounterRegistry.accept_countOf`: what `accept` changes;
- `Counted.tally`: what the registry and the history know of each other;
- `Loopback.run_counted`, `Udp.run_counted`.
-/

namespace Vita.Transport

open Checked

/-! ## The registry -/

namespace CounterRegistry

variable {r r' : CounterRegistry} {key key' : CounterKey} {c : UInt8}

/-- The next count of a key. -/
def countOf (r : CounterRegistry) (key : CounterKey) : Option UInt8 :=
  (r.entries.find? (·.1 = key)).map Prod.snd

/-- No packet has been counted. -/
def Fresh (r : CounterRegistry) : Prop := ∀ e ∈ r.entries, e.2 = 0

theorem next_eq_ok : r.next key = .ok c ↔ r.frozen ∧ r.countOf key = some c := by
  unfold next countOf
  simp only [bind_eq_ok, rejectIf_eq_ok, exists_const, not_not]
  refine and_congr_right fun _ => ?_
  cases r.entries.find? (·.1 = key) <;> simp

theorem Fresh.countOf (h : r.Fresh) (hc : r.countOf key = some c) : c = 0 := by
  obtain ⟨e, he, rfl⟩ := Option.map_eq_some_iff.mp hc
  exact h e (List.mem_of_find?_eq_some he)

/-- The loop of `accept` counts one packet of its key. -/
theorem acceptIn_find {entries entries' : List (CounterKey × UInt8)}
    (h : acceptIn key c entries = .ok entries') (other : CounterKey) :
    (entries.find? (·.1 = key)).map Prod.snd = some c ∧
      (entries'.find? (·.1 = other)).map Prod.snd =
        if other = key then some ((c + 1) &&& 15) else (entries.find? (·.1 = other)).map Prod.snd := by
  induction entries generalizing entries' with
  | nil => cases h
  | cons e rest ih =>
    obtain ⟨k, count⟩ := e
    unfold acceptIn at h
    split at h
    · next hk =>
      subst hk
      split at h
      · cases h
      · next hcount =>
        obtain rfl := not_not.mp hcount
        cases h
        by_cases hother : k = other
        · simp [hother]
        · simp [hother, Ne.symm hother]
    · next hk =>
      simp only [bind_eq_ok, pure_eq_ok, Except.ok.injEq] at h
      obtain ⟨rest', hrest, rfl⟩ := h
      obtain ⟨hcount, hfind⟩ := ih hrest
      by_cases hother : k = other
      · subst hother
        simp [hk, hcount]
      · simp [hk, hother, hcount, hfind]

theorem accept_countOf (h : r.accept key c = .ok r') (other : CounterKey) :
    r.countOf key = some c ∧
      r'.countOf other = if other = key then some ((c + 1) &&& 15) else r.countOf other := by
  unfold accept at h
  simp only [bind_eq_ok, rejectIf_eq_ok, exists_const, pure_eq_ok, Except.ok.injEq] at h
  obtain ⟨-, entries, hentries, rfl⟩ := h
  exact acceptIn_find hentries other

/-- A packet with the next count is accepted. -/
theorem accept_next (h : r.next key = .ok c) : ∃ r', r.accept key c = .ok r' := by
  obtain ⟨hfrozen, hcount⟩ := next_eq_ok.mp h
  have hloop : ∀ entries : List (CounterKey × UInt8),
      (entries.find? (·.1 = key)).map Prod.snd = some c → ∃ entries', acceptIn key c entries = .ok entries' := by
    intro entries
    induction entries with
    | nil => nofun
    | cons e rest ih =>
      obtain ⟨k, count⟩ := e
      intro hfind
      unfold acceptIn
      by_cases hk : k = key
      · simp only [hk, List.find?_cons, decide_true, Option.map_some, Option.some.injEq] at hfind
        simp [hk, hfind]
      · simp only [List.find?_cons, hk, decide_false] at hfind
        obtain ⟨rest', hrest⟩ := ih hfind
        simp [hk, hrest]
  obtain ⟨entries', hentries⟩ := hloop r.entries hcount
  refine ⟨{ r with entries := entries' }, ?_⟩
  simp only [accept, bind_eq_ok, rejectIf_eq_ok, exists_const, pure_eq_ok, Except.ok.injEq, not_not]
  exact ⟨hfrozen, entries', hentries, rfl⟩

/-- A count is stale when it is not the next one. -/
theorem accept_stale {e : Error} (h : r.accept key c = .error e) (hcode : e.code = .staleGeneration) :
    ∃ expected, r.next key = .ok expected ∧ expected ≠ c := by
  have hloop : ∀ entries : List (CounterKey × UInt8), acceptIn key c entries = .error e →
      ∃ expected, (entries.find? (·.1 = key)).map Prod.snd = some expected ∧ expected ≠ c := by
    intro entries
    induction entries with
    | nil =>
      intro hnil
      cases hnil
      cases hcode
    | cons entry rest ih =>
      obtain ⟨k, count⟩ := entry
      intro hentry
      unfold acceptIn at hentry
      by_cases hk : k = key
      · rw [if_pos hk] at hentry
        split at hentry
        · next hcount => exact ⟨count, by simp [hk], hcount⟩
        · cases hentry
      · simp only [if_neg hk, bind_eq_error, pure_eq_ok, reduceCtorEq, and_false, exists_false,
          or_false] at hentry
        obtain ⟨expected, hexpected, hne⟩ := ih hentry
        exact ⟨expected, by simpa [hk] using hexpected, hne⟩
  unfold accept at h
  simp only [bind_eq_error, rejectIf_eq_error, rejectIf_eq_ok, exists_const, pure_eq_ok, reduceCtorEq,
    and_false, or_false, not_not] at h
  rcases h with ⟨-, rfl⟩ | ⟨hfrozen, h⟩
  · cases hcode
  · obtain ⟨expected, hexpected, hne⟩ := hloop r.entries h
    exact ⟨expected, next_eq_ok.mpr ⟨hfrozen, hexpected⟩, hne⟩

/-- A new key starts at 0, and the others are kept. -/
theorem insert_countOf {conflict : ErrorCode} (h : insert conflict r key = .ok r') (other : CounterKey) :
    r'.countOf other = r.countOf other ∨ r.countOf other = none ∧ r'.countOf other = some 0 := by
  unfold insert at h
  simp only [bind_eq_ok, rejectIf_eq_ok, exists_const, pure_eq_ok, Except.ok.injEq] at h
  obtain ⟨-, hnew, -, rfl⟩ := h
  unfold countOf
  rw [List.find?_append]
  cases hfind : r.entries.find? (·.1 = other) with
  | some e => exact .inl rfl
  | none =>
    by_cases hother : key = other
    · right
      simp [hother]
    · left
      simp [hother]

/-- A new counter begins at zero, the others stay. -/
theorem install_countOf {batch : List CounterKey} (h : r.install batch = .ok r') (other : CounterKey) :
    r'.countOf other = r.countOf other ∨ r.countOf other = none ∧ r'.countOf other = some 0 := by
  refine foldlM_induction (fun _ t => t.countOf other = r.countOf other ∨
    r.countOf other = none ∧ t.countOf other = some 0) (.inl rfl) ?_ h
  intro done a t t' _ ht hinsert
  rcases insert_countOf hinsert other with hsame | ⟨hnone, hzero⟩
  · rw [hsame]
    exact ht
  · rcases ht with hkept | ⟨-, hzero'⟩
    · exact .inr ⟨hkept ▸ hnone, hzero⟩
    · rw [hnone] at hzero'
      cases hzero'

end CounterRegistry

/-! ## Histories -/

/-- The counts of the packets of a key that were accepted. -/
def counts (log : List TxEvent) (key : CounterKey) : List UInt8 :=
  log.filterMap fun e => match e with
    | .accepted _ _ submission count => if submission.counter = key then some count else none
    | _ => none

/-- The counts 0, 1, 2 and so on, modulo 16. -/
def Gapless (l : List UInt8) : Prop :=
  ∀ i c, l[i]? = some c → c = UInt8.ofNat (i % 16)

theorem gapless_concat {l : List UInt8} (h : Gapless l) :
    Gapless (l ++ [UInt8.ofNat (l.length % 16)]) := by
  intro i c hc
  rcases Nat.lt_trichotomy i l.length with hlt | rfl | hgt
  · rw [List.getElem?_append_left hlt] at hc
    exact h i c hc
  · rw [List.getElem?_append_right (Nat.le_refl _), Nat.sub_self] at hc
    exact (Option.some.inj hc).symm
  · rw [List.getElem?_append_right hgt.le, List.getElem?_singleton, if_neg (by omega)] at hc
    cases hc

/-- What the registry and the history know of each other. -/
structure Counted (r : CounterRegistry) (log : List TxEvent) : Prop where
  gapless : ∀ key, Gapless (counts log key)
  known : ∀ key c, r.countOf key = some c → c = UInt8.ofNat ((counts log key).length % 16)
  unknown : ∀ key, r.countOf key = none → counts log key = []

theorem counted_new {r : CounterRegistry} (h : r.Fresh) : Counted r [] where
  gapless := fun _ => nofun
  known := fun key c hc => by
    rw [h.countOf hc]
    rfl
  unknown := fun _ _ => rfl

/-- What an elementary step of a transport does to the counts. -/
inductive Tally (r : CounterRegistry) (log : List TxEvent) :
    CounterRegistry → List TxEvent → Prop
  | other {log' : List TxEvent} : (∀ key, counts log' key = counts log key) → Tally r log r log'
  | accepted {r' : CounterRegistry} (token : TxToken) (q : ℕ) (submission : TxSubmission)
      (count : UInt8) : r.accept submission.counter count = .ok r' →
      Tally r log r' (log ++ [.accepted token q submission count])
  | installed {r' : CounterRegistry} (batch : List CounterKey) : r.install batch = .ok r' →
      Tally r log r' log

/-- The next of the sixteen counts. -/
theorem next_count (k : ℕ) : (UInt8.ofNat (k % 16) + 1) &&& 15 = UInt8.ofNat ((k + 1) % 16) := by
  have hall : ∀ m < 16, (UInt8.ofNat m + 1) &&& 15 = UInt8.ofNat ((m + 1) % 16) := by decide
  rw [hall (k % 16) (Nat.mod_lt _ (by decide)), Nat.mod_add_mod]

/-- What is tallied gets the next count of its counter. -/
theorem Counted.tally {r r' : CounterRegistry} {log log' : List TxEvent} (h : Counted r log)
    (htally : Tally r log r' log') : Counted r' log' := by
  cases htally with
  | other hsame =>
    refine ⟨fun key => ?_, fun key c hc => ?_, fun key hnone => ?_⟩
    · rw [hsame]
      exact h.gapless key
    · rw [hsame]
      exact h.known key c hc
    · rw [hsame]
      exact h.unknown key hnone
  | accepted token q submission count haccept =>
    have hcounts : ∀ key, counts (log ++ [.accepted token q submission count]) key =
        counts log key ++ if submission.counter = key then [count] else [] := by
      intro key
      unfold counts
      rw [List.filterMap_append]
      by_cases hkey : submission.counter = key <;> simp [hkey]
    have hcount := h.known _ _ (CounterRegistry.accept_countOf haccept submission.counter).1
    refine ⟨fun key => ?_, fun key c hc => ?_, fun key hnone => ?_⟩
    · rw [hcounts]
      by_cases hkey : submission.counter = key
      · subst hkey
        rw [if_pos rfl, hcount]
        exact gapless_concat (h.gapless _)
      · rw [if_neg hkey, List.append_nil]
        exact h.gapless key
    · rw [hcounts]
      rw [(CounterRegistry.accept_countOf haccept key).2] at hc
      by_cases hkey : submission.counter = key
      · subst hkey
        rw [if_pos rfl] at hc ⊢
        rw [← Option.some.inj hc, hcount, next_count, List.length_append]
        rfl
      · rw [if_neg (Ne.symm hkey)] at hc
        rw [if_neg hkey, List.append_nil]
        exact h.known key c hc
    · rw [(CounterRegistry.accept_countOf haccept key).2] at hnone
      rw [hcounts]
      by_cases hkey : submission.counter = key
      · subst hkey
        rw [if_pos rfl] at hnone
        cases hnone
      · rw [if_neg (Ne.symm hkey)] at hnone
        rw [if_neg hkey, List.append_nil]
        exact h.unknown key hnone
  | installed batch hinstall =>
    refine ⟨h.gapless, fun key c hc => ?_, fun key hnone => ?_⟩
    · rcases CounterRegistry.install_countOf hinstall key with hsame | ⟨hnone, hzero⟩
      · exact h.known key c (hsame ▸ hc)
      · rw [hzero] at hc
        rw [← Option.some.inj hc, h.unknown key hnone]
        rfl
    · rcases CounterRegistry.install_countOf hinstall key with hsame | ⟨-, hzero⟩
      · exact h.unknown key (hsame ▸ hnone)
      · rw [hzero] at hnone
        cases hnone

/-- An event that is no acceptance does not count. -/
theorem Tally.event {r : CounterRegistry} {log : List TxEvent} {e : TxEvent}
    (h : ∀ key, counts [e] key = []) : Tally r log r (log ++ [e]) := by
  refine .other fun key => ?_
  unfold counts at h ⊢
  rw [List.filterMap_append, h, List.append_nil]

/-- New keys are installed, or nothing changes. -/
theorem tally_install (h : HostBindings) (batch : List CounterKey) (log : List TxEvent) :
    Tally h.counters log (h.install batch).counters log := by
  unfold HostBindings.install
  split
  · next counters hinstall => exact .installed batch hinstall
  · exact .other fun _ => rfl

namespace Udp

variable {n : ℕ} {s s' : Udp n} {P : Udp n → Lane → Prop}

theorem Atom.tally (h : Atom P s s') : Tally s.host.counters s.log s'.host.counters s'.log := by
  cases h with
  | accept hadmitted haccept => exact .accepted _ _ _ _ haccept
  | sent => exact .event fun _ => rfl
  | complete result hsub =>
    obtain ⟨-, -, -, -, hcounters, hlog⟩ := complete_eq result hsub
    rw [hcounters, hlog]
    exact .event fun _ => rfl
  | received => exact .event fun _ => rfl
  | reserve => exact .other fun _ => rfl
  | publish => exact .other fun _ => rfl
  | install batch => exact tally_install s.host batch s.log
  | same hsame =>
    rw [hsame.counters, hsame.log]
    exact .other fun _ => rfl

/-- The counts of a run have no gap. -/
theorem run_counted (config : Config) (host : HostBindings) (h : host.counters.Fresh)
    (moves : List Move) : Counted ((new n config host).run moves).host.counters
      ((new n config host).run moves).log := by
  have hatoms := run_atoms (P := fun _ _ => True) (fun _ _ => trivial) (new n config host) moves
  generalize (new n config host).run moves = s at hatoms
  induction hatoms with
  | refl => exact counted_new h
  | tail _ hatom ih => exact ih.tally hatom.tally

end Udp

namespace Loopback

variable {n : ℕ} {s s' : Loopback n}

theorem Act.tally (h : Act s s') : Tally s.host.counters s.log s'.host.counters s'.log := by
  cases h with
  | accept hadmitted hcharged => exact .accepted _ _ _ _ hcharged.counters
  | release hheld =>
    obtain ⟨-, -, -, -, hcounters, hlog⟩ := releaseSlot_eq (s.setSlot _ (s.slots _).proved) _
    rw [hcounters, hlog]
    exact .other fun _ => rfl
  | reserve => exact .other fun _ => rfl
  | publish => exact .other fun _ => rfl
  | install batch => exact tally_install s.host batch s.log
  | same hsame =>
    rw [hsame.counters, hsame.log]
    exact .other fun _ => rfl

theorem Atom.tally (h : Atom s s') : Tally s.host.counters s.log s'.host.counters s'.log := by
  cases h with
  | act hact => exact hact.tally
  | touch => exact .other fun _ => rfl
  | delivered => exact .event fun _ => rfl
  | complete result hsub hquarantined =>
    obtain ⟨-, -, -, -, hcounters, hlog⟩ := s.finish_eq _ _ result
    rw [hcounters, hlog]
    exact .event fun _ => rfl
  | hold result quiescence hsub =>
    next i submission =>
    obtain ⟨-, -, -, -, hcounters, hlog⟩ := (s.setSlot i
      { s.slots i with quiescence, quarantined := true }).finish_eq i submission result
    rw [hcounters, hlog]
    exact .event fun _ => rfl

/-- The counts of a run have no gap. -/
theorem run_counted (capabilities : Capabilities) (host : HostBindings) (h : host.counters.Fresh)
    (moves : List Move) : Counted ((new n capabilities host).run moves).host.counters
      ((new n capabilities host).run moves).log := by
  have hatoms := ((settled_new (n := n) capabilities host).run moves).2
  generalize (new n capabilities host).run moves = s at hatoms
  induction hatoms with
  | refl => exact counted_new h
  | tail _ hatom ih => exact ih.tally hatom.tally

end Loopback

end Vita.Transport
