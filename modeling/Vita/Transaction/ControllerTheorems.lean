import Vita.Transaction.Controller
import Vita.Transaction.ObserverTheorems
import Mathlib.Data.List.Pairwise
import Mathlib.Tactic.Common

/-!
# Invariants of the controller's registry

A record changes in few ways: a phase of it ends, an answer is stored, a cancellation is registered, a
reference is counted. None of them changes whose command it is. From this follow that message numbers
and keys are never used twice, and that a refused answer changes nothing but a deadline that has passed.

Main results:
- `Record.Sound`, `Record.receive_cases`: the invariant of a record and what an answer does to it;
- `Registry.Sound`, `Registry.sound_of_reachable`: keys, relationships and issued numbers;
- `identities_unique`, `rejected_unchanged`.
-/

namespace Vita.Transaction.Controller

open Checked Timing State Codec

/-! ## Identities -/

theorem sameIdentifier_refl (a : Identifier) : Engine.sameIdentifier a a := by
  simp [Engine.sameIdentifier]

theorem sameIdentifier_symm {a b : Identifier} (h : Engine.sameIdentifier a b) :
    Engine.sameIdentifier b a := by
  simp only [Engine.sameIdentifier, List.mem_finRange, true_implies, decide_eq_true_eq] at h ⊢
  refine ⟨h.1.symm, fun i hi => ?_⟩
  have hsize : a.sizeWords = b.sizeWords := by
    rw [Identifier.sizeWords, Identifier.sizeWords, h.1]
  exact (h.2 i (hsize ▸ hi)).symm

theorem sameIdentifier_trans {a b c : Identifier} (h : Engine.sameIdentifier a b)
    (h' : Engine.sameIdentifier b c) : Engine.sameIdentifier a c := by
  simp only [Engine.sameIdentifier, decide_eq_true_eq] at h h' ⊢
  refine ⟨h.1.trans h'.1, fun i hmem hi => ?_⟩
  have hsize : a.sizeWords = b.sizeWords := by
    rw [Identifier.sizeWords, Identifier.sizeWords, h.1]
  exact (h.2 i hmem hi).trans (h'.2 i hmem (hsize ▸ hi))

theorem sameKey_symm {a b : TransactionKey} (h : sameKey a b) : sameKey b a := by
  simp only [sameKey, decide_eq_true_eq] at h ⊢
  obtain ⟨hg, hp, hs, hm, hr, he⟩ := h
  exact ⟨hg.symm, hp.symm, hs.symm, hm.symm, sameIdentifier_symm hr, sameIdentifier_symm he⟩

theorem sameKey_trans {a b c : TransactionKey} (h : sameKey a b) (h' : sameKey b c) : sameKey a c := by
  simp only [sameKey, decide_eq_true_eq] at h h' ⊢
  obtain ⟨hg, hp, hs, hm, hr, he⟩ := h
  obtain ⟨hg', hp', hs', hm', hr', he'⟩ := h'
  exact ⟨hg.trans hg', hp.trans hp', hs.trans hs', hm.trans hm', sameIdentifier_trans hr hr',
    sameIdentifier_trans he he'⟩

theorem sameWire_of_sameKey {a b : TransactionKey} (h : sameKey a b) : sameWireRelationship a b := by
  simp only [sameKey, sameWireRelationship, decide_eq_true_eq] at h ⊢
  exact ⟨by rw [h.2.1], h.2.2.1, h.2.2.2.2.1, h.2.2.2.2.2⟩

theorem sameWire_symm {a b : TransactionKey} (h : sameWireRelationship a b) :
    sameWireRelationship b a := by
  simp only [sameWireRelationship, decide_eq_true_eq] at h ⊢
  exact ⟨h.1.symm, h.2.1.symm, sameIdentifier_symm h.2.2.1, sameIdentifier_symm h.2.2.2⟩

theorem readResult_eq_ok {α : Type} {x : Decoded α} {a : α} : readResult x = .ok a ↔ x = .ok a := by
  rcases x with (err | _) | b <;> simp [readResult]

/-! ## Records -/

namespace Record

variable {r r' : Record} {c : Bool} {now : ℕ}

/-- When a phase ended. -/
def endTime (r : Record) (cancellation : Bool) : Option ℕ :=
  if cancellation then r.cancelTerminal else r.ordinaryTerminal

/-- A deadline leaves time to retain the record, a phase that is over has ended at some time, and the
record is retained from there on. -/
structure Sound (r : Record) : Prop where
  limits : ∀ c, r.active c → r.limit c + minimumRetentionNs ≤ uint64Max
  ordinary : r.used → r.ordinaryActive ∨ ∃ t, r.ordinaryTerminal = some t
  cancel : r.cancelRegistered → r.cancelActive ∨ ∃ t, r.cancelTerminal = some t
  expires : ∀ c t, r.endTime c = some t → t + minimumRetentionNs ≤ r.expires
  observer : r.observer.Sound

/-- It is the same command's record, and what was learnt of it stays. -/
structure Kept (r r' : Record) : Prop where
  used : r'.used = r.used
  generation : r'.generation = r.generation
  key : r'.key = r.key
  request : r'.request = r.request
  capabilityQuery : r'.capabilityQuery = r.capabilityQuery
  sdrProfile : r'.sdrProfile = r.sdrProfile
  requestedFields : r'.requestedFields = r.requestedFields
  cancellation : r.cancelRegistered →
    r'.cancelRegistered ∧ r'.cancelCam = r.cancelCam ∧ r'.cancelFields = r.cancelFields
  ordinaryState : ∀ x, r.ordinaryState = some x → r'.ordinaryState = some x
  cancelState : ∀ x, r.cancelState = some x → r'.cancelState = some x
  capabilities : ∀ x, r.ordinaryCapabilities = some x → r'.ordinaryCapabilities = some x
  observer : r.observer.Extends r'.observer

theorem Kept.refl (r : Record) : Kept r r :=
  ⟨rfl, rfl, rfl, rfl, rfl, rfl, rfl, fun h => ⟨h, rfl, rfl⟩, fun _ h => h, fun _ h => h, fun _ h => h,
    .refl _⟩

/-- What two steps keep, both together keep. -/
theorem Kept.trans {r'' : Record} (h : Kept r r') (h' : Kept r' r'') : Kept r r'' where
  used := h'.used.trans h.used
  generation := h'.generation.trans h.generation
  key := h'.key.trans h.key
  request := h'.request.trans h.request
  capabilityQuery := h'.capabilityQuery.trans h.capabilityQuery
  sdrProfile := h'.sdrProfile.trans h.sdrProfile
  requestedFields := h'.requestedFields.trans h.requestedFields
  cancellation hc := by
    obtain ⟨hregistered, hcam, hfields⟩ := h.cancellation hc
    obtain ⟨hregistered', hcam', hfields'⟩ := h'.cancellation hregistered
    exact ⟨hregistered', hcam'.trans hcam, hfields'.trans hfields⟩
  ordinaryState x hx := h'.ordinaryState x (h.ordinaryState x hx)
  cancelState x hx := h'.cancelState x (h.cancelState x hx)
  capabilities x hx := h'.capabilities x (h.capabilities x hx)
  observer := h.observer.trans h'.observer

/-- A phase ends. -/
def ended (r : Record) (cancellation : Bool) (now : ℕ) : Record :=
  let r := if cancellation then { r with cancelActive := false, cancelTerminal := some now }
    else { r with ordinaryActive := false, ordinaryTerminal := some now }
  { r with expires := max (now + minimumRetentionNs) r.expires }

theorem terminal_of_inactive (h : ¬r.active c) : r.terminal c now = .ok r := by
  rw [terminal, if_pos h]
  rfl

theorem terminal_of_active (h : r.active c) (hnow : now + minimumRetentionNs ≤ uint64Max) :
    r.terminal c now = .ok (r.ended c now) := by
  rw [terminal, if_neg (not_not.mpr h), deadlineAfter, rejectIf_of_not]
  · cases c <;> rfl
  · omega

theorem terminal_eq_ok (h : r.terminal c now = .ok r') : r' = r ∨ r' = r.ended c now := by
  by_cases hactive : r.active c
  · rw [terminal, if_neg (not_not.mpr hactive)] at h
    simp only [deadlineAfter, bind_eq_ok, rejectIf_eq_ok, pure_eq_ok, Except.ok.injEq] at h
    obtain ⟨_, ⟨_, -, rfl⟩, rfl⟩ := h
    right
    cases c <;> rfl
  · rw [terminal_of_inactive hactive] at h
    exact .inl (Except.ok.inj h).symm

@[simp] theorem ended_active (r : Record) (c : Bool) (now : ℕ) : (r.ended c now).active c = false := by
  cases c <;> rfl

theorem ended_kept (r : Record) (c : Bool) (now : ℕ) : Kept r (r.ended c now) := by
  cases c <;> exact { Kept.refl r with }

/-- The end of one of both operations leaves the record sound. -/
theorem Sound.ended (h : r.Sound) (c : Bool) (now : ℕ) : (r.ended c now).Sound where
  limits d hd := by
    cases c <;> cases d
    · cases hd
    · exact h.limits true hd
    · exact h.limits false hd
    · cases hd
  ordinary hused := by
    cases c
    · exact .inr ⟨now, rfl⟩
    · exact h.ordinary hused
  cancel hregistered := by
    cases c
    · exact h.cancel hregistered
    · exact .inr ⟨now, rfl⟩
  expires d t ht := by
    have hmax : (r.ended c now).expires = max (now + minimumRetentionNs) r.expires := by
      cases c <;> rfl
    rw [hmax]
    have hcases : t = now ∨ r.endTime d = some t := by
      cases c <;> cases d
      · exact .inl (Option.some.inj ht).symm
      · exact .inr ht
      · exact .inr ht
      · exact .inl (Option.some.inj ht).symm
    rcases hcases with rfl | hold
    · exact le_max_left _ _
    · exact (h.expires d t hold).trans (le_max_right _ _)
  observer := by
    cases c <;> exact h.observer

/-- A change of other fields. -/
theorem Sound.same (h : r.Sound) (hactive : ∀ c, r'.active c = r.active c)
    (hlimit : ∀ c, r'.limit c = r.limit c) (hend : ∀ c, r'.endTime c = r.endTime c)
    (hexpires : r'.expires = r.expires) (hused : r'.used = r.used)
    (hregistered : r'.cancelRegistered = r.cancelRegistered) (hobserver : r'.observer.Sound) :
    r'.Sound where
  limits c hc := by
    rw [hlimit]
    exact h.limits c (hactive c ▸ hc)
  ordinary hu := by
    have hactive' : r'.ordinaryActive = r.ordinaryActive := hactive false
    have hend' : r'.ordinaryTerminal = r.ordinaryTerminal := hend false
    rw [hactive', hend']
    exact h.ordinary (hused ▸ hu)
  cancel hr := by
    have hactive' : r'.cancelActive = r.cancelActive := hactive true
    have hend' : r'.cancelTerminal = r.cancelTerminal := hend true
    rw [hactive', hend']
    exact h.cancel (hregistered ▸ hr)
  expires c t ht := by
    rw [hexpires]
    exact h.expires c t (hend c ▸ ht)
  observer := hobserver

theorem Sound.observed (h : r.Sound) {observer : ControllerObserver} (hobserver : observer.Sound) :
    Sound { r with observer } :=
  h.same (fun _ => rfl) (fun _ => rfl) (fun _ => rfl) rfl rfl rfl hobserver

theorem Kept.observed (h : Kept r r') {observer : ControllerObserver}
    (hobserver : r'.observer.Extends observer) : Kept r { r' with observer } :=
  { h with observer := h.observer.trans hobserver }

@[simp] theorem active_observed (r : Record) (observer : ControllerObserver) (c : Bool) :
    active { r with observer } c = r.active c := rfl

@[simp] theorem active_store (r : Record) (c d : Bool)
    (captured : Option StateObservation × Option CapabilityObservation) :
    (r.store c captured).active d = r.active d := by
  cases c <;> rfl

@[simp] theorem active_markSeen (r : Record) (c d : Bool) (cam : UInt32) :
    (r.markSeen c cam).active d = r.active d := by
  cases c <;> rfl

/-- The record once a deadline that has passed was noted. -/
def afterDeadline (r : Record) (cancellation : Bool) (now : ℕ) : Record :=
  if r.active cancellation ∧ now ≥ r.limit cancellation then
    { r.ended cancellation (r.limit cancellation) with
      observer := (r.ended cancellation (r.limit cancellation)).observer.timeout cancellation }
  else r

theorem expireDeadline_eq (h : r.Sound) : r.expireDeadline c now = .ok (r.afterDeadline c now) := by
  unfold expireDeadline afterDeadline
  by_cases hdue : r.active c ∧ now ≥ r.limit c
  · rw [if_pos hdue, if_pos hdue, terminal_of_active hdue.1 (h.limits c hdue.1)]
    rfl
  · rw [if_neg hdue, if_neg hdue]
    rfl

theorem afterDeadline_kept (r : Record) (c : Bool) (now : ℕ) : Kept r (r.afterDeadline c now) := by
  unfold afterDeadline
  split
  · exact (r.ended_kept c (r.limit c)).observed (ControllerObserver.extends_timeout _ c)
  · exact .refl r

theorem Sound.afterDeadline (h : r.Sound) (c : Bool) (now : ℕ) : (r.afterDeadline c now).Sound := by
  unfold Record.afterDeadline
  split
  · have hended := h.ended c (r.limit c)
    exact hended.observed (hended.observer.timeout c)
  · exact h

/-- A phase that is still active has time left. -/
theorem afterDeadline_active (hactive : (r.afterDeadline c now).active c) :
    now < (r.afterDeadline c now).limit c := by
  unfold afterDeadline at hactive ⊢
  by_cases hdue : r.active c ∧ now ≥ r.limit c
  · rw [if_pos hdue] at hactive
    rw [active_observed, ended_active] at hactive
    cases hactive
  · rw [if_neg hdue] at hactive ⊢
    by_contra hlate
    exact hdue ⟨hactive, Nat.le_of_not_lt hlate⟩

/-! ## Answers -/

/-- The record once an answer was taken in: what it says is stored, and a phase all of whose answers
were seen ends. -/
def concluded (r : Record) (cancel : Bool) (now : ℕ) : Record :=
  let expected := requestedResponses (r.original cancel)
  if r.seen cancel &&& expected = expected ∧ r.active cancel then r.ended cancel now else r

def accepted (r : Record) (cancel : Bool) (cam : UInt32) (now : ℕ)
    (captured : Option StateObservation × Option CapabilityObservation)
    (observer : ControllerObserver) : Record :=
  (({ r with observer }.store cancel captured).markSeen cancel cam).concluded cancel now

theorem complete_eq (h : r.active c → now + minimumRetentionNs ≤ uint64Max) :
    r.complete c now = (.ok (), r.concluded c now) := by
  unfold complete concluded
  dsimp only
  split
  · next hseen =>
    by_cases hactive : r.active c
    · rw [terminal_of_active hactive (h hactive), if_pos ⟨hseen, hactive⟩]
    · rw [terminal_of_inactive hactive, if_neg fun hc => hactive hc.2]
  · next hseen => rw [if_neg fun hc => hseen hc.1]

/-- What an answer that belongs to the record does to it. -/
theorem receive_matched (h : r.Sound) {wire : Bytes} {e : Envelope} {cam : UInt32} {parsed : PacketView}
    (hmatch : r.matchAnswer wire e cam = .ok parsed) (now : ℕ) :
    r.receive wire e cam now =
      match (r.afterDeadline e.cancel now).capture e.cancel cam parsed with
      | .error err => (.error err, r.afterDeadline e.cancel now)
      | .ok captured =>
        match readResult ((r.afterDeadline e.cancel now).observer.receive parsed) with
        | .error err => (.error err, r.afterDeadline e.cancel now)
        | .ok observer =>
          (.ok (), (r.afterDeadline e.cancel now).accepted e.cancel cam now captured observer) := by
  unfold receive
  rw [hmatch]
  dsimp only
  rw [expireDeadline_eq h]
  dsimp only
  rcases (r.afterDeadline e.cancel now).capture e.cancel cam parsed with err | captured
  · rfl
  · dsimp only
    rcases readResult ((r.afterDeadline e.cancel now).observer.receive parsed) with err | observer
    · rfl
    · dsimp only
      -- a phase that is still active has time left, so retaining the record cannot overflow
      refine complete_eq fun hactive => ?_
      rw [active_markSeen, active_store, active_observed] at hactive
      have hlt := afterDeadline_active hactive
      have hlimit := (h.afterDeadline e.cancel now).limits e.cancel hactive
      omega

/-- What an answer does to its record: nothing, or no more than noting a deadline that has passed, or
all of it. -/
theorem receive_cases (h : r.Sound) (wire : Bytes) (e : Envelope) (cam : UInt32) (now : ℕ) :
    (∃ err, r.receive wire e cam now = (.error err, r)) ∨
    (∃ err, r.receive wire e cam now = (.error err, r.afterDeadline e.cancel now)) ∨
    ∃ parsed captured observer, r.matchAnswer wire e cam = .ok parsed ∧
      (r.afterDeadline e.cancel now).capture e.cancel cam parsed = .ok captured ∧
      readResult ((r.afterDeadline e.cancel now).observer.receive parsed) = .ok observer ∧
      r.receive wire e cam now =
        (.ok (), (r.afterDeadline e.cancel now).accepted e.cancel cam now captured observer) := by
  rcases hmatch : r.matchAnswer wire e cam with err | parsed
  · refine .inl ⟨err, ?_⟩
    unfold receive
    rw [hmatch]
  · rw [receive_matched h hmatch]
    rcases hcapture : (r.afterDeadline e.cancel now).capture e.cancel cam parsed with err | captured
    · exact .inr (.inl ⟨err, rfl⟩)
    · dsimp only
      rcases hobserver : readResult ((r.afterDeadline e.cancel now).observer.receive parsed) with
        err | observer
      · exact .inr (.inl ⟨err, rfl⟩)
      · exact .inr (.inr ⟨parsed, captured, observer, rfl, hcapture, hobserver, rfl⟩)

/-! ## What changes keep -/

theorem store_kept (r : Record) (c : Bool)
    (captured : Option StateObservation × Option CapabilityObservation) : Kept r (r.store c captured) := by
  have hor {α : Type} (o p : Option α) (x : α) (hx : o = some x) : o.or p = some x := by
    rw [hx]
    rfl
  cases c
  · exact { Kept.refl r with ordinaryState := hor _ _, capabilities := hor _ _ }
  · exact { Kept.refl r with cancelState := hor _ _, capabilities := hor _ _ }

theorem Sound.store (h : r.Sound) (c : Bool)
    (captured : Option StateObservation × Option CapabilityObservation) : (r.store c captured).Sound := by
  cases c <;> exact h.same (fun _ => rfl) (fun _ => rfl) (fun _ => rfl) rfl rfl rfl h.observer

theorem markSeen_kept (r : Record) (c : Bool) (cam : UInt32) : Kept r (r.markSeen c cam) := by
  cases c <;> exact { Kept.refl r with }

theorem Sound.markSeen (h : r.Sound) (c : Bool) (cam : UInt32) : (r.markSeen c cam).Sound := by
  cases c <;> exact h.same (fun _ => rfl) (fun _ => rfl) (fun _ => rfl) rfl rfl rfl h.observer

theorem concluded_kept (r : Record) (c : Bool) (now : ℕ) : Kept r (r.concluded c now) := by
  unfold concluded
  dsimp only
  split
  · exact r.ended_kept c now
  · exact .refl r

theorem Sound.concluded (h : r.Sound) (c : Bool) (now : ℕ) : (r.concluded c now).Sound := by
  unfold Record.concluded
  dsimp only
  split
  · exact h.ended c now
  · exact h

theorem accepted_kept (r : Record) (c : Bool) (cam : UInt32) (now : ℕ)
    (captured : Option StateObservation × Option CapabilityObservation) {observer : ControllerObserver}
    (hobserver : r.observer.Extends observer) : Kept r (r.accepted c cam now captured observer) := by
  have hobserved := (Kept.refl r).observed hobserver
  exact hobserved.trans ((store_kept _ c captured).trans
    ((markSeen_kept _ c cam).trans (concluded_kept _ c now)))

theorem Sound.accepted (h : r.Sound) (c : Bool) (cam : UInt32) (now : ℕ)
    (captured : Option StateObservation × Option CapabilityObservation) {observer : ControllerObserver}
    (hobserver : observer.Sound) : (r.accepted c cam now captured observer).Sound :=
  (((h.observed hobserver).store c captured).markSeen c cam).concluded c now

/-- A record that may take the place of another one. -/
structure Replaces (r r' : Record) : Prop where
  kept : Kept r r'
  sound : r'.Sound

theorem Sound.receive (h : r.Sound) (wire : Bytes) (e : Envelope) (cam : UInt32) (now : ℕ) :
    Replaces r (r.receive wire e cam now).2 := by
  rcases receive_cases h wire e cam now with ⟨err, heq⟩ | ⟨err, heq⟩ |
    ⟨parsed, captured, observer, -, -, hobserver, heq⟩
  · rw [heq]
    exact ⟨.refl r, h⟩
  · rw [heq]
    exact ⟨afterDeadline_kept r _ now, h.afterDeadline _ now⟩
  · rw [heq]
    have hdue := h.afterDeadline e.cancel now
    obtain ⟨hsound, hextends⟩ := hdue.observer.receive (readResult_eq_ok.mp hobserver)
    exact ⟨(afterDeadline_kept r _ now).trans (accepted_kept _ _ _ _ _ hextends),
      hdue.accepted _ _ _ _ hsound⟩

theorem Sound.terminal (h : r.Sound) (hterminal : r.terminal c now = .ok r') : Replaces r r' := by
  rcases terminal_eq_ok hterminal with rfl | rfl
  · exact ⟨.refl r', h⟩
  · exact ⟨ended_kept r c now, h.ended c now⟩

/-- A cancellation that is registered has a deadline that leaves time to retain the record. -/
theorem Sound.checkCancel {maxCancelBytes timeoutNs : ℕ} {packet : PacketView}
    {registration : Registry.CancelRegistration} (h : r.Sound)
    (hcheck : Registry.checkCancel maxCancelBytes r packet now timeoutNs = .ok (registration, r')) :
    Replaces r r' := by
  unfold Registry.checkCancel at hcheck
  simp only [bind_eq_ok, rejectIf_eq_ok] at hcheck
  obtain ⟨_, -, hcheck⟩ := hcheck
  split at hcheck
  · cases hcheck
  · simp only [bind_eq_ok, rejectIf_eq_ok] at hcheck
    obtain ⟨_, -, hcheck⟩ := hcheck
    split at hcheck
    · cases hcheck
    · simp only [bind_eq_ok, rejectIf_eq_ok] at hcheck
      obtain ⟨_, -, hcheck⟩ := hcheck
      split at hcheck
      · simp only [bind_eq_ok, rejectIf_eq_ok, pure_eq_ok, Except.ok.injEq, Prod.mk.injEq] at hcheck
        obtain ⟨_, -, -, rfl⟩ := hcheck
        exact ⟨.refl r, h⟩
      · next hunregistered =>
        simp only [bind_eq_ok, rejectIf_eq_ok] at hcheck
        obtain ⟨selected, -, _, -, _, -, hcheck⟩ := hcheck
        split at hcheck
        · cases hcheck
        · next limit hlimit =>
          simp only [bind_eq_ok, rejectIf_eq_ok, pure_eq_ok, Except.ok.injEq, Prod.mk.injEq] at hcheck
          obtain ⟨_, hroom, -, rfl⟩ := hcheck
          refine ⟨{ Kept.refl r with cancellation := fun hc => absurd hc hunregistered },
            ⟨fun d hd => ?_, h.ordinary, fun _ => .inl rfl, h.expires, h.observer⟩⟩
          cases d
          · exact h.limits false hd
          · show limit + minimumRetentionNs ≤ uint64Max
            have hretention : minimumRetentionNs ≤ uint64Max := by decide
            omega

end Record

/-! ## The registry -/

namespace Registry

variable {sizes : Sizes} {s s' : Registry sizes}

/-- The key is one of a relationship, with a message number that was issued. -/
structure Belongs (s : Registry sizes) (key : TransactionKey) (j : Fin sizes.relationships) : Prop where
  used : (s.relationships j).used
  identity : key = { (s.relationships j).identity with messageId := key.messageId }
  issued : key.messageId.toNat < (s.relationships j).nextMid

structure Sound (s : Registry sizes) : Prop where
  records : ∀ i, (s.records i).Sound
  wires : ∀ j k, j ≠ k → (s.relationships j).used → (s.relationships k).used →
    ¬sameWireRelationship (s.relationships j).identity (s.relationships k).identity
  linked : ∀ i, (s.records i).used → ∃ j, s.Belongs (s.records i).key j
  keys : ∀ i k, i ≠ k → (s.records i).used → (s.records k).used →
    ¬sameKey (s.records i).key (s.records k).key
  issued : ∀ p ∈ s.issued, (s.relationships p.1).used ∧
    p.2.toNat < (s.relationships p.1).nextMid
  increasing : s.issued.Pairwise fun p q => p.1 = q.1 → p.2 < q.2

/-- A new registry is sound. -/
theorem sound_new : Sound ({} : Registry sizes) where
  records i := by
    refine ⟨fun c hc => ?_, fun h => ?_, fun h => ?_, fun c t ht => ?_, ControllerObserver.sound_fresh 0⟩
    · cases c <;> cases hc
    · cases h
    · cases h
    · cases c <;> cases ht
  wires j k _ h := by cases h
  linked i h := by cases h
  keys i k _ h := by cases h
  issued p hp := by cases hp
  increasing := List.Pairwise.nil

/-- Records that keep whose they are. -/
theorem Sound.records_kept (h : s.Sound) (hrelationships : s'.relationships = s.relationships)
    (hissued : s'.issued = s.issued) (hsound : ∀ i, (s'.records i).Sound)
    (hkept : ∀ i, (s'.records i).used → (s.records i).used ∧ (s'.records i).key = (s.records i).key) :
    s'.Sound where
  records := hsound
  wires := by
    rw [hrelationships]
    exact h.wires
  linked i hi := by
    obtain ⟨hused, hkey⟩ := hkept i hi
    obtain ⟨j, hj⟩ := h.linked i hused
    refine ⟨j, ?_⟩
    rw [hkey]
    constructor
    · rw [hrelationships]
      exact hj.used
    · rw [hrelationships]
      exact hj.identity
    · rw [hrelationships]
      exact hj.issued
  keys i k hne hi hk := by
    rw [(hkept i hi).2, (hkept k hk).2]
    exact h.keys i k hne (hkept i hi).1 (hkept k hk).1
  issued := by
    rw [hissued, hrelationships]
    exact h.issued
  increasing := by
    rw [hissued]
    exact h.increasing

/-- A record may be replaced by one with the same identity. -/
theorem Sound.setRecord (h : s.Sound) {i : Fin sizes.records} {r : Record}
    (hr : Record.Replaces (s.records i) r) : (s.setRecord i r).Sound := by
  refine h.records_kept rfl rfl (fun k => ?_) fun k hk => ?_
  · show (Function.update s.records i r k).Sound
    by_cases hki : k = i
    · rw [hki, Function.update_self]
      exact hr.sound
    · rw [Function.update_of_ne hki]
      exact h.records k
  · have hk : (Function.update s.records i r k).used := hk
    show _ ∧ (Function.update s.records i r k).key = _
    by_cases hki : k = i
    · subst hki
      rw [Function.update_self] at hk ⊢
      exact ⟨hr.kept.used ▸ hk, hr.kept.key⟩
    · rw [Function.update_of_ne hki] at hk ⊢
      exact ⟨hk, rfl⟩

/-- What keeps a record sound keeps the registry sound. -/
theorem Sound.onRecord {α : Type} (h : s.Sound) {handle : ControllerHandle}
    {f : Record → Result (α × Record)}
    (hf : ∀ r a r', r.Sound → f r = .ok (a, r') → Record.Replaces r r') :
    (s.onRecord handle f).2.Sound := by
  unfold Registry.onRecord
  split
  · exact h
  · next i hi =>
    split
    · exact h
    · next a r hr => exact h.setRecord (hf _ _ _ (h.records i) hr)

/-- Records that are overdue keep the registry sound. -/
theorem Sound.advanceFrom (h : s.Sound) (now : ℕ) (indices : List (Fin sizes.records)) :
    (advanceFrom now indices s).2.Sound := by
  induction indices generalizing s with
  | nil => exact h
  | cons i rest ih =>
    unfold Registry.advanceFrom
    split
    · exact ih h
    · have hr := h.records i
      have hr' := hr.afterDeadline false now
      rw [Record.expireDeadline_eq hr]
      dsimp only
      rw [Record.expireDeadline_eq hr']
      exact ih (h.setRecord ⟨(Record.afterDeadline_kept _ _ now).trans
        (Record.afterDeadline_kept _ _ now), hr'.afterDeadline true now⟩)

/-- An expiry leaves the registry sound. -/
theorem Sound.expire (h : s.Sound) (now : ℕ) : (s.expire now).Sound := by
  refine h.records_kept rfl rfl (fun i => ?_) fun i hi => ?_
  · show (if expired (s.records i) now then _ else s.records i : Record).Sound
    split
    · refine ⟨fun c hc => ?_, fun h => ?_, fun h => ?_, fun c t ht => ?_, ControllerObserver.sound_fresh 0⟩
      · cases c <;> cases hc
      · cases h
      · cases h
      · cases c <;> cases ht
    · exact h.records i
  · have hi : (if expired (s.records i) now then
      ({ generation := (s.records i).generation + 1 } : Record) else s.records i).used := hi
    show _ ∧ (if expired (s.records i) now then
      ({ generation := (s.records i).generation + 1 } : Record) else s.records i).key = _
    by_cases hexpired : expired (s.records i) now
    · rw [if_pos hexpired] at hi
      cases hi
    · rw [if_neg hexpired] at hi ⊢
      exact ⟨hi, rfl⟩

/-! ## Relationships -/

theorem relationship_used {slot : ℕ} {j : Fin sizes.relationships} (h : s.relationship slot = some j) :
    (s.relationships j).used ∧ j.val = slot := by
  unfold relationship at h
  split at h
  · split at h
    · next hused =>
      cases h
      exact ⟨hused, rfl⟩
    · cases h
  · cases h

/-- A relationship whose number goes up. -/
theorem Sound.raise (h : s.Sound) {j : Fin sizes.relationships} {next : ℕ}
    (hnext : (s.relationships j).nextMid ≤ next) :
    (s.setRelationship j { s.relationships j with nextMid := next }).Sound := by
  generalize hs : s.setRelationship j { s.relationships j with nextMid := next } = s'
  have hrel : ∀ k, (s'.relationships k).used = (s.relationships k).used ∧
      (s'.relationships k).identity = (s.relationships k).identity ∧
      (s.relationships k).nextMid ≤ (s'.relationships k).nextMid := by
    intro k
    subst hs
    show (Function.update s.relationships j _ k).used = _ ∧
      (Function.update s.relationships j _ k).identity = _ ∧
      _ ≤ (Function.update s.relationships j _ k).nextMid
    by_cases hk : k = j
    · subst hk
      rw [Function.update_self]
      exact ⟨rfl, rfl, hnext⟩
    · rw [Function.update_of_ne hk]
      exact ⟨rfl, rfl, le_rfl⟩
  have hrecords : s'.records = s.records := by
    subst hs
    rfl
  have hissued : s'.issued = s.issued := by
    subst hs
    rfl
  constructor
  · rw [hrecords]
    exact h.records
  · intro j k hne hj hk
    rw [(hrel j).2.1, (hrel k).2.1]
    exact h.wires j k hne ((hrel j).1 ▸ hj) ((hrel k).1 ▸ hk)
  · intro i hi
    rw [hrecords] at hi ⊢
    obtain ⟨k, hk⟩ := h.linked i hi
    refine ⟨k, ?_, ?_, ?_⟩
    · rw [(hrel k).1]
      exact hk.used
    · rw [(hrel k).2.1]
      exact hk.identity
    · exact hk.issued.trans_le (hrel k).2.2
  · rw [hrecords]
    exact h.keys
  · intro p hp
    rw [hissued] at hp
    obtain ⟨hused, hlt⟩ := h.issued p hp
    rw [(hrel p.1).1]
    exact ⟨hused, hlt.trans_le (hrel p.1).2.2⟩
  · rw [hissued]
    exact h.increasing

/-- A relationship that is resumed keeps the registry sound. -/
theorem Sound.resumeAfter (h : s.Sound) (slot : ℕ) (watermark : UInt32) :
    (s.resumeAfter slot watermark).2.Sound := by
  unfold Registry.resumeAfter
  split
  · exact h
  · split
    · exact h
    · dsimp only
      split
      · next hlt => exact h.raise (Nat.le_of_lt hlt)
      · exact h

/-- Nothing that is registered shares the wire identity of an identity that was not found. -/
theorem registered_none {identity : TransactionKey} (h : s.registered identity = none)
    {j : Fin sizes.relationships} (hj : (s.relationships j).used) :
    ¬sameWireRelationship (s.relationships j).identity identity := by
  intro hwire
  have hall := List.find?_eq_none.mp h j (List.mem_finRange j)
  simp only [decide_eq_true_eq, not_and, not_or] at hall
  exact (hall hj).2 hwire

/-- A relationship with a wire identity of its own is added. -/
theorem Sound.addRelationship (h : s.Sound) {j : Fin sizes.relationships} {rel : Relationship}
    (hunused : ¬(s.relationships j).used)
    (hwire : ∀ k, (s.relationships k).used →
      ¬sameWireRelationship (s.relationships k).identity rel.identity) :
    (s.setRelationship j rel).Sound := by
  have hother : ∀ k, k ≠ j → (s.setRelationship j rel).relationships k = s.relationships k :=
    fun k hk => Function.update_of_ne hk ..
  have hupdate : ∀ k, (s.relationships k).used →
      (s.setRelationship j rel).relationships k = s.relationships k := by
    intro k hk
    refine hother k ?_
    rintro rfl
    exact hunused hk
  have hself : (s.setRelationship j rel).relationships j = rel := Function.update_self ..
  refine ⟨h.records, ?_, ?_, h.keys, ?_, h.increasing⟩
  · intro k l hne hk hl
    by_cases hkj : k = j
    · have hlj : l ≠ j := fun hlj => hne (hkj.trans hlj.symm)
      rw [hother l hlj] at hl ⊢
      rw [hkj, hself]
      exact fun hsame => hwire l hl (sameWire_symm hsame)
    · rw [hother k hkj] at hk ⊢
      by_cases hlj : l = j
      · rw [hlj, hself]
        exact hwire k hk
      · rw [hother l hlj] at hl ⊢
        exact h.wires k l hne hk hl
  · intro i hi
    obtain ⟨k, hk⟩ := h.linked i hi
    have hk' := hupdate k hk.used
    refine ⟨k, ?_, ?_, ?_⟩
    · rw [hk']
      exact hk.used
    · rw [hk']
      exact hk.identity
    · rw [hk']
      exact hk.issued
  · intro p hp
    obtain ⟨hused, hlt⟩ := h.issued p hp
    rw [hupdate p.1 hused]
    exact ⟨hused, hlt⟩

/-- A new relationship keeps the registry sound. -/
theorem Sound.registerRelationship (h : s.Sound) (identity : TransactionKey) (nextMid : UInt32)
    (profile : IqProfile) : (s.registerRelationship identity nextMid profile).2.Sound := by
  unfold Registry.registerRelationship
  split
  · exact h
  · dsimp only
    split
    · split <;> exact h
    · next hnone =>
      split
      · next j hfind =>
        have hunused : ¬(s.relationships j).used := by
          simpa using List.find?_some hfind
        exact h.addRelationship hunused fun k hk => registered_none hnone hk
      · exact h

/-! ## Tracking -/

theorem freeRecord_unused {i : Fin sizes.records} (h : s.freeRecord = some i) :
    ¬(s.records i).used ∧ (s.records i).generation ≠ uint64Max := by
  simpa using List.find?_some h

/-- A request that is tracked has a message number left and a deadline that leaves time to retain its
record. -/
theorem checkRequest_eq_ok {rel : Relationship} {request : PacketView} {now timeoutNs limit : ℕ}
    {command : Command} {selected : Fin 8 → Bool}
    (h : checkRequest rel request now timeoutNs = .ok (command, limit, selected)) :
    rel.nextMid ≤ uint32Max ∧ limit + minimumRetentionNs ≤ uint64Max := by
  unfold checkRequest at h
  dsimp only at h
  split at h
  · cases h
  · simp only [bind_eq_ok, rejectIf_eq_ok, pure_eq_ok, Except.ok.injEq, Prod.mk.injEq, not_or,
      not_lt] at h
    obtain ⟨_, -, key, -, _, -, _, hmid, limit', -, _, ⟨-, hroom⟩, selected', -, -, rfl, -⟩ := h
    have hretention : minimumRetentionNs ≤ uint64Max := by decide
    exact ⟨hmid, by omega⟩

/-- What `track` does when it returns a request. -/
theorem track_cases (s : Registry sizes) (slot : ℕ) (request : PacketView) (now timeoutNs : ℕ) :
    (∃ err, s.track slot request now timeoutNs = (.error err, s)) ∨
    ∃ j i r tracked, (s.relationships j).used ∧ j.val = slot ∧
      (s.relationships j).nextMid ≤ uint32Max ∧ ¬(s.records i).used ∧
      r.generation = (s.records i).generation ∧ r.Sound ∧ r.used ∧
      r.key = { (s.relationships j).identity with
        messageId := UInt32.ofNat (s.relationships j).nextMid } ∧
      (∃ command, tracked.envelope.command = some command ∧
        command.messageId = UInt32.ofNat (s.relationships j).nextMid) ∧
      s.track slot request now timeoutNs = (.ok tracked,
        { (s.setRecord i r).setRelationship j
            { s.relationships j with nextMid := (s.relationships j).nextMid + 1 } with
          issued := s.issued ++ [(j, UInt32.ofNat (s.relationships j).nextMid)] }) := by
  unfold track
  split
  · exact .inl ⟨_, rfl⟩
  · next j hj =>
    obtain ⟨hused, hslot⟩ := relationship_used hj
    dsimp only
    split
    · exact .inl ⟨_, rfl⟩
    · next command limit selected hcheck =>
      obtain ⟨hmid, hlimit⟩ := checkRequest_eq_ok hcheck
      split
      · exact .inl ⟨_, rfl⟩
      · next i hi =>
        refine .inr ⟨j, i, _, _, hused, hslot, hmid, (freeRecord_unused hi).1, ?_, ?_, rfl, rfl,
          ⟨_, rfl, rfl⟩, rfl⟩
        · rfl
        · refine ⟨fun c hc => ?_, fun _ => .inl rfl, fun h => ?_, fun c t ht => ?_,
            ControllerObserver.sound_fresh _⟩
          · cases c
            · exact hlimit
            · cases hc
          · cases h
          · cases c <;> cases ht

theorem toNat_ofNat_mid {mid : ℕ} (h : mid ≤ uint32Max) : (UInt32.ofNat mid).toNat = mid := by
  unfold uint32Max at h
  rw [UInt32.toNat_ofNat']
  exact Nat.mod_eq_of_lt (by omega)

/-- A record for the next message number of a relationship. -/
theorem Sound.addRecord (h : s.Sound) {j : Fin sizes.relationships} {i : Fin sizes.records} {r : Record}
    (hused : (s.relationships j).used) (hmid : (s.relationships j).nextMid ≤ uint32Max)
    (hr : r.Sound) (hkey : r.key = { (s.relationships j).identity with
      messageId := UInt32.ofNat (s.relationships j).nextMid }) :
    Sound { (s.setRecord i r).setRelationship j
        { s.relationships j with nextMid := (s.relationships j).nextMid + 1 } with
      issued := s.issued ++ [(j, UInt32.ofNat (s.relationships j).nextMid)] } := by
  have hnumber := toNat_ofNat_mid hmid
  have hraised := h.raise (j := j) (Nat.le_succ (s.relationships j).nextMid)
  generalize hs : s.setRelationship j
    { s.relationships j with nextMid := (s.relationships j).nextMid + 1 } = raised at hraised
  have hrel : (raised.relationships j).identity = (s.relationships j).identity ∧
      (raised.relationships j).nextMid = (s.relationships j).nextMid + 1 ∧
      (raised.relationships j).used := by
    subst hs
    show (Function.update s.relationships j _ j).identity = _ ∧
      (Function.update s.relationships j _ j).nextMid = _ ∧ (Function.update s.relationships j _ j).used
    rw [Function.update_self]
    exact ⟨rfl, rfl, hused⟩
  have hrecords : raised.records = s.records := by
    subst hs
    rfl
  have hissued : raised.issued = s.issued := by
    subst hs
    rfl
  have hall : ({ (s.setRecord i r).setRelationship j
        { s.relationships j with nextMid := (s.relationships j).nextMid + 1 } with
      issued := s.issued ++ [(j, UInt32.ofNat (s.relationships j).nextMid)] } : Registry sizes) =
      { raised.setRecord i r with
        issued := s.issued ++ [(j, UInt32.ofNat (s.relationships j).nextMid)] } := by
    subst hs
    rfl
  rw [hall]
  have hself : Function.update raised.records i r i = r := Function.update_self ..
  have hother : ∀ k, k ≠ i → Function.update raised.records i r k = s.records k := by
    intro k hk
    rw [Function.update_of_ne hk, hrecords]
  -- a record with the new key would have a number that was not issued yet
  have hfresh : ∀ k, (s.records k).used → ¬sameKey (s.records k).key r.key := by
    intro k hk hsame
    obtain ⟨l, hl⟩ := h.linked k hk
    have hlj : l = j := by
      by_contra hne
      refine h.wires l j hne hl.used hused ?_
      have hwire := sameWire_of_sameKey hsame
      rw [hl.identity, hkey] at hwire
      exact hwire
    have hmessage : (s.records k).key.messageId = r.key.messageId := by
      simp only [sameKey, decide_eq_true_eq] at hsame
      exact hsame.2.2.2.1
    have hlt := hl.issued
    rw [hmessage, hkey, hlj] at hlt
    have hlt : (UInt32.ofNat (s.relationships j).nextMid).toNat < (s.relationships j).nextMid := hlt
    omega
  constructor
  · intro k
    show (Function.update raised.records i r k).Sound
    by_cases hk : k = i
    · rw [hk, hself]
      exact hr
    · rw [hother k hk]
      exact h.records k
  · exact hraised.wires
  · intro k hk
    have hk : (Function.update raised.records i r k).used := hk
    show ∃ l, Belongs _ (Function.update raised.records i r k).key l
    by_cases hki : k = i
    · rw [hki, hself]
      refine ⟨j, hrel.2.2, ?_, ?_⟩
      · show r.key = { (raised.relationships j).identity with messageId := r.key.messageId }
        rw [hrel.1, hkey]
      · show r.key.messageId.toNat < (raised.relationships j).nextMid
        rw [hrel.2.1, hkey]
        show (UInt32.ofNat (s.relationships j).nextMid).toNat < _
        omega
    · rw [hother k hki] at hk ⊢
      obtain ⟨l, hl⟩ := hraised.linked k (by rw [hrecords]; exact hk)
      rw [hrecords] at hl
      exact ⟨l, hl.used, hl.identity, hl.issued⟩
  · intro k l hne hk hl
    have hk : (Function.update raised.records i r k).used := hk
    have hl : (Function.update raised.records i r l).used := hl
    show ¬sameKey (Function.update raised.records i r k).key (Function.update raised.records i r l).key
    by_cases hki : k = i
    · have hli : l ≠ i := fun hli => hne (hki.trans hli.symm)
      rw [hother l hli] at hl ⊢
      rw [hki, hself]
      exact fun hsame => hfresh l hl (sameKey_symm hsame)
    · rw [hother k hki] at hk ⊢
      by_cases hli : l = i
      · rw [hli, hself]
        exact hfresh k hk
      · rw [hother l hli] at hl ⊢
        exact h.keys k l hne hk hl
  · intro p hp
    show (raised.relationships p.1).used ∧ p.2.toNat < (raised.relationships p.1).nextMid
    rcases List.mem_append.mp hp with hp | hp
    · exact hraised.issued p (by rw [hissued]; exact hp)
    · rw [List.mem_singleton] at hp
      rw [hp]
      refine ⟨hrel.2.2, ?_⟩
      rw [hrel.2.1]
      show (UInt32.ofNat (s.relationships j).nextMid).toNat < _
      omega
  · show (s.issued ++ [_]).Pairwise _
    rw [List.pairwise_append]
    refine ⟨h.increasing, List.pairwise_singleton _ _, ?_⟩
    intro p hp q hq heq
    rw [List.mem_singleton] at hq
    subst hq
    have hlt := (h.issued p hp).2
    rw [heq] at hlt
    rw [UInt32.lt_iff_toNat_lt]
    show p.2.toNat < (UInt32.ofNat (s.relationships j).nextMid).toNat
    rw [hnumber]
    exact hlt

theorem Sound.track (h : s.Sound) (slot : ℕ) (request : PacketView) (now timeoutNs : ℕ) :
    (s.track slot request now timeoutNs).2.Sound := by
  rcases track_cases s slot request now timeoutNs with ⟨err, heq⟩ |
    ⟨j, i, r, tracked, hused, -, hmid, -, -, hr, -, hkey, -, heq⟩
  · rw [heq]
    exact h
  · rw [heq]
    exact h.addRecord hused hmid hr hkey

/-! ## Every call -/

theorem findKey_eq_some {key : TransactionKey} {i : Fin sizes.records} (h : s.findKey key = some i) :
    (s.records i).used ∧ sameKey key (s.records i).key := by
  simpa using List.find?_some h

/-- `receive` of an answer to the command of a record. -/
theorem Sound.receive_found (h : s.Sound) {generation : ℕ} {peer : PeerSession} {wire : Bytes}
    {framing : EnvelopeView} {command : Command} {i : Fin sizes.records}
    (hframing : decodeEnvelope wire = .ok framing) (hcommand : framing.envelope.command = some command)
    (hack : framing.envelope.ack)
    (hkey : s.findKey (answerKey generation peer framing.envelope command) = some i) (now : ℕ) :
    s.receive generation peer wire now =
      (((s.records i).receive wire framing.envelope command.cam now).1.map fun _ =>
          { slot := i.val, generation := (s.records i).generation },
        s.setRecord i ((s.records i).receive wire framing.envelope command.cam now).2) := by
  have hkept := ((h.records i).receive wire framing.envelope command.cam now).kept
  unfold Registry.receive
  rw [readResult_eq_ok.mpr hframing]
  dsimp only
  rw [hcommand]
  dsimp only
  rw [if_neg (not_not.mpr hack), hkey]
  dsimp only
  generalize (s.records i).receive wire framing.envelope command.cam now = received at hkept ⊢
  rcases received with ⟨err | u, r⟩
  · rfl
  · dsimp only at hkept ⊢
    rw [hkept.generation]
    rfl

/-- An answer is refused before its record is known, or it is one to the command of a record. -/
theorem Sound.receive_cases (h : s.Sound) (generation : ℕ) (peer : PeerSession) (wire : Bytes)
    (now : ℕ) :
    (∃ err, s.receive generation peer wire now = (.error err, s)) ∨
    ∃ framing command i, (decodeEnvelope wire = .ok framing ∧ framing.envelope.ack) ∧
      framing.envelope.command = some command ∧
      s.findKey (answerKey generation peer framing.envelope command) = some i ∧
      s.receive generation peer wire now =
        (((s.records i).receive wire framing.envelope command.cam now).1.map fun _ =>
            { slot := i.val, generation := (s.records i).generation },
          s.setRecord i ((s.records i).receive wire framing.envelope command.cam now).2) := by
  rcases hframing : decodeEnvelope wire with fault | framing
  · left
    unfold Registry.receive
    rw [hframing]
    rcases fault with err | _ <;> exact ⟨_, rfl⟩
  · by_cases hack : framing.envelope.ack
    · rcases hcommand : framing.envelope.command with _ | command
      · left
        unfold Registry.receive
        rw [readResult_eq_ok.mpr hframing]
        dsimp only
        rw [hcommand]
        exact ⟨_, rfl⟩
      · rcases hkey : s.findKey (answerKey generation peer framing.envelope command) with _ | i
        · left
          unfold Registry.receive
          rw [readResult_eq_ok.mpr hframing]
          dsimp only
          rw [hcommand]
          dsimp only
          rw [if_neg (not_not.mpr hack), hkey]
          exact ⟨_, rfl⟩
        · exact .inr ⟨framing, command, i, ⟨rfl, hack⟩, hcommand, hkey,
            h.receive_found hframing hcommand hack hkey now⟩
    · left
      unfold Registry.receive
      rw [readResult_eq_ok.mpr hframing]
      dsimp only
      rcases framing.envelope.command with _ | command
      · exact ⟨_, rfl⟩
      · dsimp only
        rw [if_pos hack]
        exact ⟨_, rfl⟩

theorem Sound.receive (h : s.Sound) (generation : ℕ) (peer : PeerSession) (wire : Bytes) (now : ℕ) :
    (s.receive generation peer wire now).2.Sound := by
  rcases h.receive_cases generation peer wire now with ⟨err, heq⟩ |
    ⟨framing, command, i, -, -, -, heq⟩
  · rw [heq]
    exact h
  · have hr := (h.records i).receive wire framing.envelope command.cam now
    rw [heq]
    exact h.setRecord hr

theorem markTerminal_replaces {cancellation : Bool} {now : ℕ} (r : Record) (u : Unit) (r' : Record)
    (h : r.Sound) (hr : (do
      rejectIf (cancellation ∧ ¬r.cancelRegistered) (failure .invalidState)
      let r ← r.terminal cancellation now
      return ((), r) : Result (Unit × Record)) = .ok (u, r')) : Record.Replaces r r' := by
  simp only [bind_eq_ok, rejectIf_eq_ok, pure_eq_ok, Except.ok.injEq, Prod.mk.injEq] at hr
  obtain ⟨_, -, r'', hterminal, -, rfl⟩ := hr
  exact h.terminal hterminal

theorem count_replaces {c : Record → Prop} [DecidablePred c] {e : Error} {n : Record → ℕ} (r : Record)
    (u : Unit) (r' : Record) (h : r.Sound) (hr : (do
      rejectIf (c r) e
      return ((), { r with references := n r }) : Result (Unit × Record)) = .ok (u, r')) :
    Record.Replaces r r' := by
  simp only [bind_eq_ok, rejectIf_eq_ok, pure_eq_ok, Except.ok.injEq, Prod.mk.injEq] at hr
  obtain ⟨_, -, -, rfl⟩ := hr
  exact ⟨{ Record.Kept.refl r with },
    h.same (fun _ => rfl) (fun _ => rfl) (fun _ => rfl) rfl rfl rfl h.observer⟩

theorem localSend_replaces {succeeded : Bool} (r : Record) (u : Unit) (r' : Record) (h : r.Sound)
    (hr : (return ((), { r with observer := r.observer.localSend succeeded }) :
      Result (Unit × Record)) = .ok (u, r')) : Record.Replaces r r' := by
  cases hr
  exact ⟨(Record.Kept.refl r).observed (ControllerObserver.extends_record _ _), h.observed (h.observer.localSend _)⟩

/-- Every call keeps the registry sound. -/
theorem Sound.call (h : s.Sound) (c : Call) : (s.call c).Sound := by
  cases c with
  | registerRelationship identity nextMid profile =>
    exact h.registerRelationship identity nextMid profile
  | resumeAfter slot watermark => exact h.resumeAfter slot watermark
  | track slot request now timeoutNs => exact h.track slot request now timeoutNs
  | registerCancel handle packet now timeoutNs =>
    exact h.onRecord fun r a r' hr hcheck => hr.checkCancel hcheck
  | localSend handle succeeded => exact h.onRecord localSend_replaces
  | receive generation peer wire now => exact h.receive generation peer wire now
  | advance now => exact h.advanceFrom now _
  | markTerminal handle cancellation now => exact h.onRecord markTerminal_replaces
  | retain handle => exact h.onRecord count_replaces
  | release handle => exact h.onRecord count_replaces
  | expire now => exact h.expire now

theorem sound_of_reachable (h : s.Reachable) : s.Sound := by
  obtain ⟨calls, rfl⟩ := h
  induction calls using List.reverseRecOn with
  | nil => exact sound_new
  | append_singleton calls c ih =>
    rw [run, List.foldl_append]
    exact ih.call c

/-! ## Rejected answers -/

/-- A record on which an answer had no effect, but for a deadline that had passed. -/
structure Untouched (now : ℕ) (r r' : Record) : Prop where
  observer : r'.observer = r.observer ∨
    ∃ c, r.active c ∧ now ≥ r.limit c ∧ r'.observer = r.observer.timeout c
  seen : r'.seenOrdinary = r.seenOrdinary ∧ r'.seenCancel = r.seenCancel
  states : r'.ordinaryState = r.ordinaryState ∧ r'.cancelState = r.cancelState ∧
    r'.ordinaryCapabilities = r.ordinaryCapabilities
  cancellation : r'.cancelRegistered = r.cancelRegistered ∧ r'.cancelCam = r.cancelCam ∧
    r'.cancelFields = r.cancelFields ∧ r'.cancelDeadline = r.cancelDeadline ∧
    r'.cancelMeaning = r.cancelMeaning
  references : r'.references = r.references
  identity : r'.used = r.used ∧ r'.generation = r.generation ∧ r'.key = r.key ∧
    r'.request = r.request
  /-- A phase that is not active any more had a deadline that has passed. -/
  phases : ∀ c, r'.active c = r.active c ∨ r.active c ∧ now ≥ r.limit c ∧ ¬r'.active c

theorem untouched_refl (now : ℕ) (r : Record) : Untouched now r r :=
  ⟨.inl rfl, ⟨rfl, rfl⟩, ⟨rfl, rfl, rfl⟩, ⟨rfl, rfl, rfl, rfl, rfl⟩, rfl, ⟨rfl, rfl, rfl, rfl⟩,
    fun _ => .inl rfl⟩

/-- A deadline leaves what it is not about. -/
theorem untouched_afterDeadline (now : ℕ) (r : Record) (c : Bool) :
    Untouched now r (r.afterDeadline c now) := by
  unfold Record.afterDeadline
  split
  · next hdue =>
    refine ⟨.inr ⟨c, hdue.1, hdue.2, ?_⟩, ?_, ?_, ?_, ?_, ?_, ?_⟩
    · cases c <;> rfl
    · cases c <;> exact ⟨rfl, rfl⟩
    · cases c <;> exact ⟨rfl, rfl, rfl⟩
    · cases c <;> exact ⟨rfl, rfl, rfl, rfl, rfl⟩
    · cases c <;> rfl
    · cases c <;> exact ⟨rfl, rfl, rfl, rfl⟩
    · intro d
      by_cases hd : d = c
      · subst hd
        refine .inr ⟨hdue.1, hdue.2, ?_⟩
        rw [Record.active_observed, Record.ended_active]
        simp
      · left
        cases c <;> cases d <;> first | rfl | exact absurd rfl hd
  · exact untouched_refl now r

/-- A refused answer changes no record, but for a deadline that had passed, which may have been noted;
and an answer that is taken in changes the record with its key only. -/
theorem rejected_unchanged (h : s.Reachable) (generation : ℕ) (peer : PeerSession) (wire : Bytes)
    (now : ℕ) :
    (∀ err, (s.receive generation peer wire now).1 = .error err →
      (s.receive generation peer wire now).2.relationships = s.relationships ∧
      ∀ i, Untouched now (s.records i) ((s.receive generation peer wire now).2.records i)) ∧
    ∀ handle, (s.receive generation peer wire now).1 = .ok handle →
      ∃ framing command i, decodeEnvelope wire = .ok framing ∧
        framing.envelope.command = some command ∧
        handle = { slot := i.val, generation := (s.records i).generation } ∧
        (s.records i).used ∧
        sameKey (answerKey generation peer framing.envelope command) (s.records i).key ∧
        (s.receive generation peer wire now).2.relationships = s.relationships ∧
        ∀ k, k ≠ i → (s.receive generation peer wire now).2.records k = s.records k := by
  have hsound := sound_of_reachable h
  rcases hsound.receive_cases generation peer wire now with ⟨err, heq⟩ |
    ⟨framing, command, i, ⟨hframing, -⟩, hcommand, hkey, heq⟩
  · rw [heq]
    refine ⟨fun _ _ => ⟨rfl, fun i => untouched_refl now _⟩, fun handle hok => ?_⟩
    cases hok
  · rw [heq]
    rcases hreceive : (s.records i).receive wire framing.envelope command.cam now with ⟨result, r⟩
    refine ⟨fun err herr => ⟨rfl, fun k => ?_⟩, fun handle hok => ?_⟩
    · show Untouched now (s.records k) (Function.update s.records i r k)
      by_cases hk : k = i
      · subst hk
        rw [Function.update_self]
        rcases Record.receive_cases (hsound.records k) wire framing.envelope command.cam now with
          ⟨err', hr⟩ | ⟨err', hr⟩ | ⟨_, _, _, -, -, -, hr⟩ <;> rw [hreceive] at hr
        · cases hr
          exact untouched_refl now _
        · cases hr
          exact untouched_afterDeadline now _ _
        · rw [(Prod.mk.inj hr).1] at herr
          cases herr
      · rw [Function.update_of_ne hk]
        exact untouched_refl now _
    · obtain ⟨hused, hsame⟩ := findKey_eq_some hkey
      refine ⟨framing, command, i, hframing, hcommand, ?_, hused, hsame, rfl,
        fun k hk => Function.update_of_ne hk ..⟩
      cases result with
      | error err => cases hok
      | ok u =>
        cases hok
        rfl

namespace Query

/-- The query asks for the range of a field, and for an acknowledgement of its validation as well. -/
def queryWire : Bytes := putWords [0x60000006, 7, 0x00140000, 0, 0x20000080, 0x0c000000]

/-- The ranges, in answer to the first command. -/
def answerWire : Bytes :=
  putWords [0x6400000a, 7, 0x00040000, 1, 0x20000080, 0x0c000000, 0, 0x00200000, 0, 0x00100000]

def peer : PeerSession := { peer := 1, generation := 1 }

def identity : TransactionKey := { bindingGeneration := 1, peer, streamId := some 7 }

/-- The query as it is read from its bytes. -/
def query : PacketView :=
  (decodePacketBounded 16 64 queryWire {}).toOption.getD { envelope := {} }

/-- The query is sent at time 0, to be answered by time 10. -/
def sent : Registry ⟨2, 512, 1⟩ :=
  run {} [.registerRelationship identity 1 .generatorV1, .track 0 query 0 10]

/-- The ranges arrive in time; the other acknowledgement does not. -/
def answered : Registry ⟨2, 512, 1⟩ := (sent.receive 1 peer answerWire 5).2

/-- The query is sent twice, and the ranges are received for the first one. -/
def pair : Registry ⟨2, 512, 1⟩ :=
  run {} [.registerRelationship identity 1 .generatorV1, .track 0 query 0 10, .track 0 query 1 30,
    .receive 1 peer answerWire 5]

end Query

open Query in
/-- The ranges come again behind the deadline of the first query, and are refused. -/
theorem rejected_unchanged_pair :
    (pair.records 0).ordinaryCapabilities.isSome ∧ (pair.records 1).used ∧
      (pair.receive 1 peer answerWire 20).1 = .error (failure .identityConflict) ∧
      ∀ i, Untouched 20 (pair.records i) ((pair.receive 1 peer answerWire 20).2.records i) := by
  have hpair : pair.Reachable := ⟨_, rfl⟩
  have hrefused : (pair.receive 1 peer answerWire 20).1 = .error (failure .identityConflict) := by
    decide +kernel
  exact ⟨by decide +kernel, by decide +kernel, hrefused,
    ((rejected_unchanged hpair 1 peer answerWire 20).1 _ hrefused).2⟩

/-! ## Identities over a run -/

/-- Records stay those of their commands. -/
def Keeps (s s' : Registry sizes) : Prop := ∀ i, Record.Kept (s.records i) (s'.records i)

theorem keeps_of_records (h : s'.records = s.records) : s.Keeps s' := by
  intro i
  rw [h]
  exact .refl _

theorem keeps_setRecord {i : Fin sizes.records} {r : Record} (h : Record.Kept (s.records i) r) :
    s.Keeps (s.setRecord i r) := by
  intro k
  show Record.Kept (s.records k) (Function.update s.records i r k)
  by_cases hk : k = i
  · subst hk
    rw [Function.update_self]
    exact h
  · rw [Function.update_of_ne hk]
    exact .refl _

theorem Keeps.trans {s'' : Registry sizes} (h : s.Keeps s') (h' : s'.Keeps s'') : s.Keeps s'' :=
  fun i => (h i).trans (h' i)

/-- What replaces a record keeps the others. -/
theorem Sound.onRecord_keeps {α : Type} (h : s.Sound) {handle : ControllerHandle}
    {f : Record → Result (α × Record)}
    (hf : ∀ r a r', r.Sound → f r = .ok (a, r') → Record.Replaces r r') :
    s.Keeps (s.onRecord handle f).2 := by
  unfold Registry.onRecord
  split
  · exact keeps_of_records rfl
  · next i hi =>
    split
    · exact keeps_of_records rfl
    · next a r hr => exact keeps_setRecord (hf _ _ _ (h.records i) hr).kept

/-- The passing of time keeps the records. -/
theorem Sound.advanceFrom_keeps (h : s.Sound) (now : ℕ) (indices : List (Fin sizes.records)) :
    s.Keeps (Registry.advanceFrom now indices s).2 := by
  induction indices generalizing s with
  | nil => exact keeps_of_records rfl
  | cons i rest ih =>
    unfold Registry.advanceFrom
    split
    · exact ih h
    · have hr := h.records i
      have hr' := hr.afterDeadline false now
      have hkept := (Record.afterDeadline_kept (s.records i) false now).trans
        (Record.afterDeadline_kept _ true now)
      rw [Record.expireDeadline_eq hr]
      dsimp only
      rw [Record.expireDeadline_eq hr']
      exact (keeps_setRecord hkept).trans
        (ih (h.setRecord ⟨hkept, hr'.afterDeadline true now⟩))

/-- A call keeps the records; but `track` uses one that was free, and `expire` frees some. -/
theorem Sound.call_keeps (h : s.Sound) (c : Call) :
    s.Keeps (s.call c) ∨
    (∃ i, ¬(s.records i).used ∧ ((s.call c).records i).generation = (s.records i).generation ∧
      ∀ k, k ≠ i → (s.call c).records k = s.records k) ∨
    ∃ now, c = .expire now := by
  cases c with
  | registerRelationship identity nextMid profile =>
    left
    refine keeps_of_records ?_
    show (s.registerRelationship identity nextMid profile).2.records = _
    unfold Registry.registerRelationship
    split
    · rfl
    · dsimp only
      split
      · split <;> rfl
      · split <;> rfl
  | resumeAfter slot watermark =>
    left
    refine keeps_of_records ?_
    show (s.resumeAfter slot watermark).2.records = _
    unfold Registry.resumeAfter
    split
    · rfl
    · dsimp only
      split
      · rfl
      · split <;> rfl
  | track slot request now timeoutNs =>
    rcases track_cases s slot request now timeoutNs with ⟨err, heq⟩ |
      ⟨j, i, r, tracked, -, -, -, hunused, hgeneration, -, -, -, -, heq⟩
    · left
      show s.Keeps (s.track slot request now timeoutNs).2
      rw [heq]
      exact keeps_of_records rfl
    · refine .inr (.inl ⟨i, hunused, ?_, fun k hk => ?_⟩)
      · show ((s.track slot request now timeoutNs).2.records i).generation = _
        rw [heq]
        show (Function.update s.records i r i).generation = _
        rw [Function.update_self]
        exact hgeneration
      · show (s.track slot request now timeoutNs).2.records k = _
        rw [heq]
        exact Function.update_of_ne hk ..
  | registerCancel handle packet now timeoutNs =>
    exact .inl (h.onRecord_keeps fun r a r' hr hcheck => hr.checkCancel hcheck)
  | localSend handle succeeded => exact .inl (h.onRecord_keeps localSend_replaces)
  | receive generation peer wire now =>
    left
    show s.Keeps (s.receive generation peer wire now).2
    rcases h.receive_cases generation peer wire now with ⟨err, heq⟩ |
      ⟨framing, command, i, -, -, -, heq⟩
    · rw [heq]
      exact keeps_of_records rfl
    · rw [heq]
      exact keeps_setRecord ((h.records i).receive wire framing.envelope command.cam now).kept
  | advance now => exact .inl (h.advanceFrom_keeps now _)
  | markTerminal handle cancellation now => exact .inl (h.onRecord_keeps markTerminal_replaces)
  | retain handle => exact .inl (h.onRecord_keeps count_replaces)
  | release handle => exact .inl (h.onRecord_keeps count_replaces)
  | expire now => exact .inr (.inr ⟨now, rfl⟩)

/-- A call keeps a record in use, or it is `expire` and the record may be freed. -/
theorem Sound.call_kept (h : s.Sound) (c : Call) {i : Fin sizes.records} (hused : (s.records i).used) :
    Record.Kept (s.records i) ((s.call c).records i) ∨
    ∃ now, c = .expire now ∧ expired (s.records i) now ∧
      ((s.call c).records i).generation = (s.records i).generation + 1 := by
  rcases h.call_keeps c with hkeeps | ⟨k, hunused, -, hothers⟩ | ⟨now, rfl⟩
  · exact .inl (hkeeps i)
  · left
    have hik : i ≠ k := by
      rintro rfl
      exact hunused hused
    rw [hothers i hik]
    exact .refl _
  · by_cases hexpired : expired (s.records i) now
    · refine .inr ⟨now, rfl, hexpired, ?_⟩
      show (if expired (s.records i) now then
        ({ generation := (s.records i).generation + 1 } : Record) else s.records i).generation = _
      rw [if_pos hexpired]
    · left
      have hsame : (s.call (.expire now)).records i = s.records i := if_neg hexpired
      rw [hsame]
      exact .refl _

/-- A record that is freed. -/
theorem Sound.freed (h : s.Sound) {c : Call} {i : Fin sizes.records} (hused : (s.records i).used)
    (hfreed : ¬((s.call c).records i).used ∨
      ((s.call c).records i).generation ≠ (s.records i).generation) :
    ∃ now, c = .expire now ∧ (s.records i).references = 0 ∧
      ¬(s.records i).ordinaryActive ∧ ¬(s.records i).cancelActive ∧
      (∃ t, (s.records i).ordinaryTerminal = some t ∧ t + minimumRetentionNs ≤ now) ∧
      ((s.records i).cancelRegistered →
        ∃ t, (s.records i).cancelTerminal = some t ∧ t + minimumRetentionNs ≤ now) := by
  rcases h.call_kept c hused with hkept | ⟨now, rfl, hexpired, -⟩
  · rw [hkept.used, hkept.generation] at hfreed
    rcases hfreed with hfreed | hfreed
    · exact absurd hused hfreed
    · exact absurd rfl hfreed
  · simp only [expired, decide_eq_true_eq] at hexpired
    obtain ⟨-, hordinary, hcancel, hreferences, hnow⟩ := hexpired
    have hr := h.records i
    refine ⟨now, rfl, hreferences, hordinary, hcancel, ?_, fun hregistered => ?_⟩
    · rcases hr.ordinary hused with hactive | ⟨t, ht⟩
      · exact absurd hactive hordinary
      · exact ⟨t, ht, (hr.expires false t ht).trans hnow⟩
    · rcases hr.cancel hregistered with hactive | ⟨t, ht⟩
      · exact absurd hactive hcancel
      · exact ⟨t, ht, (hr.expires true t ht).trans hnow⟩

theorem onRecord_issued {α : Type} {handle : ControllerHandle} {f : Record → Result (α × Record)} :
    (s.onRecord handle f).2.issued = s.issued := by
  unfold onRecord
  split
  · rfl
  · split <;> rfl

/-- No id is issued by the clock. -/
theorem advanceFrom_issued (now : ℕ) (indices : List (Fin sizes.records)) (s : Registry sizes) :
    (advanceFrom now indices s).2.issued = s.issued := by
  induction indices generalizing s with
  | nil => rfl
  | cons i rest ih =>
    unfold advanceFrom
    split
    · exact ih s
    · split
      · rfl
      · split
        · rfl
        · exact ih _

/-- Every call but `track` leaves the list of the numbers that were issued. -/
theorem Sound.call_issued (h : s.Sound) (c : Call) :
    (s.call c).issued = s.issued ∨ ∃ slot request now timeoutNs, c = .track slot request now timeoutNs := by
  cases c with
  | registerRelationship identity nextMid profile =>
    left
    show (s.registerRelationship identity nextMid profile).2.issued = _
    unfold Registry.registerRelationship
    split
    · rfl
    · dsimp only
      split
      · split <;> rfl
      · split <;> rfl
  | resumeAfter slot watermark =>
    left
    show (s.resumeAfter slot watermark).2.issued = _
    unfold Registry.resumeAfter
    split
    · rfl
    · dsimp only
      split
      · rfl
      · split <;> rfl
  | track slot request now timeoutNs => exact .inr ⟨slot, request, now, timeoutNs, rfl⟩
  | receive generation peer wire now =>
    left
    show (s.receive generation peer wire now).2.issued = _
    rcases h.receive_cases generation peer wire now with ⟨err, heq⟩ |
      ⟨framing, command, i, -, -, -, heq⟩
    · rw [heq]
    · rw [heq]
      rfl
  | advance now => exact .inl (advanceFrom_issued now _ s)
  | registerCancel handle packet now timeoutNs => exact .inl onRecord_issued
  | localSend handle succeeded => exact .inl onRecord_issued
  | markTerminal handle cancellation now => exact .inl onRecord_issued
  | retain handle => exact .inl onRecord_issued
  | release handle => exact .inl onRecord_issued
  | expire now => exact .inl rfl

/-- The number that `track` returns is the one it issues. -/
theorem track_issued (s : Registry sizes) (slot : ℕ) (request : PacketView) (now timeoutNs : ℕ) :
    match (s.track slot request now timeoutNs).1 with
    | .error _ => (s.track slot request now timeoutNs).2 = s
    | .ok tracked => ∃ j command, j.val = slot ∧ tracked.envelope.command = some command ∧
        command.messageId.toNat = (s.relationships j).nextMid ∧
        (s.track slot request now timeoutNs).2.issued = s.issued ++ [(j, command.messageId)] := by
  rcases track_cases s slot request now timeoutNs with ⟨err, heq⟩ |
    ⟨j, i, r, tracked, -, hslot, hmid, -, -, -, -, -, ⟨command, hcommand, hid⟩, heq⟩
  · rw [heq]
  · rw [heq]
    refine ⟨j, command, hslot, hcommand, ?_, ?_⟩
    · rw [hid, toNat_ofNat_mid hmid]
    · rw [hid]

/-- Message numbers identify a command. Over a run, the numbers that `track` issues for a relationship
grow, and there are none once the last one was issued; no two records have the same key, and no two
relationships the same wire identity. A record is freed only by `expire`, when nobody holds it and its
phases have ended long enough ago. -/
theorem identities_unique (h : s.Reachable) :
    (s.issued.Pairwise fun p q => p.1 = q.1 → p.2 < q.2) ∧
    (∀ c, (s.call c).issued = s.issued ∨
      ∃ slot request now timeoutNs, c = .track slot request now timeoutNs) ∧
    (∀ slot request now timeoutNs,
      match (s.track slot request now timeoutNs).1 with
      | .error _ => (s.track slot request now timeoutNs).2 = s
      | .ok tracked => ∃ j command, j.val = slot ∧ tracked.envelope.command = some command ∧
          command.messageId.toNat = (s.relationships j).nextMid ∧
          (s.track slot request now timeoutNs).2.issued = s.issued ++ [(j, command.messageId)]) ∧
    (∀ i k, i ≠ k → (s.records i).used → (s.records k).used →
      ¬sameKey (s.records i).key (s.records k).key) ∧
    (∀ j k, j ≠ k → (s.relationships j).used → (s.relationships k).used →
      ¬sameWireRelationship (s.relationships j).identity (s.relationships k).identity) ∧
    ∀ c i, (s.records i).used →
      (¬((s.call c).records i).used ∨
        ((s.call c).records i).generation ≠ (s.records i).generation) →
      ∃ now, c = .expire now ∧ (s.records i).references = 0 ∧
        ¬(s.records i).ordinaryActive ∧ ¬(s.records i).cancelActive ∧
        (∃ t, (s.records i).ordinaryTerminal = some t ∧ t + minimumRetentionNs ≤ now) ∧
        ((s.records i).cancelRegistered →
          ∃ t, (s.records i).cancelTerminal = some t ∧ t + minimumRetentionNs ≤ now) := by
  have hsound := sound_of_reachable h
  exact ⟨hsound.increasing, hsound.call_issued, track_issued s, hsound.keys, hsound.wires,
    fun c i hused hfreed => hsound.freed hused hfreed⟩

namespace Query

/-- Two queries are sent; the first one ends at once, and nobody needs its record any more. -/
def ended : Registry ⟨2, 512, 1⟩ :=
  run {} [.registerRelationship identity 1 .generatorV1, .track 0 query 0 10, .track 0 query 1 30,
    .markTerminal ⟨0, 1⟩ false 2, .release ⟨0, 1⟩]

/-- The record of the first query is freed, and a third query has it. -/
def reused : Registry ⟨2, 512, 1⟩ := ended.run [.expire 30000000002, .track 0 query 30000000003 10]

end Query

open Query in
/-- A record is used for a second command. -/
theorem identities_unique_reused :
    reused.issued = [(0, 1), (0, 2), (0, 3)] ∧
      (reused.issued.Pairwise fun p q => p.1 = q.1 → p.2 < q.2) ∧
      (reused.records 0).generation = 2 ∧ ¬sameKey (reused.records 0).key (reused.records 1).key ∧
      ¬((ended.call (.expire 30000000002)).records 0).used ∧
      ∃ t, (ended.records 0).ordinaryTerminal = some t ∧ t + minimumRetentionNs ≤ 30000000002 := by
  have hended : ended.Reachable := ⟨_, rfl⟩
  have hreused : reused.Reachable := ⟨_, (List.foldl_append (l := _)).symm⟩
  have hfreed : ¬((ended.call (.expire 30000000002)).records 0).used := by decide +kernel
  obtain ⟨hincreasing, -, -, hkeys, -, -⟩ := identities_unique hreused
  obtain ⟨now, hnow, -, -, -, hterminal, -⟩ :=
    (identities_unique hended).2.2.2.2.2 (.expire 30000000002) 0 (by decide +kernel) (.inl hfreed)
  cases hnow
  exact ⟨by decide +kernel, hincreasing, by decide +kernel,
    hkeys 0 1 (by decide) (by decide +kernel) (by decide +kernel), hfreed, hterminal⟩

end Registry

end Vita.Transaction.Controller
