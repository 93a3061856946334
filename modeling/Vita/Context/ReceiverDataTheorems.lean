import Vita.Context.ReceiverData

/-!
# What becomes of received Data

Each packet that `receive_data` accepts is delivered at once, waits, is delivered later, expires or is
discarded, and only one of these (`Kept.fates`). A packet that expires is reported to the callback
`drop` if there is one.

Main result: `data_settled_once`.
-/

namespace Vita.Context.ContextReceiver

open Checked Timing State Codec Transaction Memory

/-! ## Fates -/

/-- The packet is delivered from its envelope. -/
def atOnce (p : ℕ) : Happening → Bool
  | .delivered q false _ _ _ _ => q = p
  | _ => false

/-- The packet is delivered from a slot. -/
def later (p : ℕ) : Happening → Bool
  | .delivered q true _ _ _ _ => q = p
  | _ => false

def expires (p : ℕ) : Happening → Bool
  | .expired q _ _ => q = p
  | _ => false

def discards (p : ℕ) : Happening → Bool
  | .discarded q => q = p
  | _ => false

def accepts (p : ℕ) : Happening → Bool
  | .accepted q _ _ => q = p
  | _ => false

/-- The packet is reported to the callback `drop`. -/
def drops (p : ℕ) : Happening → Bool
  | .dropped q _ => q = p
  | _ => false

def holds (p : ℕ) (slot : Option Pending) : Bool := slot.any fun x => x.packet = p

/-- The slots in use. -/
def held (r : ContextReceiver) : ℕ := r.waiting.countP Option.isSome

/-- How often a packet is delivered, waits, expires or is discarded. -/
def fates (p : ℕ) (r : ContextReceiver) : ℕ :=
  r.log.countP (atOnce p) + r.waiting.countP (holds p) + r.log.countP (later p) +
    r.log.countP (expires p) + r.log.countP (discards p)

/-! ## Slots -/

section Slots

variable {l : List (Option Pending)} {k : ℕ} {p : Pending} {f : Option Pending → Bool}

/-- A slot is taken. -/
theorem countP_take (hk : l[k]? = some none) (hf : f none = false) :
    (l.set k (some p)).countP f = l.countP f + if f (some p) then 1 else 0 := by
  obtain ⟨hlt, hget⟩ := List.getElem?_eq_some_iff.mp hk
  rw [List.countP_set hlt, hget, hf]
  simp

/-- A slot is freed. -/
theorem countP_free (hk : l[k]? = some (some p)) (hf : f none = false) :
    (l.set k none).countP f + (if f (some p) then 1 else 0) = l.countP f := by
  obtain ⟨hlt, hget⟩ := List.getElem?_eq_some_iff.mp hk
  rw [List.countP_set hlt, hget, hf]
  by_cases hp : f (some p)
  · have hpos : 0 < l.countP f :=
      List.countP_pos_iff.mpr ⟨some p, hget ▸ List.getElem_mem hlt, hp⟩
    simp only [hp, if_true, Bool.false_eq_true, if_false]
    omega
  · simp [hp]

end Slots

/-! ## The invariant -/

/-- What is known of a delivery. -/
structure Justified (r : ContextReceiver) (sample : ProtocolTime) (now : ℕ)
    (metadata : MetadataSnapshot) (history : ReceiverHistory) : Prop where
  known : ¬r.allowUnknown → metadata = history.resolve sample now ∧ metadata.confidence = .known ∧
    metadata.validData

/-- What the log may say, if it says all of `l`. -/
def Told (r : ContextReceiver) (l : List Happening) : Happening → Prop
  | .delivered p _ sample now metadata history =>
    (∃ arrival, .accepted p sample arrival ∈ l) ∧ r.Justified sample now metadata history
  | .expired p arrival now => arrival + longestWait ≤ now ∧ ∃ sample, .accepted p sample arrival ∈ l
  | _ => True

/-- The receiver without its count of waiting packets. -/
structure Kept (r : ContextReceiver) : Prop where
  quota : r.localQuota.active = r.held
  room : r.localQuota.limit = r.waiting.length
  fates : ∀ p, fates p r = r.log.countP (accepts p)
  fresh : ∀ p, r.nextPacket ≤ p → r.log.countP (accepts p) = 0
  once : ∀ p, r.log.countP (accepts p) ≤ 1
  waits : ∀ x, some x ∈ r.waiting → .accepted x.packet x.sample x.arrival ∈ r.log
  told : ∀ e ∈ r.log, r.Told r.log e
  dropped : ∀ p, r.log.countP (drops p) = if r.binding.drop then r.log.countP (expires p) else 0

/-- A new receiver keeps nothing. -/
theorem Kept.new (m : ℕ) (binding : ReceiverBinding) (generation : ℕ) (epoch : Tsi)
    (allowUnknown : Bool) (reference : Option UInt32) (fixedFormat : Option UInt64)
    (profile : IqProfile) :
    Kept (initial m binding generation epoch allowUnknown reference fixedFormat profile) where
  quota := by simp [initial, held, List.countP_replicate]
  room := by simp [initial]
  fates p := by simp [initial, ContextReceiver.fates, holds, List.countP_replicate]
  fresh p _ := rfl
  once p := by simp [initial]
  waits x hx := by simp [initial] at hx
  told e h := by simp [initial] at h
  dropped p := (ite_self 0).symm

variable {r r' : ContextReceiver} {es : List Happening}

theorem Told.mono {l : List Happening} {e : Happening} (h : r.Told l e)
    (hallow : r'.allowUnknown = r.allowUnknown) : r'.Told (l ++ es) e := by
  cases e with
  | delivered p retained sample now metadata history =>
    obtain ⟨⟨arrival, haccepted⟩, hjustified⟩ := h
    exact ⟨⟨arrival, List.mem_append_left _ haccepted⟩, ⟨fun hno => hjustified.known (hallow ▸ hno)⟩⟩
  | expired p arrival now =>
    obtain ⟨hlong, sample, haccepted⟩ := h
    exact ⟨hlong, sample, List.mem_append_left _ haccepted⟩
  | _ => trivial

/-- What a call does: what happens in it is all that the log gets, no packet is accepted twice, and
each packet that it takes from the slots or accepts has a fate. -/
structure Does (r r' : ContextReceiver) (es : List Happening) : Prop where
  log : r'.log = r.log ++ es
  binding : r'.binding = r.binding
  allow : r'.allowUnknown = r.allowUnknown
  next : r.nextPacket ≤ r'.nextPacket
  quota : r'.localQuota.active = r'.held
  room : r'.localQuota.limit = r'.waiting.length
  fates : ∀ p, es.countP (atOnce p) + r'.waiting.countP (holds p) + es.countP (later p) +
    es.countP (expires p) + es.countP (discards p) =
      r.waiting.countP (holds p) + es.countP (accepts p)
  fresh : ∀ p, p < r.nextPacket ∨ r'.nextPacket ≤ p → es.countP (accepts p) = 0
  once : ∀ p, es.countP (accepts p) ≤ 1
  waits : ∀ x, some x ∈ r'.waiting → some x ∈ r.waiting ∨
    .accepted x.packet x.sample x.arrival ∈ es
  told : ∀ e ∈ es, r'.Told r'.log e
  dropped : ∀ p, es.countP (drops p) = if r.binding.drop then es.countP (expires p) else 0

/-- What a step does leaves the parked values counted and in order. -/
theorem Kept.step (h : Kept r) (hdoes : Does r r' es) : Kept r' where
  quota := hdoes.quota
  room := hdoes.room
  fates p := by
    have hbefore := h.fates p
    have hnew := hdoes.fates p
    simp only [ContextReceiver.fates, hdoes.log, List.countP_append] at hbefore ⊢
    omega
  fresh p hp := by
    rw [hdoes.log, List.countP_append, h.fresh p (hdoes.next.trans hp), hdoes.fresh p (.inr hp)]
  once p := by
    rw [hdoes.log, List.countP_append]
    by_cases hp : p < r.nextPacket
    · rw [hdoes.fresh p (.inl hp)]
      exact h.once p
    · rw [h.fresh p (not_lt.mp hp), Nat.zero_add]
      exact hdoes.once p
  waits x hx := by
    rw [hdoes.log]
    rcases hdoes.waits x hx with hx | hx
    · exact List.mem_append_left _ (h.waits x hx)
    · exact List.mem_append_right _ hx
  told e he := by
    rw [hdoes.log] at he
    rcases List.mem_append.mp he with he | he
    · rw [hdoes.log]
      exact (h.told e he).mono hdoes.allow
    · exact hdoes.told e he
  dropped p := by
    have hbefore := h.dropped p
    have hnew := hdoes.dropped p
    rw [hdoes.log, hdoes.binding, List.countP_append, List.countP_append, hbefore, hnew]
    split <;> rfl

/-! ## Receiving -/

/-- Nothing happens to a packet. -/
theorem Kept.congr (h : Kept r) (hlog : r'.log = r.log) (hwaiting : r'.waiting = r.waiting)
    (hquota : r'.localQuota = r.localQuota) (hbinding : r'.binding = r.binding)
    (hallow : r'.allowUnknown = r.allowUnknown) (hnext : r.nextPacket ≤ r'.nextPacket) : Kept r' := by
  have hdoes : Does r r' [] := {
    log := by rw [hlog, List.append_nil]
    binding := hbinding
    allow := hallow
    next := hnext
    quota := by rw [hquota, h.quota, held, held, hwaiting]
    room := by rw [hquota, hwaiting, h.room]
    fates := by simp [hwaiting]
    fresh := by simp
    once := by simp
    waits := fun x hx => .inl (hwaiting ▸ hx)
    told := by simp
    dropped := by simp }
  exact h.step hdoes

/-- The packet with the next number is delivered at once. -/
theorem Kept.accept (h : Kept r) {sample : ProtocolTime} {now : ℕ} {metadata : MetadataSnapshot}
    (hjustified : r.Justified sample now metadata r.history) :
    Kept ({ r with nextPacket := r.nextPacket + 1 }.emit
      [.delivered r.nextPacket false sample now metadata r.history,
        .accepted r.nextPacket sample now]) := by
  refine h.step ⟨rfl, rfl, rfl, Nat.le_succ _, h.quota, h.room, fun p => ?_, fun p hp => ?_,
    fun p => ?_, fun x hx => .inl hx, fun e he => ?_, fun p => ?_⟩
  · by_cases hp : r.nextPacket = p
    · simp [atOnce, later, expires, discards, accepts, emit, hp, Nat.add_comm]
    · simp [atOnce, later, expires, discards, accepts, emit, hp]
  · have hne : r.nextPacket ≠ p := by
      simp only [emit] at hp
      omega
    simp [accepts, hne]
  · by_cases hp : r.nextPacket = p
    · simp [accepts, hp]
    · simp [accepts, hp]
  · rcases List.mem_cons.mp he with rfl | he
    · exact ⟨⟨now, by simp [emit]⟩, ⟨hjustified.known⟩⟩
    · obtain rfl := List.mem_singleton.mp he
      trivial
  · simp [drops, expires]

/-- The packet with the next number waits. -/
theorem Kept.wait (h : Kept r) {sample : ProtocolTime} {now k : ℕ} (hk : r.waiting[k]? = some none) :
    Kept ({ r with
      nextPacket := r.nextPacket + 1
      waiting := r.waiting.set k (some { packet := r.nextPacket, sample, arrival := now })
      waitingCount := r.waitingCount + 1
      localQuota := { r.localQuota with active := r.localQuota.active + 1 } }.emit
      [.accepted r.nextPacket sample now]) := by
  refine h.step ⟨rfl, rfl, rfl, Nat.le_succ _, ?_, ?_, fun p => ?_, fun p hp => ?_,
    fun p => ?_, fun x hx => ?_, fun e he => ?_, fun p => ?_⟩
  · have hquota := h.quota
    simp only [held] at hquota
    simp [emit, held, countP_take hk (f := Option.isSome) rfl, hquota]
  · simp [emit, h.room]
  · rw [emit, countP_take hk rfl]
    by_cases hp : r.nextPacket = p
    · simp [atOnce, later, expires, discards, accepts, holds, hp]
    · simp [atOnce, later, expires, discards, accepts, holds, hp]
  · have hne : r.nextPacket ≠ p := by
      simp only [emit] at hp
      omega
    simp [accepts, hne]
  · by_cases hp : r.nextPacket = p
    · simp [accepts, hp]
    · simp [accepts, hp]
  · rcases List.mem_or_eq_of_mem_set hx with hx | hx
    · exact .inl hx
    · obtain rfl := Option.some.inj hx
      exact .inr (by simp)
  · obtain rfl := List.mem_singleton.mp he
    trivial
  · simp [drops, expires]

/-- A slot is freed, as what happens to its packet says. -/
theorem Kept.free (h : Kept r) {k : ℕ} {x : Pending} (hk : r.waiting[k]? = some (some x)) (m : ℕ)
    (hfate : ∀ p, es.countP (atOnce p) = 0 ∧ es.countP (accepts p) = 0 ∧
      es.countP (later p) + es.countP (expires p) + es.countP (discards p) =
        if x.packet = p then 1 else 0)
    (htold : ∀ e ∈ es, r.Told r.log e)
    (hdropped : ∀ p, es.countP (drops p) = if r.binding.drop then es.countP (expires p) else 0) :
    Kept { r with
      waiting := r.waiting.set k none
      waitingCount := m
      localQuota := { r.localQuota with active := r.localQuota.active - 1 }
      log := r.log ++ es } := by
  refine h.step ⟨rfl, rfl, rfl, le_rfl, ?_, ?_, fun p => ?_, fun p _ => (hfate p).2.1,
    fun p => (hfate p).2.1.trans_le (Nat.zero_le 1), fun y hy => ?_,
    fun e he => (htold e he).mono rfl, hdropped⟩
  · have hquota := h.quota
    have hfree := countP_free hk (f := Option.isSome) rfl
    simp only [held, Option.isSome_some, if_true] at hquota hfree ⊢
    omega
  · simp [h.room]
  · obtain ⟨hatOnce, haccepts, hsum⟩ := hfate p
    have hfree := countP_free hk (f := holds p) rfl
    simp only [holds, Option.any_some, decide_eq_true_eq] at hfree
    simp only [hatOnce, haccepts]
    omega
  · rcases List.mem_or_eq_of_mem_set hy with hy | hy
    · exact .inl hy
    · exact absurd hy (by simp)

/-- The invariant of a run. -/
structure Settled (r : ContextReceiver) : Prop extends Kept r where
  count : r.waitingCount = r.held

/-- While the quota has a unit, a slot is free. -/
theorem Kept.exists_free (h : Kept r) (hroom : r.localQuota.active < r.localQuota.limit) :
    ∃ k, r.waiting.findIdx? Option.isNone = some k ∧ r.waiting[k]? = some none := by
  rw [h.quota, h.room, held] at hroom
  have hsome : ∃ slot ∈ r.waiting, slot.isNone := by
    by_contra hno
    push Not at hno
    have hall : r.waiting.countP Option.isSome = r.waiting.length := by
      rw [List.countP_eq_length]
      intro slot hslot
      exact Option.isSome_iff_ne_none.mpr (by simpa using hno slot hslot)
    omega
  rcases hk : r.waiting.findIdx? Option.isNone with _ | k
  · obtain ⟨slot, hslot, hnone⟩ := hsome
    rw [List.findIdx?_eq_none_iff] at hk
    simp [hk slot hslot] at hnone
  · obtain ⟨hlt, hnone, -⟩ := List.findIdx?_eq_some_iff_getElem.mp hk
    exact ⟨k, rfl, by simp [List.getElem?_eq_getElem hlt, Option.isNone_iff_eq_none.mp hnone]⟩

/-- What `receive_data` does with the packet with the next number. -/
inductive Handled (r : ContextReceiver) (sample : ProtocolTime) (now : ℕ) : ContextReceiver → Prop
  | refused : Handled r sample now { r with nextPacket := r.nextPacket + 1 }
  | atOnce (metadata : MetadataSnapshot) (h : r.Justified sample now metadata r.history) :
    Handled r sample now ({ r with nextPacket := r.nextPacket + 1 }.emit
      [.delivered r.nextPacket false sample now metadata r.history,
        .accepted r.nextPacket sample now])
  | waits (k : ℕ) (hk : r.waiting[k]? = some none) :
    Handled r sample now ({ r with
      nextPacket := r.nextPacket + 1
      waiting := r.waiting.set k (some { packet := r.nextPacket, sample, arrival := now })
      waitingCount := r.waitingCount + 1
      localQuota := { r.localQuota with active := r.localQuota.active + 1 } }.emit
      [.accepted r.nextPacket sample now])

/-- Data that comes in are delivered, parked or dropped, once. -/
theorem receiveData_handled (h : Kept r) (fragments : ℕ) (globalFree : Bool) (sample : ProtocolTime)
    (generation now : ℕ) :
    Handled r sample now (r.receiveData fragments globalFree sample generation now).2 := by
  unfold receiveData handle
  dsimp only
  split_ifs with hgeneration hargument hdeliverable hunknown
  · exact .refused
  · exact .refused
  · have hjustified : r.Justified sample now (r.history.resolve sample now) r.history :=
      ⟨fun _ => ⟨rfl, by simpa [deliverable] using hdeliverable⟩⟩
    simpa [emit] using Handled.atOnce _ hjustified
  · have hjustified : r.Justified sample now (unknownMetadata (r.history.resolve sample now)
        (r.fixedFormat.getD 0)) r.history :=
      ⟨fun hno => absurd hunknown.1 hno⟩
    simpa [emit] using Handled.atOnce _ hjustified
  · unfold retain
    dsimp only
    split_ifs with hfragments hquota hglobal
    · exact .refused
    · -- a slot is free, since the quota had a unit
      obtain ⟨k, hfind, hk⟩ := h.exists_free hquota.2
      have hwaits : Handled r sample now _ := .waits k hk
      simpa [ContextReceiver.wait, hfind, emit] using hwaits
    · have hrefused : Handled r sample now _ := .refused
      simpa [releaseLocal] using hrefused
    · exact .refused

theorem Handled.kept {sample : ProtocolTime} {now : ℕ} (hhandled : Handled r sample now r')
    (h : Settled r) : Settled r' := by
  cases hhandled with
  | refused => exact ⟨h.toKept.congr rfl rfl rfl rfl rfl (Nat.le_succ _), h.count⟩
  | atOnce metadata hjustified => exact ⟨h.toKept.accept hjustified, h.count⟩
  | waits k hk =>
    refine ⟨h.toKept.wait hk, ?_⟩
    have hcount := h.count
    simp only [held] at hcount
    simp [emit, held, countP_take hk (f := Option.isSome) rfl, hcount]

/-! ## Waiting -/

theorem Kept.isAccepted (h : Kept r) {k : ℕ} {x : Pending} (hk : r.waiting[k]? = some (some x)) :
    .accepted x.packet x.sample x.arrival ∈ r.log :=
  h.waits x (List.mem_of_getElem? hk)

theorem held_free {k : ℕ} {x : Pending} (hk : r.waiting[k]? = some (some x)) :
    (r.waiting.set k none).countP Option.isSome + 1 = r.held := by
  simpa [held] using countP_free hk (f := Option.isSome) rfl

/-- What happens to a packet that has waited for too long. -/
def expiring (drop : Bool) (x : Pending) (confidence : Confidence) (now : ℕ) : List Happening :=
  (if drop then [.dropped x.packet confidence] else []) ++ [.expired x.packet x.arrival now]

/-- A packet that waited too long leaves its place. -/
theorem Kept.expire (h : Kept r) {k now : ℕ} {x : Pending} (hk : r.waiting[k]? = some (some x))
    (hlong : x.arrival + longestWait ≤ now) (confidence : Confidence) :
    Kept ((r.emit (expiring r.binding.drop x confidence now)).clear k) := by
  refine h.free hk (r.waitingCount - 1) (fun p => ?_) (fun e he => ?_) fun p => ?_
  · cases r.binding.drop <;>
      simp [expiring, atOnce, accepts, later, expires, discards, List.countP_cons]
  · rcases List.mem_append.mp he with he | he
    · split at he
      · obtain rfl := List.mem_singleton.mp he
        trivial
      · simp at he
    · obtain rfl := List.mem_singleton.mp he
      exact ⟨hlong, x.sample, h.isAccepted hk⟩
  · cases r.binding.drop <;> simp [expiring, drops, expires, List.countP_cons]

/-- The packet in a slot is delivered. -/
theorem Kept.deliver (h : Kept r) {k now : ℕ} {x : Pending} (hk : r.waiting[k]? = some (some x))
    (hdeliverable : deliverable (r.history.resolve x.sample now)) :
    Kept ((r.emit [.delivered x.packet true x.sample now (r.history.resolve x.sample now)
      r.history]).clear k) := by
  refine h.free hk (r.waitingCount - 1) (fun p => ?_) (fun e he => ?_) fun p => ?_
  · simp [atOnce, accepts, later, expires, discards, List.countP_cons]
  · obtain rfl := List.mem_singleton.mp he
    exact ⟨⟨x.arrival, h.isAccepted hk⟩,
      ⟨fun _ => ⟨rfl, by simpa [deliverable] using hdeliverable⟩⟩⟩
  · simp [drops, expires]

theorem clear_count (h : r.waitingCount = r.held) {k : ℕ} {x : Pending}
    (hk : r.waiting[k]? = some (some x)) (es : List Happening) :
    ((r.emit es).clear k).waitingCount = ((r.emit es).clear k).held := by
  have hfree := held_free hk
  simp only [clear, emit, releaseLocal, held] at h hfree ⊢
  omega

/-- A visit of a packet leaves the outcomes settled. -/
theorem visit_settled (h : Settled r) (now k : ℕ) : Settled (visit now r k) := by
  unfold visit
  split
  next x hk =>
    by_cases hlong : now ≥ x.arrival ∧ now - x.arrival ≥ longestWait
    · rw [if_pos hlong]
      exact ⟨h.toKept.expire hk (by omega) _, clear_count h.count hk _⟩
    · rw [if_neg hlong]
      split
      next hdeliverable => exact ⟨h.toKept.deliver hk hdeliverable, clear_count h.count hk _⟩
      next => exact h
  next => exact h

theorem progress_settled (h : Settled r) (now : ℕ) : Settled (r.progress now) := by
  have hloop : ∀ l : List ℕ, ∀ r, Settled r → Settled (l.foldl (visit now) r) := by
    intro l
    induction l with
    | nil => exact fun r h => h
    | cons k rest ih => exact fun r h => ih _ (visit_settled h now k)
  have hvisited := hloop (List.range r.waiting.length) r h
  exact ⟨hvisited.toKept.congr rfl rfl rfl rfl rfl le_rfl, hvisited.count⟩

theorem discard_kept (h : Kept r) (k : ℕ) : Kept (discard r k) := by
  unfold discard
  split
  next x hk =>
    refine h.free hk r.waitingCount (fun p => ?_) (fun e he => ?_) fun p => ?_
    · simp [atOnce, accepts, later, expires, discards, List.countP_cons]
    · obtain rfl := List.mem_singleton.mp he
      trivial
    · simp [drops, expires]
  next => exact h

/-- The loop of `detach` frees every slot, and changes only what `discard` changes. -/
theorem discard_waiting (k : ℕ) : (discard r k).waiting = r.waiting.set k none := by
  unfold discard
  split
  · rfl
  next hnone =>
    rcases hk : r.waiting[k]? with _ | _ | x
    · rw [List.set_eq_of_length_le (List.getElem?_eq_none_iff.mp hk)]
    · obtain ⟨hlt, hget⟩ := List.getElem?_eq_some_iff.mp hk
      conv_rhs => rw [← hget]
      rw [List.set_getElem_self]
    · exact absurd hk (hnone x)

/-- The packets that are discarded leave their places. -/
theorem discards_waiting (l : List ℕ) (r : ContextReceiver) (k : ℕ) :
    (l.foldl discard r).waiting[k]? =
      if k ∈ l then r.waiting[k]?.map fun _ => none else r.waiting[k]? := by
  induction l generalizing r with
  | nil => simp
  | cons i rest ih =>
    rw [List.foldl_cons, ih, discard_waiting, List.getElem?_set]
    by_cases hik : i = k
    · subst hik
      by_cases hlt : i < r.waiting.length
      · simp [hlt]
      · simp [hlt]
    · simp [hik, Ne.symm hik]

theorem discards_kept (l : List ℕ) (h : Kept r) : Kept (l.foldl discard r) := by
  induction l generalizing r with
  | nil => exact h
  | cons k rest ih => exact ih (discard_kept h k)

/-- A detachment leaves nothing parked. -/
theorem detach_settled (h : Settled r) (generation : ℕ) (epoch : Tsi) (reference : Option UInt32) :
    Settled (r.detach generation epoch reference).2 := by
  unfold detach
  split
  · exact h
  next history _ =>
    have hkept : Kept { r with history } := h.toKept.congr rfl rfl rfl rfl rfl le_rfl
    have hdiscarded := discards_kept (List.range r.waiting.length) hkept
    refine ⟨hdiscarded.congr rfl rfl rfl rfl rfl le_rfl, ?_⟩
    rw [held, eq_comm, List.countP_eq_zero]
    intro slot hslot
    obtain ⟨k, hk⟩ := List.mem_iff_getElem?.mp hslot
    rw [discards_waiting] at hk
    split at hk
    · obtain ⟨_, -, rfl⟩ := Option.map_eq_some_iff.mp hk
      simp
    next hout =>
      have hlt := (List.getElem?_eq_some_iff.mp hk).1
      exact absurd (List.mem_range.mpr hlt) hout

/-! ## Runs -/

/-- Every call leaves the outcomes settled. -/
theorem step_settled (n : ℕ) (h : Settled r) (input : Input) : Settled (step n r input) := by
  cases input with
  | receiveData fragments globalFree sample generation now =>
    exact (receiveData_handled h.toKept fragments globalFree sample generation now).kept h
  | receiveContext packet generation now full =>
    simp only [step, receiveContext]
    split
    · exact h
    next history _ =>
      have hreceived : Settled { r with history } :=
        ⟨h.toKept.congr rfl rfl rfl rfl rfl le_rfl, h.count⟩
      exact progress_settled hreceived now
  | progress now => exact progress_settled h now
  | detach generation epoch reference => exact detach_settled h generation epoch reference

theorem Reachable.settled {n : ℕ} (h : Reachable n r) : Settled r := by
  obtain ⟨m, binding, generation, epoch, allowUnknown, reference, fixedFormat, profile, inputs, rfl⟩ :=
    h
  have hrun : ∀ r, Settled r → Settled (inputs.foldl (step n) r) := by
    induction inputs with
    | nil => exact fun r h => h
    | cons input rest ih => exact fun r h => ih _ (step_settled n h input)
  refine hrun _ ⟨.new m binding generation epoch allowUnknown reference fixedFormat profile, ?_⟩
  simp [initial, held, List.countP_replicate]

theorem accepts_of_mem {p : ℕ} {sample : ProtocolTime} {now : ℕ}
    (h : .accepted p sample now ∈ r.log) : 0 < r.log.countP (accepts p) :=
  List.countP_pos_iff.mpr ⟨_, h, by simp [accepts]⟩

/-- In every run each accepted packet is delivered at once, waits, is delivered later, expires or is
discarded, and only one of these; no other packet is delivered, expires or is discarded. -/
theorem data_settled_once {n : ℕ} (h : Reachable n r) :
    (r.waitingCount = r.held ∧ r.localQuota.active = r.held) ∧
    (∀ p sample now, .accepted p sample now ∈ r.log → fates p r = 1) ∧
    (∀ p, (∀ sample now, .accepted p sample now ∉ r.log) → fates p r = 0) ∧
    (∀ p retained sample now metadata history,
      .delivered p retained sample now metadata history ∈ r.log →
        (∃ arrival, .accepted p sample arrival ∈ r.log) ∧
        (r.allowUnknown = false → metadata = history.resolve sample now ∧
          metadata.confidence = .known ∧ metadata.validData = true)) ∧
    (∀ p arrival now, .expired p arrival now ∈ r.log →
      arrival + longestWait ≤ now ∧ ∃ sample, .accepted p sample arrival ∈ r.log) ∧
    ∀ p, r.log.countP (drops p) = if r.binding.drop then r.log.countP (expires p) else 0 := by
  have hsettled := h.settled
  refine ⟨⟨hsettled.count, hsettled.quota⟩, fun p sample now haccepted => ?_, fun p hno => ?_,
    fun p retained sample now metadata history hdelivered => ?_,
    fun p arrival now hexpired => hsettled.told _ hexpired, hsettled.dropped⟩
  · have honce := hsettled.once p
    have hpos := accepts_of_mem haccepted
    have hfates := hsettled.fates p
    omega
  · rw [hsettled.fates p, List.countP_eq_zero]
    intro e he haccepts
    cases e with
    | accepted q sample now =>
      obtain rfl : q = p := by simpa [accepts] using haccepts
      exact hno sample now he
    | _ => simp [accepts] at haccepts
  · obtain ⟨haccepted, hjustified⟩ := hsettled.told _ hdelivered
    exact ⟨haccepted, fun hknown => hjustified.known (by simp [hknown])⟩

/-- Data without metadata, which wait for 10 ms. -/
def overdue (drop : Bool) : ContextReceiver :=
  [.receiveData 1 true { seconds := 1 } 1 0, .progress longestWait].foldl (step 1)
    (initial 1 { drop } 1 .none false none none .generatorV1)

theorem overdue_reachable (drop : Bool) : Reachable 1 (overdue drop) :=
  ⟨1, { drop }, 1, .none, false, none, none, .generatorV1, _, rfl⟩

theorem overdue_log : (overdue false).log =
    [.accepted 0 { seconds := 1 } 0, .expired 0 0 longestWait] := rfl

theorem data_settled_once_dropped :
    fates 0 (overdue true) = 1 ∧ (overdue true).log.countP (drops 0) = 1 := by
  have haccepted : .accepted 0 { seconds := 1 } 0 ∈ (overdue true).log := List.mem_cons_self
  obtain ⟨-, hfates, -, -, -, hdropped⟩ := data_settled_once (overdue_reachable true)
  refine ⟨hfates 0 { seconds := 1 } 0 haccepted, ?_⟩
  rw [hdropped]
  rfl

/-- Without a callback `drop` nothing is told of a packet that has waited for too long. -/
theorem overdue_unreported : ¬∀ (n : ℕ) (r : ContextReceiver) (p : ℕ) (sample : ProtocolTime) (now : ℕ),
    Reachable n r → .accepted p sample now ∈ r.log →
      r.log.countP (atOnce p) + r.waiting.countP (holds p) + r.log.countP (later p) +
        r.log.countP (drops p) + r.log.countP (discards p) = 1 := by
  intro h
  have hone := h 1 (overdue false) 0 { seconds := 1 } 0 (overdue_reachable false)
    (by rw [overdue_log]; exact List.mem_cons_self)
  have hwaiting : (overdue false).waiting = [none] := rfl
  rw [overdue_log, hwaiting] at hone
  exact absurd hone (by decide)

end Vita.Context.ContextReceiver
