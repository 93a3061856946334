import Vita.Transaction.Lane
import Vita.Transaction.Manager
import Vita.Transaction.RetentionTheorems

/-!
# Rising message ids

A receiver that wants rising ids keeps the highest id of the commands that it gave to the engine. Only
`accept` writes it, and only to raise it.

Main result: `once_by_id`, a command is given to the engine once, also when its record is gone.
-/

namespace Vita.Transaction.Manager

open Checked Timing State Codec RetentionStore

variable {σ : Type} {c : ManagerConfig σ} {m : Manager σ}

/-! ## Message ids -/

theorem highwaterId_of_store {α : Type} {f : RetentionStore → α × RetentionStore} {a : α} {m' : Manager σ}
    (h : m.store f = (a, m')) : m'.highwaterId = m.highwaterId :=
  (congrArg (fun x => x.2.highwaterId) h).symm

theorem highwaterId_of_call {α : Type} {f : Engine σ → α × Engine σ} {a : α} {m' : Manager σ}
    (h : m.call f = (a, m')) : m'.highwaterId = m.highwaterId :=
  (congrArg (fun x => x.2.highwaterId) h).symm

theorem storeResponses_highwaterId (t : RetentionToken) (responses : List AckRecord) (m : Manager σ) :
    (storeResponses c t responses m).2.highwaterId = m.highwaterId := by
  induction responses generalizing m with
  | nil => rfl
  | cons ack rest ih =>
    rw [storeResponses]
    split
    · next e m' hm => exact highwaterId_of_store hm
    · next m' hm => exact (ih m').trans (highwaterId_of_store hm)

/-- The answers of a cancellation leave the mark. -/
theorem storeCancel_highwaterId (t : RetentionToken) (responses : List AckRecord) (now : ManagerContext)
    (m : Manager σ) : (storeCancel c t responses now m).2.highwaterId = m.highwaterId := by
  have hstored := storeResponses_highwaterId (c := c) t responses m
  unfold storeCancel
  split
  · next e m' hm => rw [← hstored, hm]
  · next m' hm =>
    have hm' : m'.highwaterId = m.highwaterId := by rw [← hstored, hm]
    split
    · next e m'' hcomplete => exact (highwaterId_of_store hcomplete).trans hm'
    · next m'' hcomplete => exact (highwaterId_of_store hcomplete).trans hm'

theorem answerCancel_highwaterId (packet : PacketView) (selected : Fin 8 → Bool) (handle : Option Handle)
    (pending : PendingCancel) (now : ManagerContext) (m : Manager σ) :
    (answerCancel c packet selected handle pending now m).2.highwaterId = m.highwaterId := by
  unfold answerCancel
  dsimp only
  split <;> rfl

/-- A cancellation that is finished does not move the mark. -/
theorem finishCancel_highwaterId (j : ℕ) (pending : PendingCancel) (now : ManagerContext) (m : Manager σ) :
    (finishCancel c j pending now m).2.highwaterId = m.highwaterId := by
  unfold finishCancel
  split
  · rfl
  · next packet selected handle _ =>
    dsimp only
    generalize hspent : ({ pending with credits := none } : PendingCancel) = spent
    have hanswer := answerCancel_highwaterId (c := c) packet selected handle pending now
      { m with cancellations := Function.update m.cancellations j (some spent) }
    generalize answerCancel c packet selected handle pending now
      { m with cancellations := Function.update m.cancellations j (some spent) } = x at hanswer
    obtain ⟨r, m'⟩ := x
    cases r with
    | error e => exact hanswer
    | ok result =>
      have hstored := storeCancel_highwaterId (c := c) pending.token result.responses now m'
      exact hstored.trans hanswer

/-- Nor does one that is served. -/
theorem serveCancellation_highwaterId (now : ManagerContext) (j : ℕ) (m : Manager σ) :
    (serveCancellation c now j m).2.highwaterId = m.highwaterId := by
  unfold serveCancellation
  split
  · rfl
  · next pending _ =>
    split
    · rfl
    · next packet _ =>
      dsimp only
      split
      · rfl
      · generalize hp : remap (Words.bits (camOf packet) 12 3) m.quiescing now pending = pending'
        have hfinish := finishCancel_highwaterId (c := c) j pending' now
          { m with cancellations := Function.update m.cancellations j (some pending') }
        generalize finishCancel c j pending' now
          { m with cancellations := Function.update m.cancellations j (some pending') } = x at hfinish
        obtain ⟨r, m'⟩ := x
        cases r with
        | error e => exact hfinish
        | ok _ => exact hfinish

/-- Answers that are moved to the store leave the mark. -/
theorem drain_highwaterId (a : Active) (rounds : ℕ) (m : Manager σ) :
    (drain c a rounds m).2.highwaterId = m.highwaterId := by
  induction rounds generalizing m with
  | zero => rfl
  | succ rounds ih =>
    rw [drain]
    split
    · next e m' hm => exact highwaterId_of_call hm
    · next m' hm => exact highwaterId_of_call hm
    · next ack m' hm =>
      have hm' := highwaterId_of_call hm
      split
      · next e m'' happend => exact (highwaterId_of_store happend).trans hm'
      · next m'' happend => exact (ih m'').trans ((highwaterId_of_store happend).trans hm')

theorem retire_highwaterId (k : ℕ) (a : Active) (now : ManagerContext) (m : Manager σ) :
    (retire c k a now m).2.highwaterId = m.highwaterId := by
  unfold retire
  split
  · next e m' hm => exact highwaterId_of_store hm
  · next m' hm =>
    have hm' := highwaterId_of_store hm
    split
    · next e m'' hrelease => exact (highwaterId_of_call hrelease).trans hm'
    · next m'' hrelease => exact (highwaterId_of_call hrelease).trans hm'

/-- The service of a transaction leaves the mark. -/
theorem serveActive_highwaterId (now : ManagerContext) (k : ℕ) (m : Manager σ) :
    (serveActive c now k m).2.highwaterId = m.highwaterId := by
  unfold serveActive
  split
  · rfl
  · next a _ =>
    have hdrain := drain_highwaterId (c := c) a ((m.engine.slots a.handle.slot).responses.length + 1) m
    split
    · next e m' hm => rw [← hdrain, hm]
    · next m' hm =>
      have hm' : m'.highwaterId = m.highwaterId := by rw [← hdrain, hm]
      split
      · exact hm'
      · exact hm'
      · rw [retire_highwaterId, hm']

/-- A loop leaves the mark if its rounds do. -/
theorem serve_highwaterId {f : ℕ → Manager σ → Result Unit × Manager σ}
    (hf : ∀ i m, (f i m).2.highwaterId = m.highwaterId) (indices : List ℕ) (m : Manager σ) :
    (serve f indices m).2.highwaterId = m.highwaterId := by
  induction indices generalizing m with
  | nil => rfl
  | cons i rest ih =>
    have hround := hf i m
    rw [serve]
    generalize f i m = x at hround
    obtain ⟨r, m'⟩ := x
    cases r with
    | error e => exact hround
    | ok _ => exact (ih m').trans hround

/-- A turn leaves the mark. -/
theorem progress_highwaterId (now : ManagerContext) (m : Manager σ) :
    (progress c now m).2.highwaterId = m.highwaterId := by
  have hcancel := serve_highwaterId (f := serveCancellation c now)
    (serveCancellation_highwaterId now) (List.range c.cancelSlots) m
  unfold progress
  generalize serve (serveCancellation c now) (List.range c.cancelSlots) m = x at hcancel
  obtain ⟨r, m'⟩ := x
  cases r with
  | error e => exact hcancel
  | ok _ =>
    dsimp only at hcancel ⊢
    split
    · next e m'' hm => exact (highwaterId_of_call hm).trans hcancel
    · next m'' hm =>
      have hm'' := (highwaterId_of_call hm).trans hcancel
      have hactive := serve_highwaterId (f := serveActive c now) (serveActive_highwaterId now)
        (List.range c.engine.transactions) m''
      split
      · next e m₃ hserve => rw [← hm'', ← hactive, hserve]
      · next m₃ hserve =>
        rw [← hm'', ← hactive, hserve]
        rfl

/-- A packet is answered with the record that is stored for its key. -/
def Retained (c : ManagerConfig σ) (key : TransactionKey) (m : Manager σ) (a : RetentionAdmission) : Prop :=
  a.kind ≠ .fresh ∧ ∃ i, findKey c.entries key m.retention = some i ∧
    a.token = { slot := i, generation := (m.retention.entries i).generation, cancellation := false }

/-- What is replayed is the record that is stored for the key. -/
theorem replayExisting_eq_ok {n : ℕ} {key : TransactionKey} {packet : PacketView} {s : RetentionStore}
    {a : RetentionAdmission} (h : (RetentionStore.replayExisting n key packet s).1 = .ok a) :
    ∃ i, findKey n key s = some i ∧ a = admissionOf i packet.envelope.envelope.cancel s := by
  unfold RetentionStore.replayExisting at h
  dsimp only at h
  split at h
  · cases h
  · split at h
    · cases h
    · next i hi =>
      split at h
      · cases h
      · split at h
        · cases h
        · split at h
          · cases h
          · exact ⟨i, hi, (Except.ok.inj h).symm⟩

/-- What is there already is not new. -/
theorem replayExisting_kind {n : ℕ} {key : TransactionKey} {packet : PacketView} {s : RetentionStore}
    {a : RetentionAdmission} (h : (RetentionStore.replayExisting n key packet s).1 = .ok a) :
    a.kind ≠ .fresh := by
  obtain ⟨i, -, rfl⟩ := replayExisting_eq_ok h
  simp only [admissionOf]
  split <;> simp

theorem retained_of_replay {key : TransactionKey} {packet : PacketView} {a : RetentionAdmission}
    (hcommand : packet.envelope.envelope.cancel = false)
    (h : (m.store (RetentionStore.replayExisting c.entries key packet)).1 = .ok a) :
    Retained c key m a := by
  obtain ⟨i, hi, ha⟩ := replayExisting_eq_ok h
  refine ⟨replayExisting_kind h, i, hi, ?_⟩
  rw [ha, hcommand]
  rfl

/-- Only a new command has a new id. -/
theorem acceptCommand_highwaterId (hids : c.monotonicIds = true) (reserved : RetentionAdmission)
    (messageId : UInt32) (packet : PacketView) (now : ManagerContext) (m : Manager σ) :
    (∃ e, (acceptCommand c reserved messageId packet now m).1 = .error e ∧
      (acceptCommand c reserved messageId packet now m).2.highwaterId = m.highwaterId) ∨
    (acceptCommand c reserved messageId packet now m).2.highwaterId = messageId := by
  unfold acceptCommand
  split
  · exact .inl ⟨_, rfl, rfl⟩
  · split
    · next e m' hm =>
      have hm' := highwaterId_of_call hm
      exact .inl ⟨e, rfl, hm'⟩
    · refine .inr ?_
      dsimp only
      rw [if_pos hids]

theorem acceptCancel_highwaterId (reserved : RetentionAdmission) (packet : PacketView) (now : ManagerContext)
    (m : Manager σ) : (acceptCancel c reserved packet now m).2.highwaterId = m.highwaterId := by
  unfold acceptCancel
  split
  · rfl
  · split
    · rfl
    · split <;> rfl

/-- A fresh command raises the mark to its identifier. -/
theorem accept_highwaterId (hids : c.monotonicIds = true) (packet : PacketView) (now : ManagerContext)
    (peer : PeerSession) (m : Manager σ) :
    m.highwaterId ≤ (accept c packet now peer m).2.highwaterId ∧
      ∀ a key, (accept c packet now peer m).1 = .ok a → a.kind = .fresh →
        packet.envelope.envelope.cancel = false →
        transactionKey packet now.associationGeneration peer = .ok key →
        (accept c packet now peer m).2.highwaterId = key.messageId := by
  unfold accept
  split
  · exact ⟨UInt32.le_refl _, by simp⟩
  · split
    · exact ⟨UInt32.le_refl _, by simp⟩
    · next key hkey =>
      dsimp only
      split
      · refine ⟨UInt32.le_refl _, fun a key' ha hfresh => ?_⟩
        exact absurd hfresh (replayExisting_kind ha)
      · split
        · exact ⟨UInt32.le_refl _, by simp⟩
        · split
          · refine ⟨UInt32.le_refl _, fun a key' ha hfresh => ?_⟩
            exact absurd hfresh (replayExisting_kind ha)
          · next hnew =>
            split
            · next e m' hm =>
              exact ⟨UInt32.le_of_eq (highwaterId_of_store hm).symm, by simp⟩
            · next reserved m' hm =>
              have hm' : m'.highwaterId = m.highwaterId := highwaterId_of_store hm
              split
              · next hkind =>
                refine ⟨UInt32.le_of_eq hm'.symm, fun a key' ha hfresh => ?_⟩
                obtain rfl := Except.ok.inj ha
                exact absurd hfresh hkind
              · split
                · next hcancel =>
                  rw [acceptCancel_highwaterId, hm']
                  refine ⟨UInt32.le_refl _, fun a key' _ _ hcommand => ?_⟩
                  rw [hcancel] at hcommand
                  cases hcommand
                · next hcommand =>
                  have hlt : m.highwaterId < key.messageId := by
                    simpa [hids, hcommand] using hnew
                  rcases acceptCommand_highwaterId (c := c) hids reserved key.messageId packet now m' with
                    ⟨e, he, hsame⟩ | hset
                  · rw [hsame, hm', he]
                    exact ⟨UInt32.le_refl _, by simp⟩
                  · rw [hset]
                    refine ⟨UInt32.le_of_lt hlt, fun a key' _ _ _ hkey' => ?_⟩
                    rw [Except.ok.inj (hkey.symm.trans hkey')]

/-- An old command is not given to the engine. -/
theorem accept_old (hids : c.monotonicIds = true) {packet : PacketView} {now : ManagerContext}
    {peer : PeerSession} {key : TransactionKey} (hcommand : packet.envelope.envelope.cancel = false)
    (hkey : transactionKey packet now.associationGeneration peer = .ok key)
    (hold : key.messageId ≤ m.highwaterId) :
    (∃ pool, (accept c packet now peer m).2.engine = { m.engine with pool }) ∧
      ∀ a, (accept c packet now peer m).1 = .ok a → Retained c key m a := by
  have hreplay : ∀ a, (m.store (RetentionStore.replayExisting c.entries key packet)).1 = .ok a →
      Retained c key m a := fun a => retained_of_replay hcommand
  unfold accept
  rw [hkey, hcommand]
  split
  · exact ⟨⟨m.engine.pool, rfl⟩, by simp⟩
  · dsimp only
    split
    · exact ⟨⟨_, rfl⟩, hreplay⟩
    · split
      · exact ⟨⟨m.engine.pool, rfl⟩, by simp⟩
      · rw [if_pos ⟨hids, by simp, hold⟩]
        exact ⟨⟨_, rfl⟩, hreplay⟩

namespace System

/-- The mark never falls. -/
theorem step_highwaterId (hids : c.monotonicIds = true) (w : System σ) (input : Input σ) :
    w.manager.highwaterId ≤ (step c w input).manager.highwaterId := by
  cases input with
  | accept packet now peer =>
    have hle := (accept_highwaterId hids packet now peer w.manager).1
    rw [step]
    generalize accept c packet now peer w.manager = x at hle ⊢
    obtain ⟨r, m⟩ := x
    cases r with
    | error e => exact hle
    | ok a => exact hle
  | progress now => exact UInt32.le_of_eq (progress_highwaterId now w.manager).symm
  | requestQuiesce now =>
    refine UInt32.le_of_eq (Eq.symm ?_)
    show (Manager.requestQuiesce c now w.manager).2.highwaterId = w.manager.highwaterId
    unfold Manager.requestQuiesce
    split
    · rfl
    · split
      · next e m hm =>
        have hm' := highwaterId_of_call hm
        exact hm'
      · next m hm =>
        have hm' := highwaterId_of_call hm
        rw [progress_highwaterId]
        exact hm'
  | closeAdmission => exact UInt32.le_refl _
  | resetAfterDrain =>
    refine UInt32.le_of_eq (Eq.symm ?_)
    show (Manager.resetAfterDrain c w.manager).2.highwaterId = w.manager.highwaterId
    unfold Manager.resetAfterDrain
    split
    · rfl
    · dsimp only
      split <;> rfl
  | release r =>
    rw [step]
    split
    · exact UInt32.le_refl _
    · split
      · next m hm => exact UInt32.le_of_eq (highwaterId_of_store hm).symm
      · next e m hm => exact UInt32.le_of_eq (highwaterId_of_store hm).symm
  | resetState confirmed generation => exact UInt32.le_refl _
  | backend ext actions => exact UInt32.le_refl _
  | credits pool => exact UInt32.le_refl _
  | records retention => exact UInt32.le_refl _
  | timeline t => exact UInt32.le_refl _

theorem run_highwaterId (hids : c.monotonicIds = true) (w : System σ) (inputs : List (Input σ)) :
    w.manager.highwaterId ≤ (run c w inputs).manager.highwaterId :=
  List.foldlRecOn inputs (step c) (motive := fun w' => w.manager.highwaterId ≤ w'.manager.highwaterId)
    (UInt32.le_refl _) fun w' hle input _ => UInt32.le_trans hle (step_highwaterId hids w' input)

/-- Where ids rise, no command is given to the engine twice, also when its record is gone, and whatever
others do to the store: after a command was admitted, a packet with its message id or an earlier one is
never admitted as a new command, and gets the record that is stored for its key, if it gets anything. -/
theorem once_by_id (hids : c.monotonicIds = true) (w : System σ) (packet : PacketView) (now : ManagerContext)
    (peer : PeerSession) (a : RetentionAdmission) (key : TransactionKey)
    (haccept : (accept c packet now peer w.manager).1 = .ok a) (hfresh : a.kind = .fresh)
    (hcommand : packet.envelope.envelope.cancel = false)
    (hkey : transactionKey packet now.associationGeneration peer = .ok key) (inputs : List (Input σ)) :
    w.manager.highwaterId ≤ key.messageId ∧
    let w' := run c (step c w (.accept packet now peer)) inputs
    ∀ packet' now' peer' key', packet'.envelope.envelope.cancel = false →
      transactionKey packet' now'.associationGeneration peer' = .ok key' → key'.messageId ≤ key.messageId →
      (∃ pool, (accept c packet' now' peer' w'.manager).2.engine = { w'.manager.engine with pool }) ∧
        ∀ a', (accept c packet' now' peer' w'.manager).1 = .ok a' → Retained c key' w'.manager a' := by
  obtain ⟨hle, hset⟩ := accept_highwaterId hids packet now peer w.manager
  have hid := hset a key haccept hfresh hcommand hkey
  have hstep : (step c w (.accept packet now peer)).manager.highwaterId = key.messageId := by
    rw [← hid, step]
    generalize accept c packet now peer w.manager = x
    obtain ⟨r, m⟩ := x
    cases r with
    | error e => rfl
    | ok a => rfl
  refine ⟨by rw [← hid]; exact hle, ?_⟩
  intro w' packet' now' peer' key' hcommand' hkey' hold
  refine accept_old hids hcommand' hkey' (UInt32.le_trans hold ?_)
  rw [← hstep]
  exact run_highwaterId hids _ inputs

namespace Bench

/-- A manager whose backend begins effects and completes them later, and a store with a small layout. -/
def config : ManagerConfig Unit where
  engine := { Engine.Bench.config with externalRetention := true }
  layout := twoBytes
  entries := 3
  bytes := 64
  cancelSlots := 1

def start : System Unit := initial () { capacities := fun _ => 100000 } {} none

/-- A command that asks for the acknowledgement of its execution. -/
def command : PacketView :=
  let packet := Engine.Bench.command 1 0x01080000 {} [(Field.referencePoint, 1)]
  { packet with envelope := { packet.envelope with wire := [0x60, 0x12, 0, 1] } }

def peer : PeerSession := { peer := 1, generation := 1 }

/-- A time in seconds, for the retention in nanoseconds. -/
def now (seconds : ℕ) : ManagerContext :=
  { Engine.Bench.now seconds [] with associationGeneration := 1, monotonic := seconds * 1000000000 }

/-- The command is begun and completed. -/
def completion : List (Input Unit) :=
  [.progress (now 2),
    .backend ()
      [.claim { publisher := { slot := 0, generation := 1 }, index := 0 }
        { id := Field.referencePoint, status := .executed, validity := .known, value := .word 1 }, .write 0],
    .progress (now 3), .progress (now 4)]

def token : RetentionToken := { slot := 0, generation := 1, cancellation := false }

/-- The manager with rising ids. -/
def rising : ManagerConfig Unit := { config with monotonicIds := true }

/-- The command completes, its reference is given back, and its record expires. -/
def expiry : List (Input Unit) := completion ++ [.release 0, .progress (now 64)]

def key : TransactionKey := { bindingGeneration := 1, peer, streamId := some 1, messageId := 1 }

end Bench

open Bench in
/-- The command is sent again when its record is gone. -/
theorem once_by_id_expiry :
    let w := run rising (step rising start (.accept command (now 1) peer)) expiry
    findKey rising.entries key w.manager.retention = none ∧
      ∀ a, (accept rising command (now 65) peer w.manager).1 = .ok a → a.kind ≠ .fresh := by
  have hfresh : (accept rising command (now 1) peer start.manager).1 = .ok { token, kind := .fresh } := by
    decide +kernel
  have hgone : findKey rising.entries key
      (run rising (step rising start (.accept command (now 1) peer)) expiry).manager.retention = none := by
    decide +kernel
  have hkey : transactionKey command (now 65).associationGeneration peer = .ok key := rfl
  have honce := once_by_id (c := rising) rfl start command (now 1) peer { token, kind := .fresh } key hfresh rfl
    rfl hkey expiry
  exact ⟨hgone, fun a ha => ((honce.2 command (now 65) peer key rfl hkey (UInt32.le_refl _)).2 a ha).1⟩

end System

end Vita.Transaction.Manager
