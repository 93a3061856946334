import Vita.Transaction.Retention

/-!
# The transaction manager (`transaction/manager.hpp`)

The manager puts a retention store before the engine: a command is reserved in the store, admitted to the
engine, and its answers are moved from the engine to the store. A cancellation waits in the manager until
its time and is answered from there. The store and the engine draw on one admission pool, which is kept
in the engine here and handed to the store for each call. Other managers and the runtime itself use the
same store and the same pool; what they do to them is arbitrary. The calls are serialized, so
`progressing_` is left out.

Main definitions:
- `Manager.accept`, `Manager.progress`;
- `Manager.System.step`: one call of the manager or an act of its surroundings, with the references that
  the callers hold.
-/

namespace Vita.Transaction

open Checked Timing State Codec

/-- The template arguments and options of a manager and of what it works on. -/
structure ManagerConfig (σ : Type) where
  engine : Config σ
  layout : AckLayout
  entries : ℕ
  bytes : ℕ
  cancelSlots : ℕ
  monotonicIds : Bool := false

/-- `OperationContext` with the monotonic time, which the engine only traces. -/
structure ManagerContext extends OperationContext where
  monotonic : ℕ := 0

structure Active where
  token : RetentionToken
  handle : Handle

structure PendingCancel where
  token : RetentionToken
  credits : AdmissionBundle
  requested : ProtocolTime
  timing : TimingCapabilities
  associationGeneration : ℕ
  mappingGeneration : ℕ
  timingValid : Bool

structure Manager (σ : Type) where
  engine : Engine σ
  retention : RetentionStore
  active : ℕ → Option Active := fun _ => none
  cancellations : ℕ → Option PendingCancel := fun _ => none
  closed : Bool := false
  quiescing : Bool := false
  closedGeneration : ℕ := 0
  highwaterId : UInt32 := 0

namespace Engine

variable {σ : Type} (c : Config σ)

/-- `complete`: whether the transaction of a handle is complete. -/
def complete (handle : Handle) (w : Engine σ) : Result Bool :=
  let s := w.slots handle.slot
  if handle.slot ≥ c.transactions ∨ ¬s.active ∨ s.generation ≠ handle.generation then
    .error (failure .staleGeneration)
  else .ok s.complete

end Engine

namespace Manager

variable {σ : Type} (c : ManagerConfig σ)

/-- A call of the store. -/
def store {α : Type} (f : RetentionStore → α × RetentionStore) (w : Manager σ) : α × Manager σ :=
  let (a, retention) := f { w.retention with pool := w.engine.pool }
  (a, { w with retention, engine := { w.engine with pool := retention.pool } })

/-- A call of the engine. -/
def call {α : Type} (f : Engine σ → α × Engine σ) (w : Manager σ) : α × Manager σ :=
  let (a, engine) := f w.engine
  (a, { w with engine })

/-- Credits go back to the pool. -/
def reset (credits : AdmissionBundle) (w : Manager σ) : Manager σ :=
  { w with engine := { w.engine with pool := w.engine.pool.reset credits } }

/-- The token of the command of an entry. -/
def original (t : RetentionToken) : RetentionToken := { t with cancellation := false }

/-- `decode_packet` of the canonical bytes of a token. The decoder never leaves its input. -/
def decodeStored (t : RetentionToken) (w : Manager σ) : Result PacketView :=
  match w.retention.canonical c.entries t with
  | .error e => .error e
  | .ok bytes =>
    match decodePacketBounded 16 64 bytes {} with
    | .ok packet => .ok packet
    | .error (.error e) => .error e
    | .error .outside => .error (failure .invalidArgument)

/-- `cancellation_selectors`. -/
def cancellationSelectors (packet : PacketView) : Result (Fin 8 → Bool) :=
  let e := packet.envelope.envelope
  match e.command with
  | none => throw (failure .invalidArgument)
  | some command => do
    rejectIf (validateCam e command.cam ≠ .ok () ∨ ¬e.cancel ∨ e.ack ∨ packet.isOpaque)
      (failure .invalidArgument)
    Engine.selectedFields packet.fields

/-- The mask of a command packet. -/
def camOf (packet : PacketView) : UInt32 := (packet.envelope.envelope.command.map (·.cam)).getD 0

/-- `cancellation_resources`. -/
def cancellationResources (cam : UInt32) : AdmissionRequest :=
  (AdmissionRequest.none.need .cancellationQueue 1).need .cancellationResponse
    ((Words.bit cam 19).toNat + (Words.bit cam 18).toNat)

/-! ## Cancellations -/

/-- The present time is right for a cancellation. -/
def timingAllowed (mode : ℕ) (pending : PendingCancel) (now : ManagerContext) : Bool :=
  mode = 0 ∨ pending.timingValid ∧
    Engine.inWindow mode pending.requested now.clock.time now.clock.uncertaintyPs pending.timing ∧
    now.clock.usable

/-- The answer of a cancellation: from the engine, or that nothing was cancelled. -/
def answerCancel (packet : PacketView) (selected : Fin 8 → Bool) (handle : Option Handle)
    (pending : PendingCancel) (now : ManagerContext) (w : Manager σ) :
    Result Engine.CancellationResult × Manager σ :=
  let mode := Words.bits (camOf packet) 12 3
  let allowed := timingAllowed mode pending now
  match allowed, handle with
  | true, some handle =>
    w.call (Engine.cancel c.engine handle packet
      { now.toOperationContext with associationGeneration := pending.associationGeneration, timing := pending.timing }
      pending.credits)
  | _, _ =>
    (.ok (Engine.cancellationResponse packet (camOf packet) w.engine.state now.clock selected
      (fun _ => false) (fun i => { errors := if selected i then notExecuted else 0 }) pending.credits
      (if allowed then mode else 7)), w)

/-- The answers are stored, up to the first that cannot be. -/
def storeResponses (t : RetentionToken) : List AckRecord → Manager σ → Result Unit × Manager σ
  | [], w => (.ok (), w)
  | ack :: rest, w =>
    match w.store (RetentionStore.append c.layout c.entries t ack) with
    | (.error e, w) => (.error e, w)
    | (.ok _, w) => storeResponses t rest w

/-- The answers of a cancellation are stored, and the manager gives its reference back. -/
def storeCancel (t : RetentionToken) (responses : List AckRecord) (now : ManagerContext)
    (w : Manager σ) : Result Unit × Manager σ :=
  match storeResponses c t responses w with
  | (.error e, w) => (.error e, w)
  | (.ok _, w) =>
    match w.store (RetentionStore.complete c.entries t now.monotonic) with
    | (.error e, w) => (.error e, w)
    | (.ok _, w) => w.store (RetentionStore.release c.entries t)

/-- `finish_cancel` for the pending cancellation of a slot. -/
def finishCancel (j : ℕ) (pending : PendingCancel) (now : ManagerContext) (w : Manager σ) :
    Result Unit × Manager σ :=
  match (do
    let packet ← decodeStored c pending.token w
    let selected ← cancellationSelectors packet
    let handle ← w.retention.engineHandle c.entries (original pending.token)
    return (packet, selected, handle) : Result _) with
  | .error e => (.error e, w)
  | .ok (packet, selected, handle) =>
    -- the credits move into the answer
    let w := { w with
      cancellations := Function.update w.cancellations j (some { pending with credits := none }) }
    match answerCancel c packet selected handle pending now w with
    | (.error e, w) => (.error e, w)
    | (.ok result, w) =>
      let (stored, w) := storeCancel c pending.token result.responses now w
      (stored, w.reset result.credits)

/-! ## Admission -/

/-- The record of an admission that fails is given up. -/
def rollback (t : RetentionToken) (e : Error) (w : Manager σ) :
    Result RetentionAdmission × Manager σ :=
  (.error e, (w.store (RetentionStore.rollback c.entries t)).2)

/-- The first slot without an entry. -/
def freeIndex {α : Type} (n : ℕ) (slots : ℕ → Option α) : Option ℕ :=
  (List.range n).find? fun i => (slots i).isNone

/-- The record is bound, and the manager takes a reference. -/
def bindRecord (t : RetentionToken) (handle : Option Handle) (w : Manager σ) : Manager σ :=
  ((w.store (RetentionStore.bind c.entries t handle)).2.store (RetentionStore.retain c.entries t)).2

/-- The rest of `accept` for a command. -/
def acceptCommand (reserved : RetentionAdmission) (messageId : UInt32) (packet : PacketView)
    (now : ManagerContext) (w : Manager σ) : Result RetentionAdmission × Manager σ :=
  match freeIndex c.engine.transactions w.active with
  | none => rollback c reserved.token (failure .capacityExhausted) w
  | some slot =>
    match w.call (Engine.accept c.engine packet now.toOperationContext) with
    | (.error e, w) => rollback c reserved.token e w
    | (.ok handle, w) =>
      let w := bindRecord c reserved.token (some handle) w
      (.ok reserved, { w with
        active := Function.update w.active slot (some { token := reserved.token, handle })
        highwaterId := if c.monotonicIds then messageId else w.highwaterId })

/-- The boundary that stands for the requested time of a cancellation. -/
def cancelBoundary (requested : ProtocolTime) (now : ManagerContext) : Boundary :=
  { time := requested, sampleOrdinal := 0, mappingGeneration := now.clock.mappingGeneration
    committed := false, backendReady := true, quantizationUncertaintyPs := 0 }

def requestedTime (packet : PacketView) : ProtocolTime :=
  { seconds := packet.envelope.envelope.timestamp.integer.toNat
    picoseconds := packet.envelope.envelope.timestamp.fractional.toNat }

/-- The checks of a cancellation against its command. -/
def checkCancel (t : RetentionToken) (packet : PacketView) (now : ManagerContext) (w : Manager σ) :
    Result Unit := do
  let selected ← cancellationSelectors packet
  let command ← decodeStored c (original t) w
  let e := packet.envelope.envelope
  rejectIf (¬Engine.sameClass e.classId command.envelope.envelope.classId ∨
    Words.bits (camOf command) 23 2 ≠ 2) (failure .invalidArgument)
  rejectIf (∃ i ∈ List.finRange 8, selected i ∧ ∀ view ∈ command.fields, view.id ≠ stateField i)
    (failure .invalidArgument)
  let mode := Words.bits (camOf packet) 12 3
  if mode ≠ 0 then
    rejectIf (e.timestamp.tsi ≠ epochTsi now.clock.epoch ∨ e.timestamp.tsf ≠ .picoseconds ∨
      ¬now.timing.injected ∧ ¬now.timing.qualified) (failure .unsupportedCapability)
    let _ ← chooseBoundary mode (requestedTime packet) now.clock
      [cancelBoundary (requestedTime packet) now] now.timing

/-- The rest of `accept` for a cancellation. -/
def acceptCancel (reserved : RetentionAdmission) (packet : PacketView) (now : ManagerContext)
    (w : Manager σ) : Result RetentionAdmission × Manager σ :=
  match checkCancel c reserved.token packet now w with
  | .error e => rollback c reserved.token e w
  | .ok _ =>
    match freeIndex c.cancelSlots w.cancellations with
    | none => rollback c reserved.token (failure .capacityExhausted) w
    | some slot =>
      match w.engine.pool.acquire (cancellationResources (camOf packet)) with
      | .error e => rollback c reserved.token e w
      | .ok (credits, pool) =>
        let w := bindRecord c reserved.token none { w with engine := { w.engine with pool } }
        (.ok reserved, { w with
          cancellations := Function.update w.cancellations slot (some
            { token := reserved.token, credits, requested := requestedTime packet, timing := now.timing
              associationGeneration := now.associationGeneration
              mappingGeneration := now.clock.mappingGeneration, timingValid := true }) })

def accept (packet : PacketView) (now : ManagerContext) (peer : PeerSession) (w : Manager σ) :
    Result RetentionAdmission × Manager σ :=
  if ¬c.engine.externalRetention then (.error (failure .invalidState), w)
  else match transactionKey packet now.associationGeneration peer with
    | .error e => (.error e, w)
    | .ok key =>
      let cancellation := packet.envelope.envelope.cancel
      if w.closed then w.store (RetentionStore.replayExisting c.entries key packet)
      else if c.monotonicIds ∧ key.messageId = 0 then (.error (failure .invalidArgument), w)
      else if c.monotonicIds ∧ ¬cancellation ∧ key.messageId ≤ w.highwaterId then
        w.store (RetentionStore.replayExisting c.entries key packet)
      else
        match w.store (RetentionStore.reserve c.layout c.entries c.bytes key packet
            (if cancellation then 2 else 3)) with
        | (.error e, w) => (.error e, w)
        | (.ok reserved, w) =>
          if reserved.kind ≠ .fresh then (.ok reserved, w)
          else if cancellation then acceptCancel c reserved packet now w
          else acceptCommand c reserved key.messageId packet now w

/-! ## Progress -/

/-- A pending cancellation whose clock was mapped anew is scheduled again. -/
def remap (mode : ℕ) (quiescing : Bool) (now : ManagerContext) (pending : PendingCancel) :
    PendingCancel :=
  let pending := if mode ≠ 0 ∧ pending.mappingGeneration ≠ now.clock.mappingGeneration then
      { pending with
        timingValid := (chooseBoundary mode pending.requested now.clock
          [cancelBoundary pending.requested now] pending.timing).toOption.isSome
        mappingGeneration := now.clock.mappingGeneration }
    else pending
  if quiescing then { pending with timingValid := false } else pending

/-- One slot of the loop over the cancellations. -/
def serveCancellation (now : ManagerContext) (j : ℕ) (w : Manager σ) : Result Unit × Manager σ :=
  match w.cancellations j with
  | none => (.ok (), w)
  | some pending =>
    match decodeStored c pending.token w with
    | .error e => (.error e, w)
    | .ok packet =>
      let mode := Words.bits (camOf packet) 12 3
      let pending := remap mode w.quiescing now pending
      let w := { w with cancellations := Function.update w.cancellations j (some pending) }
      if mode ≠ 0 ∧ now.clock.usable ∧ pending.timingValid ∧
          now.clock.time.before pending.requested then
        (.ok (), w)
      else match finishCancel c j pending now w with
        | (.error e, w) => (.error e, w)
        | (.ok _, w) => (.ok (), { w with cancellations := Function.update w.cancellations j none })

/-- The answers of a transaction are moved to the store, for some number of them at most. -/
def drain (a : Active) : ℕ → Manager σ → Result Unit × Manager σ
  | 0, w => (.ok (), w)
  | rounds + 1, w =>
    match w.call (Engine.takeResponse c.engine a.handle) with
    | (.error e, w) => (.error e, w)
    | (.ok none, w) => (.ok (), w)
    | (.ok (some ack), w) =>
      match w.store (RetentionStore.append c.layout c.entries a.token ack) with
      | (.error e, w) => (.error e, w)
      | (.ok _, w) => drain a rounds w

/-- A complete transaction leaves the engine. -/
def retire (k : ℕ) (a : Active) (now : ManagerContext) (w : Manager σ) : Result Unit × Manager σ :=
  match w.store (RetentionStore.complete c.entries a.token now.monotonic) with
  | (.error e, w) => (.error e, w)
  | (.ok _, w) =>
    match w.call (Engine.release c.engine a.handle) with
    | (.error e, w) => (.error e, w)
    | (.ok _, w) =>
      let w := (w.store (RetentionStore.release c.entries a.token)).2
      (.ok (), { w with active := Function.update w.active k none })

/-- One slot of the loop over the transactions. The loop over the answers ends, since each round takes
one. -/
def serveActive (now : ManagerContext) (k : ℕ) (w : Manager σ) : Result Unit × Manager σ :=
  match w.active k with
  | none => (.ok (), w)
  | some a =>
    match drain c a ((w.engine.slots a.handle.slot).responses.length + 1) w with
    | (.error e, w) => (.error e, w)
    | (.ok _, w) =>
      match Engine.complete c.engine a.handle w.engine with
      | .error e => (.error e, w)
      | .ok false => (.ok (), w)
      | .ok true => retire c k a now w

/-- A loop that ends at the first error. -/
def serve (f : ℕ → Manager σ → Result Unit × Manager σ) : List ℕ → Manager σ → Result Unit × Manager σ
  | [], w => (.ok (), w)
  | i :: rest, w =>
    match f i w with
    | (.error e, w) => (.error e, w)
    | (.ok _, w) => serve f rest w

def progress (now : ManagerContext) (w : Manager σ) : Result Unit × Manager σ :=
  match serve (serveCancellation c now) (List.range c.cancelSlots) w with
  | (.error e, w) => (.error e, w)
  | (.ok _, w) =>
    match w.call (Engine.progress c.engine now.toOperationContext) with
    | (.error e, w) => (.error e, w)
    | (.ok _, w) =>
      match serve (serveActive c now) (List.range c.engine.transactions) w with
      | (.error e, w) => (.error e, w)
      | (.ok _, w) =>
        w.store fun r => (.ok (), RetentionStore.expire c.entries now.monotonic r)

/-! ## Shutdown -/

def closeAdmission (w : Manager σ) : Manager σ :=
  { w with
    closedGeneration := if w.closed then w.closedGeneration else w.engine.associationGeneration
    closed := true }

def requestQuiesce (now : ManagerContext) (w : Manager σ) : Result Unit × Manager σ :=
  if now.associationGeneration = 0 ∨ w.engine.associationGeneration ≠ 0 ∧
      now.associationGeneration ≠ w.engine.associationGeneration then
    (.error (failure .staleGeneration), w)
  else
    match { closeAdmission w with quiescing := true }.call (Engine.requestQuiesce c.engine now.toOperationContext) with
    | (.error e, w) => (.error e, w)
    | (.ok _, w) => progress c now w

/-- `reset_after_drain`, with `drain_status`. -/
def resetAfterDrain (w : Manager σ) : Result Unit × Manager σ :=
  if (∃ k ∈ List.range c.engine.transactions, (w.active k).isSome) ∨
      (∃ j ∈ List.range c.cancelSlots, (w.cancellations j).isSome) ∨ w.engine.quiescing then
    (.error (failure .invalidState), w)
  else
    let (safe, w) := w.call (Engine.safeToReset c.engine)
    if ¬safe ∨ w.closed ∧ w.engine.associationGeneration ≤ w.closedGeneration then
      (.error (failure .invalidState), w)
    else (.ok (), { w with closed := false, quiescing := false })

/-! ## Runs -/

/-- A call of the manager, or an act of its surroundings. -/
inductive Input (σ : Type) where
  | accept (packet : PacketView) (now : ManagerContext) (peer : PeerSession)
  | progress (now : ManagerContext)
  | requestQuiesce (now : ManagerContext)
  | closeAdmission
  | resetAfterDrain
  /-- A caller gives the reference back that it was given as the `r`-th. -/
  | release (r : ℕ)
  /-- The engine is given a confirmed state. -/
  | resetState (confirmed : StateSnapshot) (generation : ℕ)
  /-- The backend changes its own state and acts on its capabilities. -/
  | backend (ext : σ) (actions : List Port.Action)
  /-- Others acquire or give back credits. -/
  | credits (pool : AdmissionPool)
  /-- Others use the store. -/
  | records (retention : RetentionStore)
  /-- The sample timeline moves. -/
  | timeline (t : SampleTimeline)

/-- A manager, and the references that its callers were given and hold. -/
structure System (σ : Type) where
  manager : Manager σ
  held : ℕ → Option RetentionToken := fun _ => none
  given : ℕ := 0

namespace System

/-- The engine does something on its own. -/
def engineStep (w : System σ) (input : Engine.Input σ) : System σ :=
  { w with manager := { w.manager with engine := Engine.step c.engine w.manager.engine input } }

/-- A reference is given to a caller. -/
def give (w : System σ) (t : RetentionToken) : System σ :=
  { w with held := Function.update w.held w.given (some t), given := w.given + 1 }

def step (w : System σ) : Input σ → System σ
  | .accept packet now peer =>
    match accept c packet now peer w.manager with
    | (.ok a, manager) => { w with manager }.give a.token
    | (.error _, manager) => { w with manager }
  | .progress now => { w with manager := (progress c now w.manager).2 }
  | .requestQuiesce now => { w with manager := (requestQuiesce c now w.manager).2 }
  | .closeAdmission => { w with manager := closeAdmission w.manager }
  | .resetAfterDrain => { w with manager := (resetAfterDrain c w.manager).2 }
  | .release r =>
    match w.held r with
    | none => w
    | some t =>
      match w.manager.store (RetentionStore.release c.entries t) with
      | (.ok _, manager) => { w with manager, held := Function.update w.held r none }
      | (.error _, manager) => { w with manager }
  | .resetState confirmed generation => engineStep c w (.resetState confirmed generation)
  | .backend ext actions => engineStep c w (.backend ext actions)
  | .credits pool => engineStep c w (.credits pool)
  | .records retention => { w with manager := { w.manager with retention } }
  | .timeline t => engineStep c w (.timeline t)

def run (w : System σ) (inputs : List (Input σ)) : System σ := inputs.foldl (step c) w

/-- A new manager over a new engine and a new store. -/
def initial (ext : σ) (pool : AdmissionPool) (state : StateSnapshot)
    (timeline : Option SampleTimeline) : System σ :=
  { manager := { engine := Engine.initial ext pool state timeline, retention := { pool } } }

end System

end Manager

end Vita.Transaction
