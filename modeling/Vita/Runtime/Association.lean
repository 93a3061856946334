import Vita.Runtime.StreamConfig
import Vita.Transaction.Controller
import Vita.Transport.Routing

/-!
# Associations (`public/runtime.hpp`, `execution/budget.hpp`)

A stream is known to the runtime by an association: the routes of its packets, the counters of the
packets it sends and its relationship in the controller's registry. An association is installed when a
stream is added, and again under a new stream identifier when a stream recovers: `recover_stream`
accepts the identifier, and a later turn of `progress` installs the association.

A bank is the memory of a stream; each stream has two, which change places when it recovers. What
`recover_stream` and the turns check beyond the registries is an answer that is given with the call, and
so are the answers of a transport's `associate`.

Main definitions:
- `installAssociation`;
- `VitaRuntime.addControllee`, `VitaRuntime.recoverStream`, `VitaRuntime.completeRecovery`;
- `VitaRuntime.step`.
-/

namespace Vita.Runtime.Association

open Checked State Codec Transport
open Transaction (TransactionKey)
open Transaction.Controller (Registry Sizes)

/-! ## The budget -/

inductive BudgetCategory where
  | rawBlocks | providers | duplicateValues | duplicateIndex | plans | transactions | revisions
  | contextHistory | queues | completion | scheduling | retention | metrics | adaptersStacks | headroom
deriving DecidableEq

def BudgetCategory.all : List BudgetCategory :=
  [.rawBlocks, .providers, .duplicateValues, .duplicateIndex, .plans, .transactions, .revisions,
    .contextHistory, .queues, .completion, .scheduling, .retention, .metrics, .adaptersStacks, .headroom]

structure BudgetRow where
  reserved : ℕ := 0
  charged : ℕ := 0

namespace BudgetRow

def room (r : BudgetRow) : ℕ := r.reserved - r.charged

end BudgetRow

def frameworkBudget : ℕ := 67108864

structure BudgetLedger where
  rows : BudgetCategory → BudgetRow := fun _ => {}

namespace BudgetLedger

def set (b : BudgetLedger) (category : BudgetCategory) (row : BudgetRow) : BudgetLedger :=
  { rows := Function.update b.rows category row }

def chargeRow (category : BudgetCategory) (bytes : ℕ) (b : BudgetLedger) : Result BudgetLedger := do
  let row := b.rows category
  rejectIf (bytes > row.room) (failure .capacityExhausted)
  return b.set category { row with charged := row.charged + bytes }

def transferUnused (source target : BudgetCategory) (bytes : ℕ) (b : BudgetLedger) :
    Result BudgetLedger := do
  rejectIf (source = target) (failure .invalidArgument)
  rejectIf (bytes > (b.rows source).room) (failure .capacityExhausted)
  rejectIf (bytes > Timing.uint64Max - (b.rows target).reserved) (failure .overflow)
  let b := b.set source { b.rows source with reserved := (b.rows source).reserved - bytes }
  return b.set target { b.rows target with reserved := (b.rows target).reserved + bytes }

def transferHeadroom (target : BudgetCategory) (bytes : ℕ) (b : BudgetLedger) :
    Result BudgetLedger := do
  rejectIf (target = .headroom) (failure .invalidArgument)
  rejectIf (bytes > (b.rows .headroom).room) (failure .capacityExhausted)
  let b := b.set .headroom { b.rows .headroom with reserved := (b.rows .headroom).reserved - bytes }
  return b.set target { b.rows target with reserved := (b.rows target).reserved + bytes }

def chargedBytes (b : BudgetLedger) : ℕ := (BudgetCategory.all.map fun c => (b.rows c).charged).sum

/-- A step of `charge` that fails leaves what the steps before it did. -/
def attempt (step : BudgetLedger → Result BudgetLedger) (b : BudgetLedger) :
    Result Unit × BudgetLedger :=
  match step b with
  | .ok b => (.ok (), b)
  | .error e => (.error e, b)

/-- One step after another, until one fails. -/
def andThen (first second : BudgetLedger → Result Unit × BudgetLedger) (b : BudgetLedger) :
    Result Unit × BudgetLedger :=
  match first b with
  | (.ok (), b) => second b
  | (.error e, b) => (.error e, b)

/-- The headroom is transferred, for scheduling also what is reserved for plans. -/
def makeRoom (category : BudgetCategory) (bytes : ℕ) (b : BudgetLedger) : Result Unit × BudgetLedger :=
  if bytes > (b.rows category).room then
    let deficit := bytes - (b.rows category).room
    let head := (b.rows .headroom).room
    andThen
      (fun b =>
        if category = .scheduling ∧ deficit > head then
          attempt (transferUnused .plans .headroom (deficit - head)) b
        else (.ok (), b))
      (attempt (transferHeadroom category deficit)) b
  else (.ok (), b)

/-- `VitaRuntime::charge`. -/
def charge (memoryLimit : ℕ) (category : BudgetCategory) (bytes : ℕ) :
    BudgetLedger → Result Unit × BudgetLedger :=
  andThen (makeRoom category bytes) <| andThen (attempt (chargeRow category bytes)) fun b =>
    if b.chargedBytes > memoryLimit then (.error (failure .capacityExhausted), b) else (.ok (), b)

end BudgetLedger

/-! ## The host -/

/-- What a runtime is created with; `create` requires the organisation's number. -/
structure Host where
  streams : ℕ
  oui : UInt32
  oui_le : oui ≤ 0xffffff
  epoch : Timing.Epoch
  isolatedLab : Bool
  memoryLimit : ℕ
  maxPacketBytes : ℕ
  payloadSupports : ℕ → Bool
  rxDataSupports : ℕ → Bool
  /-- The transport is told of associations. -/
  associates : Bool
  /-- The bytes of a stream and its arenas. -/
  streamBytes : ℕ
  /-- `Stream::request_context` of a bank. -/
  requestContext : ℕ → Envelope → Option RequestContext

/-- A `Stream`, by its address. -/
structure Bank where
  address : ℕ
  config : StreamConfig
  generation : UInt64
  installed : Bool := false

def registryCapacity : ℕ := 128

def controllerSizes : Sizes where
  records := 256
  maxCancelBytes := 512
  relationships := 64

structure Registries where
  routes : RouteRegistry := { capacity := registryCapacity }
  counters : CounterRegistry := { capacity := registryCapacity }
  controllers : Registry controllerSizes := {}

/-! ## An association -/

def shortId (value : UInt32) : Identifier := { kind := .shortId, words := ![value, 0, 0, 0] }

/-- The class identifier of the packets of a type. -/
def classId (h : Host) (config : StreamConfig) (type : PacketType) : Option ClassId :=
  if config.profile ≠ .sdrRadio ∨ type = .signal then
    some
      { oui := if config.profile = .sdrRadio then sdrUnknownOui else h.oui
        informationClass := informationClass config.profile
        packetClass :=
          if type = .signal then
            if config.profile = .sdrRadio then 0
            else if config.trailer then config.trailerPacketClass.getD 0
            else dataClass config.profile (baselinePacketClass config.format)
          else if type = .context then contextClass config.profile
          else commandClass config.profile }
  else none

/-- `envelope`, without the packet count and the timestamp. -/
def envelope (h : Host) (s : Bank) (type : PacketType) : Envelope where
  type
  streamId := some s.config.sid
  classId := classId h s.config type
  command := if type = .command then
      some { controllee := shortId s.config.controlleeId, controller := shortId s.config.controllerId }
    else none

def counter (s : Bank) (type : PacketType) (controller : Bool) : CounterKey where
  sender := if controller then s.config.controllerPeer else s.config.controlleePeer
  streamId := some s.config.sid
  type

/-- `relationship_key` of the controller's side. -/
def relationshipKey (s : Bank) : TransactionKey where
  bindingGeneration := s.generation.toNat
  peer := { peer := s.config.controlleePeer.toNat, generation := s.generation.toNat }
  streamId := some s.config.sid
  controller := shortId s.config.controllerId
  controllee := shortId s.config.controlleeId

/-- One of the four routes: commands, their answers, Context and Data. -/
def route (h : Host) (s : Bank) (type : PacketType) (controller : Bool) : Route :=
  let e := envelope h s type
  { key :=
      { source := ⟨if controller then s.config.controllerPeer else s.config.controlleePeer, s.generation⟩
        streamId := some s.config.sid
        type
        packetClass := e.classId
        controllee := e.command.elim {} Command.controllee
        controller := e.command.elim {} Command.controller }
    context := s.address
    requestContext := if type = .command ∧ ¬controller then some (h.requestContext s.address) else none
    -- a role without the first route leaves this field of its record to the second
    beforeDecode := controller ∨ s.config.role = .controllerOnly ∧ type = .command }

/-- The routes that the role of the stream receives on. -/
def associationRoutes (h : Host) (s : Bank) : List Route :=
  (if s.config.role ≠ .controllerOnly then [route h s .command true] else []) ++
    if s.config.role ≠ .controlleeOnly then
      [route h s .command false, route h s .context false, route h s .signal false]
    else []

def associationCounters (s : Bank) : List CounterKey :=
  [counter s .command true, counter s .command false, counter s .context false, counter s .signal false]

/-- `can_register_relationship`. -/
def canRegisterRelationship (identity : TransactionKey) (r : Registry controllerSizes) : Result Unit :=
  if identity.bindingGeneration = 0 ∨ identity.peer.generation = 0 then
    .error (failure .invalidArgument)
  else
    let identity := { identity with messageId := 0 }
    match r.registered identity with
    | some j =>
      if Transaction.sameKey (r.relationships j).identity identity then .ok ()
      else .error (failure .identityConflict)
    | none =>
      if ∀ j, (r.relationships j).used then .error (failure .capacityExhausted) else .ok ()

/-- What `associate` answers, to the preflight and to the commit. -/
structure Associate where
  preflight : Result Unit := .ok ()
  commit : Result Unit := .ok ()

/-- The checks before anything is installed, the commit of the transport among them. -/
def preflight (h : Host) (s : Bank) (associate : Associate) (r : Registries) : Result Unit := do
  rejectIf (r.routes.capacity - r.routes.routes.length < 4 ∨
    r.counters.capacity - r.counters.entries.length < 4) (failure .capacityExhausted)
  canRegisterRelationship (relationshipKey s) r.controllers
  if h.associates then do
    associate.preflight
    associate.commit

/-- `install_association`: the handle of the relationship, or an error, with what was installed before
it. -/
def installAssociation (h : Host) (s : Bank) (associate : Associate) (r : Registries) :
    Result ℕ × Registries :=
  match preflight h s associate r with
  | .error e => (.error e, r)
  | .ok () =>
    match r.routes.install (associationRoutes h s) with
    | .error e => (.error e, r)
    | .ok routes =>
      let r := { r with routes }
      match r.counters.install (associationCounters s) with
      | .error e => (.error e, r)
      | .ok counters =>
        let r := { r with counters }
        let (registered, controllers) :=
          r.controllers.registerRelationship (relationshipKey s) 1 s.config.profile
        (registered, { r with controllers })

/-! ## The runtime -/

structure VitaRuntime where
  registries : Registries := {}
  /-- `sid_history_`. -/
  sidHistory : List UInt32 := []
  streams : List Bank := []
  retired : List Bank := []
  frozen : Bool := false
  budget : BudgetLedger := {}
  /-- The identifiers that the streams in recovery are to have. -/
  recoveries : ℕ → Option UInt32 := fun _ => none

/-! ### Adding a stream -/

/-- A packet class that a stream with trailers may not have. -/
def reservedTrailerClass (config : StreamConfig) : Bool :=
  match config.trailerPacketClass with
  | none => true
  | some c => c ≤ 3 ∨ c = 0x10 ∨ c = 0x20

/-- The checks of `add_controllee` before anything is charged. -/
def checkStream (h : Host) (w : VitaRuntime) (config : StreamConfig) : Result Unit := do
  rejectIf (w.frozen ∨ w.streams.length = h.streams ∨ w.streams.length = 16 ∨ config.sid = 0 ∨
    config.controllerId = 0 ∨ config.controlleeId = 0 ∨ ¬config.source ∨
    config.controllerPeer = config.controlleePeer) (failure .invalidArgument)
  rejectIf (config.associationGeneration = 0 ∨ ¬config.device.valid ∨
    config.kind = .virtualRegister ∧ config.profile ≠ .generatorV1 ∨
    config.profile ≠ .generatorV1 ∧
      (config.centerFrequency < minimumCenterHz ∨ config.centerFrequency > maximumCenterHz) ∨
    config.profile = .sdrRadio ∧
      (h.epoch ≠ .utc ∨ config.sid > 4 ∨ config.format ≠ .iq16 ∨ ¬config.trailer ∨
        config.bandwidth = 0 ∨ config.bandwidth > config.sampleRate ∨ ¬config.sdrCapabilities))
    (failure .invalidArgument)
  rejectIf (config.trailer ∧ config.profile ≠ .sdrRadio ∧ reservedTrailerClass config)
    (failure .invalidArgument)
  rejectIf (config.profile = .sdrRadio ∧ config.role ≠ .controllerOnly ∧ ¬h.isolatedLab ∧
    ¬config.device.enabled) (failure .unsupportedCapability)
  rejectIf (config.profile = .sdrRadio ∧ config.device.enabled ∧ ¬config.device.commit)
    (failure .unsupportedCapability)
  rejectIf (¬config.trace.valid ∨ config.trace.enabled ∧ config.trace.storageBytes = 0)
    (failure .invalidArgument)
  let pairs ← packetSamples config
  let bytes := pairs * bytesPerPair config.format
  let packet := 28 + bytes + if config.trailer then 4 else 0
  rejectIf (packet > h.maxPacketBytes) (failure .unsupportedCapability)
  rejectIf (¬h.payloadSupports bytes ∨ ¬h.rxDataSupports packet) (failure .unsupportedCapability)
  rejectIf (∃ s ∈ w.streams, s.config.sid = config.sid) (failure .identityConflict)

/-- Another stream has the same device owner, which is charged once. -/
def seenDevice (device : DeviceBinding) (streams : List Bank) : Result Bool :=
  streams.foldlM (fun seen s => do
    let prior := s.config.device
    rejectIf (prior.enabled ∧ prior.context = device.context) (failure .identityConflict)
    if prior.enabled ∧ prior.owner = device.owner then
      rejectIf (prior.storageBytes ≠ device.storageBytes) (failure .invalidArgument)
      return true
    else return seen) false

/-- Another stream has the same trace owner. -/
def seenTrace (trace : TraceBinding) (streams : List Bank) : Result Bool :=
  streams.foldlM (fun seen s => do
    let prior := s.config.trace
    if prior.enabled ∧ prior.owner = trace.owner then
      rejectIf (prior.storageBytes ≠ trace.storageBytes) (failure .invalidArgument)
      return true
    else return seen) false

/-- What is owned outside is charged, unless it was before. -/
def chargeOwned (h : Host) (category : BudgetCategory) (storageBytes : ℕ) (seen : Result Bool)
    (b : BudgetLedger) : Result Unit × BudgetLedger :=
  match seen with
  | .error e => (.error e, b)
  | .ok true => (.ok (), b)
  | .ok false =>
    if storageBytes > frameworkBudget - 128 then (.error (failure .capacityExhausted), b)
    else b.charge h.memoryLimit category (storageBytes + 128)

/-- All that a new stream is charged. -/
def chargeStream (h : Host) (streams : List Bank) (config : StreamConfig) :
    BudgetLedger → Result Unit × BudgetLedger :=
  BudgetLedger.andThen (BudgetLedger.charge h.memoryLimit .scheduling (h.streamBytes * 2)) <|
    BudgetLedger.andThen
      (fun b =>
        if config.device.enabled then
          chargeOwned h .adaptersStacks config.device.storageBytes (seenDevice config.device streams) b
        else (.ok (), b))
      fun b =>
        if config.trace.enabled then
          chargeOwned h .metrics config.trace.storageBytes (seenTrace config.trace streams) b
        else (.ok (), b)

/-- A new bank; streams are never removed, so the addresses are numbered. -/
def newBank (address : ℕ) (config : StreamConfig) : Bank where
  address
  config
  generation := config.associationGeneration

namespace VitaRuntime

def addControllee (h : Host) (config : StreamConfig) (associate : Associate) (w : VitaRuntime) :
    Result ℕ × VitaRuntime :=
  match checkStream h w config with
  | .error e => (.error e, w)
  | .ok () =>
    let old := w.budget
    let (charged, budget) := chargeStream h w.streams config w.budget
    let w := { w with budget }
    match charged with
    | .error e => (.error e, { w with budget := old })
    | .ok () =>
      let index := w.streams.length
      let stream := newBank (2 * index + 1) config
      let (installed, registries) := installAssociation h stream associate w.registries
      let w := { w with registries }
      match installed with
      | .error e => (.error e, { w with budget := old })
      | .ok _ =>
        (.ok index, { w with
          sidHistory := w.sidHistory ++ [config.sid]
          streams := w.streams ++ [{ stream with installed := true }]
          retired := w.retired ++ [newBank (2 * index + 2) config] })

/-! ### Recovery -/

/-- The first turn freezes the registries. -/
def freeze (w : VitaRuntime) : VitaRuntime :=
  if w.frozen then w
  else { w with
    frozen := true
    registries := { w.registries with
      routes := w.registries.routes.freeze, counters := w.registries.counters.freeze } }

/-- `recover_stream`: the checks that read the registries and the history, and the answer of the
others. -/
def recoverStream (index : ℕ) (newSid : UInt32) (others : Result Unit) (w : VitaRuntime) :
    Result Unit × VitaRuntime :=
  match w.streams[index]? with
  | none => (.error (failure .invalidArgument), w)
  | some s =>
    if (w.recoveries index).isSome ∨ newSid = 0 ∨ s.generation.toNat = Timing.uint64Max then
      (.error (failure .invalidState), w)
    else if newSid ∈ w.sidHistory then (.error (failure .identityConflict), w)
    else if w.sidHistory.length = registryCapacity / 4 ∨
        w.registries.routes.capacity - w.registries.routes.routes.length < 4 ∨
        w.registries.counters.capacity - w.registries.counters.entries.length < 4 then
      (.error (failure .capacityExhausted), w)
    else if s.config.role = .controllerOnly then (.error (failure .invalidArgument), w)
    else match others with
      | .error e => (.error e, w)
      | .ok () => (.ok (), { w with recoveries := Function.update w.recoveries index (some newSid) })

/-- The association that a recovery is for, with the state that was confirmed. -/
structure Confirmed where
  sampleRate : ℕ
  format : SampleFormat
  centerFrequency : ℕ

/-- The bank of a recovered stream: the next generation of the old one. -/
def recoveredBank (old next : Bank) (newSid : UInt32) (confirmed : Confirmed) : Bank :=
  let generation := old.generation + 1
  { next with
    generation
    config := { old.config with
      sid := newSid
      associationGeneration := generation
      centerFrequency := if old.config.profile = .frequencyTunable then confirmed.centerFrequency
        else old.config.centerFrequency
      sampleRate := confirmed.sampleRate
      format := confirmed.format } }

/-- `detach` of the bank that is to be used again. -/
def detachBank (address : ℕ) (w : VitaRuntime) : VitaRuntime :=
  { w with registries := { w.registries with routes := w.registries.routes.detach address } }

/-- The turn of `progress_lifecycle` that installs the association of a recovery. With `detached` the
publisher and the receiver of the old bank let go of it, and the banks change places. -/
def completeRecovery (h : Host) (index : ℕ) (confirmed : Confirmed) (associate : Associate)
    (detached : Bool) (w : VitaRuntime) : Result ℕ × VitaRuntime :=
  match w.recoveries index, w.streams[index]?, w.retired[index]? with
  | some newSid, some old, some spare =>
    let w := w.detachBank spare.address
    let next := recoveredBank old spare newSid confirmed
    let (installed, registries) := installAssociation h next associate w.registries
    let w := { w with registries, recoveries := Function.update w.recoveries index none }
    match installed with
    | .error e => (.error e, { w with retired := w.retired.set index next })
    | .ok handle =>
      let w := { w with sidHistory := w.sidHistory ++ [newSid] }
      let next := { next with installed := true }
      if detached then
        (.ok handle, { w with streams := w.streams.set index next, retired := w.retired.set index old })
      else (.ok handle, { w with retired := w.retired.set index next })
  | _, _, _ => (.error (failure .invalidState), w)

/-- A turn that fails before the association is installed. -/
def interruptRecovery (index : ℕ) (w : VitaRuntime) : VitaRuntime :=
  match w.recoveries index, w.retired[index]? with
  | some _, some spare => w.detachBank spare.address
  | _, _ => w

/-! ### Runs -/

inductive Input where
  | addControllee (config : StreamConfig) (associate : Associate)
  | recoverStream (index : ℕ) (newSid : UInt32) (others : Result Unit)
  /-- `start`, or a turn of `progress`. -/
  | freeze
  /-- Turns of `progress` that go on with a recovery. -/
  | completeRecovery (index : ℕ) (confirmed : Confirmed) (associate : Associate) (detached : Bool)
  | interruptRecovery (index : ℕ)
  | abandonRecovery (index : ℕ)
  /-- The transport counts a packet. -/
  | count (key : CounterKey) (encoded : UInt8)
  /-- The registry of the controller is used otherwise. -/
  | controllers (call : Registry.Call)

/-- The controllers' registry is asked for a relationship. -/
def registers : Registry.Call → Bool
  | .registerRelationship .. => true
  | _ => false

def step (h : Host) (w : VitaRuntime) : Input → VitaRuntime
  | .addControllee config associate => (w.addControllee h config associate).2
  | .recoverStream index newSid others => (w.recoverStream index newSid others).2
  | .freeze => w.freeze
  | .completeRecovery index confirmed associate detached =>
    (w.freeze.completeRecovery h index confirmed associate detached).2
  | .interruptRecovery index => w.freeze.interruptRecovery index
  | .abandonRecovery index =>
    { w.freeze with recoveries := Function.update w.recoveries index none }
  | .count key encoded =>
    match w.registries.counters.accept key encoded with
    | .ok counters => { w with registries := { w.registries with counters } }
    | .error _ => w
  | .controllers call =>
    if registers call then w
    else { w with registries := { w.registries with
      controllers := w.registries.controllers.call call } }

end VitaRuntime

end Vita.Runtime.Association
