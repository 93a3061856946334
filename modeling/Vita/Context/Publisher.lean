import Vita.Context.Receiver

/-!
# Publication of Context before Data (`context/publisher.hpp`)

The publisher sends the revisions of the state as Context frames, in the order of their times, and
holds Data until the revision they are bound to has been accepted by the transport. A frame is sent
again every second, when a stream starts, and once when the state has become unknown.

What the transport answers to each call is arbitrary. The world has the publisher with its store, the
handles that others hold, and a log of what was sent, submitted and dropped, and notes the revisions
that were superseded when their group was accepted. A packet is named by the number of its submission.

Main definitions:
- `Publisher.submit`, `Publisher.progress`, `Publisher.pause`, `Publisher.detach`;
- `Publisher.step`: one call of the publisher or of its store.
-/

namespace Vita.Context

open Checked Timing State Codec Transaction

structure ContextFrame where
  state : StateSnapshot := {}
  time : ProtocolTime := {}
  epoch : Tsi := .none
  timeKnown : Bool := false
  change : Bool := true
  refresh : Bool := false
  valid : Bool := false
  revisionId : ℕ := 0
  associationGeneration : ℕ := 0
  observation : Bool := false

inductive StreamStatus where
  | idle | active | contextUnavailable | metadataUnknown | backendFault | temporalAssociation
deriving DecidableEq

/-- A packet that waits for its revision. -/
structure Pending where
  packet : ℕ
  revision : ℕ
deriving DecidableEq

inductive StreamEvent where
  /-- A call of `context_send`, and whether it succeeded. -/
  | context (frame : ContextFrame) (sent : Bool)
  /-- A call of `data_send` for a packet with the event of its revision, and whether it succeeded. -/
  | data (packet : ℕ) (event : EffectiveEvent) (sent : Bool)
  /-- A packet is taken over by `submit`. -/
  | submitted (packet : ℕ)
  /-- A held packet is given up. -/
  | dropped (packet : ℕ)

/-- The capacities, whether the transport is bound, what it answers to its calls, and whether it keeps
the handle it was called with. -/
structure PublisherConfig where
  revisions : ℕ
  heldCapacity : ℕ
  bound : Bool := true
  answer : ℕ → Result Unit
  keeps : ℕ → Bool := fun _ => false

structure Publisher where
  store : RevisionStore := {}
  held : List (Option Pending) := []
  status : StreamStatus := .idle
  blockedSince : Option ℕ := none
  refreshAt : ℕ := 0
  refreshStarted : Bool := false
  invalidSent : Bool := false
  startGate : Bool := true
  startingRun : Bool := true
  calibrated : Bool := false
  contextHighwater : Option ProtocolTime := none
  faultSnapshot : Option StateSnapshot := none
  highwaterState : Option StateSnapshot := none
  /-- The handles that callers hold. -/
  handles : List ℕ := []
  submissions : ℕ := 0
  calls : ℕ := 0
  log : List StreamEvent := []
  /-- The numbers of the revisions that were accepted in a group for which one of other metadata stood. -/
  superseded : List ℕ := []

namespace Publisher

variable (c : PublisherConfig)

def emit (w : Publisher) (e : StreamEvent) : Publisher := { w with log := w.log ++ [e] }

/-- The packets held. -/
def packets (w : Publisher) : List Pending := w.held.filterMap id

/-- The reference count of a revision is not zero. -/
def referenced (w : Publisher) (i : ℕ) : Bool := i ∈ w.handles ∨ ∃ p ∈ w.packets, p.revision = i

/-- `stop`: held packets are given up. -/
def stop (status : StreamStatus) (w : Publisher) : Publisher :=
  { w with status, held := w.held.map fun _ => none
           log := w.log ++ w.packets.map fun p => .dropped p.packet }

def temporalFault (w : Publisher) : Publisher := w.stop .temporalAssociation

/-! ## Frames -/

def sampleLoss : UInt32 := sampleLossEnable ||| sampleLossIndicator

/-- The indicators of a state. -/
def indicatorsOf (s : StateSnapshot) : UInt32 :=
  if s.knows 2 then (asWord (s.fields 2).value).getD 0 else 0

/-- The state of a frame: that of the event, with the indicators of the publication. -/
def withIndicators (s : StateSnapshot) (indicators : UInt32) : StateSnapshot :=
  setField s 2 { id := Field.stateEvent, value := .word indicators, validity := .known }

/-- `frame`. -/
def frame (w : Publisher) (i : ℕ) (epoch : Tsi) (refresh : Bool) (now : ProtocolTime) : ContextFrame :=
  let r := w.store.slots i
  let e := r.event
  let valid := requiredKnown e.state
  let indicators := indicatorsOf e.state ||| (0x80000000 ||| validDataEnable)
  let indicators := if w.calibrated then indicators ||| 0x80000 else indicators &&& ~~~0x80000
  let indicators := if valid then indicators ||| validDataIndicator
    else indicators &&& ~~~validDataIndicator
  let indicators := if refresh then indicators &&& ~~~sampleLoss else indicators
  { state := withIndicators e.state indicators
    time := if refresh then now else e.contextTime
    epoch, timeKnown := refresh ∨ e.timeKnown, change := ¬refresh, refresh, valid
    revisionId := r.id, associationGeneration := e.associationGeneration }

/-- The frame that says that the state is not known any more. -/
def invalidFrame (w : Publisher) (i : ℕ) (epoch : Tsi) (now : ProtocolTime) : ContextFrame :=
  let f := w.frame i epoch false {}
  let state := w.faultSnapshot.getD f.state
  let indicators := indicatorsOf state &&& ~~~(validDataIndicator ||| sampleLoss ||| 0x80000) |||
    (validDataEnable ||| 0x80000000)
  let indicators := if w.calibrated then indicators ||| 0x80000 else indicators
  { f with state := withIndicators state indicators, valid := false, refresh := true, time := now
           timeKnown := true, observation := true }

/-! ## The transport -/

def sendContext (f : ContextFrame) (w : Publisher) : Result Unit × Publisher :=
  let answer := c.answer w.calls
  (answer, { w.emit (.context f answer.isOk) with calls := w.calls + 1 })

def sendData (p : Pending) (w : Publisher) : Result Unit × Publisher :=
  let answer := c.answer w.calls
  (answer, { w.emit (.data p.packet (w.store.slots p.revision).event answer.isOk) with
    calls := w.calls + 1
    handles := if c.keeps w.calls then p.revision :: w.handles else w.handles })

/-- The time of a frame that has been sent. -/
def raise (f : ContextFrame) (w : Publisher) : Publisher :=
  { w with contextHighwater := some f.time, highwaterState := some f.state }

/-- The frame is later than everything sent so far. -/
def later (time : ProtocolTime) (w : Publisher) : Bool := ∀ t ∈ w.contextHighwater, t.before time

/-- A frame may not be sent: its time has been passed, or has been sent with another state. -/
def conflicts (f : ContextFrame) (w : Publisher) : Bool :=
  f.timeKnown ∧ ∃ t ∈ w.contextHighwater, ¬t.before f.time ∧
    (f.time.before t ∨ ∀ s ∈ w.highwaterState, ¬sameState f.state s)

/-! ## Groups -/

/-- The fields that samples of a profile are interpreted with: Sample Rate and payload format, and the
RF frequency, bandwidth and gain of the profiles that have them. -/
def requiredFields : IqProfile → List (Fin 8)
  | .generatorV1 => [1, 3]
  | .frequencyTunable => [1, 3, 4]
  | .sdrRadio => [1, 3, 4, 5, 6]

/-- The states agree on what samples are interpreted with. -/
def sameMetadata (a b : StateSnapshot) : Bool :=
  a.profile = b.profile ∧ ∀ i ∈ requiredFields b.profile,
    (a.fields i).validity = (b.fields i).validity ∧ (a.fields i).value = (b.fields i).value

/-- The revision that stands for a group: the one selected, or the present one for events of unknown
time. -/
def standsFor (i : ℕ) (w : Publisher) : ℕ :=
  if (w.store.slots i).event.timeKnown then i else w.store.current.getD i

/-- The members of a group with other metadata than the revision that stands for it. -/
def outvoted (i : ℕ) (w : Publisher) : List ℕ :=
  let stand := (w.store.slots (w.standsFor i)).event.state
  let members := (List.range c.revisions).filter fun j =>
    w.store.inGroup i j ∧ ¬sameMetadata stand (w.store.slots j).event.state
  members.map fun j => (w.store.slots j).id

/-! ## Operations -/

def start (now : ℕ) (w : Publisher) : Result Unit × Publisher :=
  match w.store.current with
  | none => (.error (failure .invalidState), w)
  | some i =>
    if w.store.faulted ∨ ¬requiredKnown (w.store.slots i).event.state ∨ ¬c.bound ∨
        w.status ≠ .idle then
      (.error (failure .invalidState), w)
    else
      (.ok (), { w with
        status := .active, refreshAt := now, refreshStarted := false, startGate := true
        startingRun := true, blockedSince := some now })

def backendFault (observed : StateSnapshot) (w : Publisher) : Publisher :=
  { w with faultSnapshot := some observed, store := { w.store with faulted := true } }.stop .backendFault

/-- The first free place gets the packet. -/
def hold (p : Pending) : List (Option Pending) → List (Option Pending)
  | [] => []
  | none :: rest => some p :: rest
  | some q :: rest => some q :: hold p rest

/-- `submit` of a handle of this store. -/
def submit (i : ℕ) (now : ℕ) (w : Publisher) : Result Unit × Publisher :=
  let p : Pending := { packet := w.submissions, revision := i }
  let w := { w with submissions := w.submissions + 1 }
  let event := (w.store.slots i).event
  if w.status ≠ .active ∨ event.associationGeneration ≠ w.store.generation ∨ w.store.faulted ∨
      ¬requiredKnown event.state then
    (.error (failure .invalidState), w)
  else match w.store.noteDataDependency c.revisions i with
    | .error e => (.error e, w)
    | .ok store =>
      let w := { w with store }
      if ¬w.startGate ∧ (w.store.slots i).publication = .accepted then
        match sendData c p w with
        | (.ok _, w) => (.ok (), w.emit (.submitted p.packet))
        | (.error e, w) => (.error e, w)
      else
        let w := { w with blockedSince := w.blockedSince.or (some now) }
        if w.packets.length = c.heldCapacity then
          (.error (failure .capacityExhausted), w.stop .contextUnavailable)
        else (.ok (), { w with held := hold p w.held }.emit (.submitted p.packet))

/-- The frame for the next group. For events of unknown time it is an observation of the present
state, which only a starting stream may send. -/
def groupFrame (epoch : Tsi) (protocolNow : ProtocolTime) (i : ℕ) (w : Publisher) :
    Result ContextFrame × Publisher :=
  let f := w.frame i epoch false {}
  if f.timeKnown then (.ok f, w)
  else if ¬w.startingRun then (.error (failure .invalidState), w.temporalFault)
  else match w.store.current with
    | none => (.error (failure .invalidState), w)
    | some latest =>
      (.ok { w.frame latest epoch true protocolNow with change := true, observation := true }, w)

/-- The gate of a starting stream opens with a frame of the present state at the present time. -/
def openGate (f : ContextFrame) (protocolNow : ProtocolTime) (w : Publisher) : Publisher :=
  match w.store.current with
  | none => w
  | some latest =>
    if w.startGate ∧ f.timeKnown ∧ f.time = protocolNow ∧ f.revisionId = (w.store.slots latest).id then
      { w with startGate := false }
    else w

/-- The group of a revision is published. -/
def publishGroup (now : ℕ) (protocolNow : ProtocolTime) (epoch : Tsi) (next : ℕ) (w : Publisher) :
    Result Unit × Publisher :=
  let w := { w with blockedSince := w.blockedSince.or (some now) }
  match groupFrame epoch protocolNow next w with
  | (.error e, w) => (.error e, w)
  | (.ok f, w) =>
    if conflicts f w then (.error (failure .identityConflict), w.temporalFault)
    else match sendContext c f w with
      | (.error e, w) => (.error e, w)
      | (.ok _, w) =>
        let w := if f.timeKnown ∧ later f.time w then w.raise f else w
        match w.store.acceptGroup c.revisions next with
        | .error e => (.error e, w)
        | .ok store =>
          let w := { w with store, refreshAt := now, refreshStarted := true
                            superseded := w.superseded ++ outvoted c next w }
          (.ok (), openGate f protocolNow w)

/-- The loop over the groups that wait for publication, for a number of rounds. -/
def publishGroups (now : ℕ) (protocolNow : ProtocolTime) (epoch : Tsi) :
    ℕ → Publisher → Result Unit × Publisher
  | 0, w => (.ok (), w)
  | k + 1, w =>
    match w.store.publicationGroup c.revisions with
    | .error e =>
      if e.code = .identityConflict then (.error e, w.temporalFault) else (.ok (), w)
    | .ok next =>
      match publishGroup c now protocolNow epoch next w with
      | (.error e, w) => (.error e, w)
      | (.ok _, w) => publishGroups now protocolNow epoch k w

/-- The first frame of a stream that starts without a new revision. -/
def publishStart (now : ℕ) (protocolNow : ProtocolTime) (epoch : Tsi) (w : Publisher) :
    Result Unit × Publisher :=
  if ¬w.startGate then (.ok (), w)
  else match w.store.current with
    | none => (.error (failure .invalidState), w)
    | some latest =>
      if ¬later protocolNow w then (.error (failure .identityConflict), w.temporalFault)
      else
        let f := { w.frame latest epoch true protocolNow with change := true, observation := true }
        match sendContext c f w with
        | (.error e, w) => (.error e, w)
        | (.ok _, w) =>
          (.ok (), { w.raise f with startGate := false, refreshStarted := true, refreshAt := now })

/-- The held packets whose revision is accepted are sent, up to the first failure. The first list has
the places that have been visited. -/
def drain : List (Option Pending) → List (Option Pending) → Publisher → Result Unit × Publisher
  | visited, [], w => (.ok (), { w with held := visited })
  | visited, none :: rest, w => drain (visited ++ [none]) rest w
  | visited, some p :: rest, w =>
    if (w.store.slots p.revision).publication = .accepted then
      match sendData c p w with
      | (.ok _, w) => drain (visited ++ [none]) rest w
      | (.error e, w) => (.error e, { w with held := visited ++ some p :: rest })
    else drain (visited ++ [some p]) rest w

/-- The frame that is sent again every second. -/
def publishRefresh (now : ℕ) (protocolNow : ProtocolTime) (epoch : Tsi) (w : Publisher) :
    Result Unit × Publisher :=
  if ¬(w.refreshStarted ∧ w.refreshAt ≤ now ∧ now - w.refreshAt ≥ 1000000000) then (.ok (), w)
  else if ¬later protocolNow w then (.error (failure .identityConflict), w.temporalFault)
  else match w.store.current with
    | none => (.error (failure .invalidState), w)
    | some latest =>
      let f := w.frame latest epoch true protocolNow
      match sendContext c f w with
      | (.error e, w) => (.error e, { w with blockedSince := w.blockedSince.or (some now) })
      | (.ok _, w) => (.ok (), { w.raise f with refreshAt := now })

/-- The frame of a stream whose state is not known. -/
def publishInvalid (protocolNow : ProtocolTime) (epoch : Tsi) (usable : Bool) (w : Publisher) :
    Result Unit × Publisher :=
  if w.invalidSent ∨ ¬usable then (.error (failure .invalidState), w)
  else if ¬later protocolNow w then (.error (failure .identityConflict), w)
  else match w.store.current with
    | none => (.error (failure .invalidState), w)
    | some latest =>
      let f := w.invalidFrame latest epoch protocolNow
      match sendContext c f w with
      | (.error _, w) => (.error (failure .invalidState), w)
      | (.ok _, w) => (.error (failure .invalidState), { w.raise f with invalidSent := true })

/-- The gate has been closed for too long. -/
def blockedTooLong (now : ℕ) (w : Publisher) : Bool :=
  ∃ t ∈ w.blockedSince, t ≤ now ∧ now - t ≥ 10000000

/-- The part of `progress` for an active stream. -/
def progressActive (now : ℕ) (protocolNow : ProtocolTime) (epoch : Tsi) (w : Publisher) :
    Result Unit × Publisher :=
  match publishGroups c now protocolNow epoch c.revisions w with
  | (.error e, w) => (.error e, w)
  | (.ok _, w) =>
    match publishStart c now protocolNow epoch w with
    | (.error e, w) => (.error e, w)
    | (.ok _, w) =>
      match drain c [] w.held w with
      | (.error e, w) => (.error e, w)
      | (.ok _, w) =>
        match publishRefresh c now protocolNow epoch w with
        | (.error e, w) => (.error e, w)
        | (.ok _, w) =>
          (.ok (), { w with blockedSince := none, startingRun := false
                            store := w.store.collect c.revisions w.referenced })

def progress (now : ℕ) (protocolNow : ProtocolTime) (epoch : Tsi) (usable calibrated : Bool)
    (w : Publisher) : Result Unit × Publisher :=
  let w := { w with calibrated := calibrated && usable }
  if ¬protocolNow.valid ∨ epoch = .none then (.error (failure .invalidArgument), w)
  else if ¬c.bound then (.error (failure .invalidState), w)
  else
    let w := if w.store.faulted ∧ w.status = .active then w.stop .metadataUnknown else w
    if w.status = .metadataUnknown ∨ w.status = .backendFault then
      publishInvalid c protocolNow epoch usable w
    else if ¬usable ∨ w.status ≠ .active then (.error (failure .invalidState), w)
    else if blockedTooLong now w then
      (.error (failure .capacityExhausted), w.stop .contextUnavailable)
    else progressActive c now protocolNow epoch w

def pause (w : Publisher) : Publisher :=
  if w.status = .active ∨ w.status = .contextUnavailable then
    match w.store.current with
    | none => w
    | some i =>
      if ¬w.store.faulted ∧ requiredKnown (w.store.slots i).event.state then
        { w.stop .idle with blockedSince := none }
      else w
  else w

def detach (generation : ℕ) (w : Publisher) : Result Unit × Publisher :=
  match w.store.detach c.revisions w.referenced generation with
  | .error e => (.error e, w)
  | .ok store =>
    (.ok (), { { w with store }.stop .idle with
      blockedSince := none, refreshStarted := false, invalidSent := false, contextHighwater := none
      faultSnapshot := none, highwaterState := none })

/-! ## Runs -/

/-- A call of the publisher or of its store, or a handle that is copied or given up. -/
inductive Input where
  | start (now : ℕ)
  | backendFault (observed : StateSnapshot)
  | temporalFault
  | submit (revision now : ℕ)
  | progress (now : ℕ) (protocolNow : ProtocolTime) (epoch : Tsi) (usable calibrated : Bool)
  | pause
  | detach (generation : ℕ)
  | reserve (count : ℕ)
  | release (token : ℕ)
  | record (event : EffectiveEvent) (token : ℕ) (credits : AdmissionBundle)
  | initial (event : EffectiveEvent) (credits : AdmissionBundle)
  /-- `current`: the caller gets a handle. -/
  | current
  | copy (handle : ℕ)
  | drop (handle : ℕ)

/-- One call. Handles can be used only by those who have them. -/
def step (w : Publisher) : Input → Publisher
  | .start now => (start c now w).2
  | .backendFault observed => backendFault observed w
  | .temporalFault => w.temporalFault
  | .submit i now => if i ∈ w.handles then (submit c i now w).2 else w
  | .progress now protocolNow epoch usable calibrated =>
    (progress c now protocolNow epoch usable calibrated w).2
  | .pause => pause w
  | .detach generation => (detach c generation w).2
  | .reserve count =>
    { w with store := (w.store.reserve c.revisions w.referenced count).2 }
  | .release token => { w with store := w.store.release c.revisions token }
  | .record event token credits => { w with store := w.store.record c.revisions event token credits }
  | .initial event credits =>
    match w.store.initial c.revisions w.referenced event credits with
    | (.ok i, store) => { w with store, handles := i :: w.handles }
    | (.error _, store) => { w with store }
  | .current =>
    match w.store.current with
    | none => w
    | some i => { w with handles := i :: w.handles }
  | .copy i => if i ∈ w.handles then { w with handles := i :: w.handles } else w
  | .drop i => { w with handles := w.handles.erase i }

/-- A new publisher with a new store. -/
def initial (generation : ℕ) : Publisher :=
  { store := { generation }, held := List.replicate c.heldCapacity none }

def run (w : Publisher) (inputs : List Input) : Publisher := inputs.foldl (step c) w

end Publisher

end Vita.Context
