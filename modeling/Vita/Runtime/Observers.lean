import Vita.Transaction.Controller

/-!
# Observers of transactions (`public/runtime.hpp`)

An application registers a callback for a transaction with `observe`; at the end of each turn `progress`
calls it with the observations that it has not had yet. For this the book of a transaction has a copy of
each observation that was delivered. A callback may use the interface of the runtime itself.

A callback is a number, and what it does when it is called is given for each slot and observation. What
`command` and `cancel` do before and behind their use of the registry is an answer that is given with
the call. The state also lists what was registered and called; nothing reads this.

Main definitions:
- `VitaRuntime.observe`, `VitaRuntime.release`, `VitaRuntime.command`, `VitaRuntime.cancel`;
- `VitaRuntime.deliver`: the delivery of a turn;
- `inForce`, `heard`: the registration of a slot, and what its callback was called with.
-/

namespace Vita.Runtime.Observers

open Checked Codec Transaction
open Transaction.Controller (ControllerHandle Registry Sizes)

/-! ## Books -/

structure TransactionHandle where
  controller : ControllerHandle
  stream : ℕ
  runtimeId : ℕ

/-- Who is called for a transaction. -/
structure Registration where
  generation : ℕ
  context : ℕ
  callback : ℕ
deriving DecidableEq

/-- The size of the array `delivered`. -/
def deliveredCapacity : ℕ := 16

structure Book where
  generation : ℕ := 0
  stream : ℕ := 0
  request : Envelope := {}
  context : ℕ := 0
  callback : Option ℕ := none
  delivered : ℕ → Observation := fun _ => {}
  deliveredCount : ℕ := 0

/-- The three fields that `progress` compares around a call. -/
def Book.registered (b : Book) : Option Registration :=
  b.callback.map fun callback => { generation := b.generation, context := b.context, callback }

/-! ## What happened -/

inductive Event where
  | registered (slot : ℕ) (r : Registration)
  /-- There is no callback from here on. -/
  | removed (slot : ℕ)
  /-- A callback was called with an observation of the record's transaction. -/
  | called (slot : ℕ) (r : Registration) (generation entry : ℕ) (value : Observation)

/-- The registration of a slot after an event. -/
def forceStep (slot : ℕ) (current : Option Registration) : Event → Option Registration
  | .registered s r => if s = slot then some r else current
  | .removed s => if s = slot then none else current
  | .called .. => current

/-- The last registration of a slot that was not removed. -/
def inForce (slot : ℕ) (log : List Event) : Option Registration := log.foldl (forceStep slot) none

/-- What the callback of a slot has been called with after an event. -/
def heardStep (slot : ℕ) (current : List (ℕ × Observation)) : Event → List (ℕ × Observation)
  | .registered s _ => if s = slot then [] else current
  | .removed s => if s = slot then [] else current
  | .called s _ _ entry value => if s = slot then current ++ [(entry, value)] else current

/-- What the callback of a slot was called with since it was registered. -/
def heard (slot : ℕ) (log : List Event) : List (ℕ × Observation) := log.foldl (heardStep slot) []

/-- The observations that the callbacks of a slot were called with. -/
def entries (slot : ℕ) (log : List Event) : List ℕ :=
  log.filterMap fun
    | .called s _ _ entry _ => if s = slot then some entry else none
    | _ => none

/-! ## The interface -/

structure VitaRuntime (sizes : Sizes) where
  runtimeId : ℕ
  /-- The number of streams. -/
  count : ℕ
  controllers : Registry sizes := {}
  books : Fin sizes.records → Book := fun _ => {}
  log : List Event := []

/-- How `send` ends: before the transport has the packet, or with its answer. -/
inductive Sent where
  | accepted
  | failed (e : Error)
  | refused (e : Error)

/-- A packet that is sent, with what is checked before the registry has it and behind. -/
structure Sending where
  before : Result Unit := .ok ()
  packet : PacketView
  timeoutNs : ℕ
  behind : Result Unit := .ok ()
  sent : Sent := .accepted

namespace VitaRuntime

variable {sizes : Sizes}

def setBook (w : VitaRuntime sizes) (i : Fin sizes.records) (b : Book) : VitaRuntime sizes :=
  { w with books := Function.update w.books i b }

def note (w : VitaRuntime sizes) (event : Event) : VitaRuntime sizes := { w with log := w.log ++ [event] }

/-- The observations of a slot's record. -/
def history (w : VitaRuntime sizes) (i : Fin sizes.records) : List Observation :=
  (w.controllers.records i).observer.history

/-- The book under a handle. -/
def bookOf (w : VitaRuntime sizes) (handle : TransactionHandle) : Option (Fin sizes.records) :=
  if h : handle.controller.slot < sizes.records then
    if handle.runtimeId = w.runtimeId ∧
        (w.books ⟨handle.controller.slot, h⟩).generation = handle.controller.generation then
      some ⟨handle.controller.slot, h⟩
    else none
  else none

def observe (handle : TransactionHandle) (context : ℕ) (callback : Option ℕ) (w : VitaRuntime sizes) :
    Result Unit × VitaRuntime sizes :=
  match w.bookOf handle with
  | none => (.error (failure .staleGeneration), w)
  | some i =>
    let b := { w.books i with context, callback, deliveredCount := 0 }
    (.ok (), (w.setBook i b).note <|
      match b.registered with
      | some r => .registered i r
      | none => .removed i)

def release (handle : TransactionHandle) (w : VitaRuntime sizes) : Result Unit × VitaRuntime sizes :=
  match w.bookOf handle with
  | none => (.error (failure .staleGeneration), w)
  | some i =>
    let w := (w.setBook i { w.books i with callback := none }).note (.removed i)
    let (released, controllers) := w.controllers.release handle.controller
    (released, { w with controllers })

/-- `send` of a command: a packet that the transport refuses is observed as a local failure. -/
def send (handle : ControllerHandle) (sent : Sent) (w : VitaRuntime sizes) :
    Result Unit × VitaRuntime sizes :=
  match sent with
  | .accepted => (.ok (), w)
  | .failed e => (.error e, w)
  | .refused e => (.error e, { w with controllers := (w.controllers.localSend handle false).2 })

/-- `command` from its use of the registry on. -/
def command (index relationship now : ℕ) (sending : Sending) (w : VitaRuntime sizes) :
    Result TransactionHandle × VitaRuntime sizes :=
  match sending.before with
  | .error e => (.error e, w)
  | .ok () =>
    match w.controllers.track relationship sending.packet now sending.timeoutNs with
    | (.error e, controllers) => (.error e, { w with controllers })
    | (.ok tracked, controllers) =>
      let w := { w with controllers }
      match sending.behind with
      | .error e => (.error e, w)
      | .ok () =>
        match w.send tracked.handle sending.sent with
        | (.error e, w) =>
          let controllers := (w.controllers.markTerminal tracked.handle false now).2
          (.error e, { w with controllers := (controllers.release tracked.handle).2 })
        | (.ok (), w) =>
          (.ok { controller := tracked.handle, stream := index, runtimeId := w.runtimeId },
            if h : tracked.handle.slot < sizes.records then
              (w.setBook ⟨tracked.handle.slot, h⟩
                { generation := tracked.handle.generation, stream := index
                  request := tracked.envelope }).note (.removed tracked.handle.slot)
            else w)

def cancel (handle : TransactionHandle) (fields : UInt8) (now : ℕ) (sending : Sending)
    (w : VitaRuntime sizes) : Result Unit × VitaRuntime sizes :=
  if handle.runtimeId ≠ w.runtimeId ∨ handle.stream ≥ w.count ∨
      handle.controller.slot ≥ sizes.records ∨ fields = 0 then (.error (failure .invalidArgument), w)
  else if (w.bookOf handle).isNone then (.error (failure .staleGeneration), w)
  else
    match sending.before with
    | .error e => (.error e, w)
    | .ok () =>
      match w.controllers.registerCancel handle.controller sending.packet now sending.timeoutNs with
      | (.error e, controllers) => (.error e, { w with controllers })
      | (.ok _, controllers) =>
        let w := { w with controllers }
        match sending.behind with
        | .error e => (.error e, w)
        | .ok () => w.send handle.controller sending.sent

/-- `finish_lifecycle`: the callbacks of a stream's transactions are removed. -/
def finishLifecycle (index : ℕ) (originalSid : UInt32) (w : VitaRuntime sizes) : VitaRuntime sizes :=
  (List.finRange sizes.records).foldl (fun w i =>
    if (w.books i).stream = index ∧ (w.books i).request.streamId = some originalSid then
      (w.setBook i { w.books i with callback := none }).note (.removed i)
    else w) w

/-! ## Delivery -/

/-- What a callback may do. -/
inductive Action where
  | observe (handle : TransactionHandle) (context : ℕ) (callback : Option ℕ)
  | release (handle : TransactionHandle)
  | command (index relationship now : ℕ) (sending : Sending)
  | cancel (handle : TransactionHandle) (fields : UInt8) (now : ℕ) (sending : Sending)

def act (w : VitaRuntime sizes) : Action → VitaRuntime sizes
  | .observe handle context callback => (w.observe handle context callback).2
  | .release handle => (w.release handle).2
  | .command index relationship now sending => (w.command index relationship now sending).2
  | .cancel handle fields now sending => (w.cancel handle fields now sending).2

/-- What the callbacks of a turn do when they are called with an observation of a slot. -/
abbrev Reaction (sizes : Sizes) := Fin sizes.records → ℕ → List Action

/-- An observation is copied, and the callback is called. -/
def callback (react : Reaction sizes) (i : Fin sizes.records) (r : Registration) (event : ℕ)
    (observation : Observation) (w : VitaRuntime sizes) : VitaRuntime sizes :=
  let b := w.books i
  let w := w.setBook i { b with delivered := Function.update b.delivered event observation }
  let w := w.note (.called i r (w.controllers.records i).generation event observation)
  (react i event).foldl act w

/-- The observations of a slot, one after another; the array has blank ones behind the last. -/
def deliverEvents (react : Reaction sizes) (i : Fin sizes.records) (r : Registration) :
    List ℕ → VitaRuntime sizes → VitaRuntime sizes
  | [], w => w
  | event :: rest, w =>
    let observation := (w.history i).getD event {}
    if event ≥ (w.books i).deliveredCount ∨ (w.books i).delivered event ≠ observation then
      let w := w.callback react i r event observation
      if (w.books i).registered ≠ some r then w else deliverEvents react i r rest w
    else deliverEvents react i r rest w

def deliverSlot (react : Reaction sizes) (w : VitaRuntime sizes) (i : Fin sizes.records) :
    VitaRuntime sizes :=
  let b := w.books i
  match b.registered with
  | none => w
  | some r =>
    if b.generation = 0 then w
    else match w.controllers.find { slot := i, generation := b.generation } with
      | none => w
      | some _ =>
        let size := (w.history i).length
        let w := deliverEvents react i r (List.range (min size deliveredCapacity)) w
        if (w.books i).callback.isSome then w.setBook i { w.books i with deliveredCount := size } else w

/-- The last loop of `progress`. -/
def deliver (react : Reaction sizes) (w : VitaRuntime sizes) : VitaRuntime sizes :=
  (List.finRange sizes.records).foldl (deliverSlot react) w

/-! ## Runs -/

inductive Input (sizes : Sizes) where
  /-- What else the runtime does with the registry. -/
  | controllers (call : Registry.Call)
  | act (action : Action)
  | finishLifecycle (index : ℕ) (originalSid : UInt32)
  | deliver (react : Reaction sizes)

def step (w : VitaRuntime sizes) : Input sizes → VitaRuntime sizes
  | .controllers call => { w with controllers := w.controllers.call call }
  | .act action => w.act action
  | .finishLifecycle index originalSid => w.finishLifecycle index originalSid
  | .deliver react => w.deliver react

end VitaRuntime

end Vita.Runtime.Observers
