import Vita.Transport.Routing
import Vita.Transport.StreamFramer

/-!
# What the transports share (`transport/types.hpp`, `transport/binding.hpp`)

The bindings that a transport gets from its host, the reasons of a rejection and the history of a
transport. `TxEvent`s are only recorded: nothing reads them.
-/

namespace Vita.Transport

open Words Checked Codec
open Completion (CompletionResult CompletionStatus)
open Transaction (AdmissionPool AdmissionBundle AdmissionRequest Resource)

/-- What a transport borrows from its host, and the tickets of the completion arena. -/
structure HostBindings where
  admission : AdmissionPool
  routes : RouteRegistry
  counters : CounterRegistry
  pools : Lane → ExternalPool
  tickets : Tickets := {}

namespace HostBindings

def releaseBlock (h : HostBindings) (l : Lane) (i : ℕ) : HostBindings :=
  { h with pools := Function.update h.pools l ((h.pools l).release i) }

/-- The destruction of a submission gives its completion credit back. -/
def dropSubmission (h : HostBindings) (submission : TxSubmission) : HostBindings :=
  if submission.creditOwned then { h with admission := h.admission.reset submission.completionCredit }
  else h

def resetCredits (h : HostBindings) (credits : AdmissionBundle) : HostBindings :=
  { h with admission := h.admission.reset credits }

/-- The ticket of a submission is published. -/
def publish (h : HostBindings) (submission : TxSubmission) (result : CompletionResult) :
    Bool × HostBindings :=
  let (published, tickets) := submission.completion.publish result h.tickets
  (published, { h with tickets })

end HostBindings

/-- A transport's history. -/
inductive TxEvent where
  | accepted (token : TxToken) (sequence : ℕ) (submission : TxSubmission) (packetCount : UInt8)
  /-- A callback got the packet. -/
  | delivered (sequence : ℕ) (route : ℕ) (packet : PacketView) (rx : RxEnvelope)
  /-- A packet was handed to a socket. -/
  | sent (sequence : ℕ)
  /-- A callback got a packet from a socket. -/
  | received (route : ℕ) (packet : PacketView) (rx : RxEnvelope)
  | completed (sequence : ℕ) (result : CompletionResult)

/-! ## Rejections -/

/-- Why a submission is refused; `noSlot` marks the refusals for lack of a slot, `stale` those for a
packet count that is not the next one. -/
structure Refusal where
  error : Error
  noSlot : Bool := false
  stale : Bool := false

/-- The refusal of a packet that the counters do not accept. -/
def Refusal.uncounted (error : Error) : Refusal :=
  { error, stale := error.code = .staleGeneration }

def Refusal.of {α : Type} : Result α → Except Refusal α
  | .ok a => .ok a
  | .error error => .error { error }

/-- `RejectedSubmission`, with the reason of the rejection. -/
structure Rejected where
  refusal : Refusal
  submission : TxSubmission

/-! ## Packets and credits -/

/-- The loop that copies the packet. -/
def copySegments : List TxSegment → Result Bytes
  | [] => return []
  | s :: rest => do
    let part ← s.bytes
    let copied ← copySegments rest
    return part ++ copied

/-- The credits of a submission's slot. -/
def creditRequest (submission : TxSubmission) (l : Lane) : AdmissionRequest :=
  (AdmissionRequest.none.need .completion
    (if submission.completionCredit.held .completion ≠ 0 then 0 else 1)).need l.queue 1

/-! ## The host -/

/-- What else a host does: its registries, pools and credits change. -/
structure Outside where
  admission : AdmissionPool
  routes : RouteRegistry
  pools : Lane → ExternalPool

def HostBindings.outside (h : HostBindings) (o : Outside) : HostBindings :=
  { h with admission := o.admission, routes := o.routes, pools := o.pools }

/-- New counter keys are installed, all of them or none. -/
def HostBindings.install (h : HostBindings) (batch : List CounterKey) : HostBindings :=
  match h.counters.install batch with
  | .ok counters => { h with counters }
  | .error _ => h

end Vita.Transport
