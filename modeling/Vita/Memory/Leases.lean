import Vita.Transport.Submission

/-!
# Leases of pool blocks (`memory/pool.hpp`, `memory/envelope.hpp`)

A lease object shares one block of a pool. The last lease of a block that is reset runs the block's
`on_return`, without the lock of the pool; until that call is over the block is neither shared nor free.
While it runs other calls begin and end, so a call is a list of tasks, and a call that begins puts its
tasks before those of the calls in progress.

Lease objects stand by themselves, in an `RxEnvelope` or in a `RetainedRx`. A lease that was moved from
or reset is empty.
-/

namespace Vita.Memory

open Checked
open Transport (ExternalPool Block BufferRequest)

/-! ## Objects -/

/-- An object that owns leases. -/
inductive Holder where
  | variable (i : ℕ)
  | envelope (e : ℕ)
  | retained (r : ℕ)
deriving DecidableEq

/-- A lease object: a holder and the index in its array. -/
structure Place where
  holder : Holder
  index : ℕ := 0
deriving DecidableEq

/-- A block of a pool. -/
structure BlockId where
  pool : ℕ
  index : ℕ
deriving DecidableEq

/-- `BufferLease`. -/
structure Lease where
  block : BlockId
  used : ℕ := 0

structure SegmentRef where
  lease : ℕ
  offset : ℕ
  length : ℕ

/-- `RxEnvelope`, without its leases, its prologue and its trailer. -/
structure RxEnvelope where
  leaseCount : ℕ := 0
  payload : List SegmentRef := []

/-- `RetainedRx`, without its leases. -/
structure RetainedRx where
  leaseCount : ℕ := 0
  fragments : List SegmentRef := []
  consumer : Option ℕ := none
  global : Option ℕ := none

/-- `QuotaState`. -/
structure Quota where
  limit : ℕ
  active : ℕ := 0
  enabled : Bool := true

/-- What a call still has to do. -/
inductive Task where
  /-- `BufferLease::reset`, up to the call of `on_return`. -/
  | reset (p : Place)
  /-- What follows on `on_return`. -/
  | finish (b : BlockId)
  /-- A lease is moved to an object whose own lease was reset. -/
  | take (dst src : Place)
  /-- The end of `RetainedRx::reset`, with `release_quotas`. -/
  | settle (r : ℕ)
  /-- The counters and quotas of a `RetainedRx` are moved. -/
  | hand (dst src : ℕ)
  /-- The counters of an `RxEnvelope` are moved. -/
  | handEnvelope (dst src : ℕ)
  /-- An `RxEnvelope` is gone. -/
  | discard (e : ℕ)

/-- The objects of a task. -/
def Task.touches : Task → List Holder
  | .reset p => [p.holder]
  | .finish _ => []
  | .take dst src => [dst.holder, src.holder]
  | .settle r => [.retained r]
  | .hand dst src => [.retained dst, .retained src]
  | .handEnvelope dst src => [.envelope dst, .envelope src]
  | .discard e => [.envelope e]

inductive Event where
  /-- A block is granted by `acquire`. -/
  | granted (b : BlockId)
  /-- `on_return` of a block is called. -/
  | called (b : BlockId)
deriving DecidableEq

structure World where
  pools : ℕ → ExternalPool
  quotas : ℕ → Quota
  /-- The blocks with a callback. -/
  onReturn : BlockId → Bool
  leases : Place → Option Lease := fun _ => none
  envelopes : ℕ → RxEnvelope := fun _ => {}
  retained : ℕ → RetainedRx := fun _ => {}
  returns : ℕ → ℕ := fun _ => 0
  tasks : List Task := []
  log : List Event := []

namespace World

def block (w : World) (b : BlockId) : Option Block := (w.pools b.pool).blocks[b.index]?

/-- The count of a block; a block that does not exist has none. -/
def references (w : World) (b : BlockId) : ℕ := ((w.block b).map Block.references).getD 0

def setLease (w : World) (p : Place) (l : Option Lease) : World :=
  { w with leases := Function.update w.leases p l }

def setReferences (w : World) (b : BlockId) (f : ℕ → ℕ) : World :=
  { w with
    pools := Function.update w.pools b.pool { w.pools b.pool with
      blocks := (w.pools b.pool).blocks.modify b.index fun x =>
        { x with references := f x.references } } }

def setQuota (w : World) (q : ℕ) (f : ℕ → ℕ) : World :=
  { w with
    quotas := Function.update w.quotas q { w.quotas q with active := f (w.quotas q).active } }

/-! ## Tasks -/

/-- `reset`, up to `on_return`. The last lease marks the block, which stays unavailable. -/
def reset (p : Place) (w : World) : World :=
  match w.leases p with
  | none => w
  | some l =>
    let w := w.setLease p none
    let references := w.references l.block - 1
    if references = 0 then
      { w.setReferences l.block fun _ => sizeMax with
        tasks := .finish l.block :: w.tasks
        log := if w.onReturn l.block then w.log ++ [.called l.block] else w.log }
    else w.setReferences l.block fun _ => references

/-- The block is free again. -/
def finish (b : BlockId) (w : World) : World :=
  { w.setReferences b fun _ => 0 with
    returns := Function.update w.returns b.pool (w.returns b.pool + 1) }

def take (dst src : Place) (w : World) : World := (w.setLease dst (w.leases src)).setLease src none

/-- `release_quotas`: a quota that is both is given back once. -/
def releaseQuotas (r : RetainedRx) (w : World) : World :=
  let w := match r.consumer with
    | none => w
    | some q => w.setQuota q (· - 1)
  match r.global with
  | none => w
  | some q => if r.consumer = some q then w else w.setQuota q (· - 1)

def settle (r : ℕ) (w : World) : World :=
  { w.releaseQuotas (w.retained r) with retained := Function.update w.retained r {} }

def hand (dst src : ℕ) (w : World) : World :=
  { w with retained := Function.update (Function.update w.retained dst (w.retained src)) src {} }

def handEnvelope (dst src : ℕ) (w : World) : World :=
  { w with envelopes := Function.update (Function.update w.envelopes dst (w.envelopes src)) src {} }

def perform (t : Task) (w : World) : World :=
  match t with
  | .reset p => w.reset p
  | .finish b => w.finish b
  | .take dst src => w.take dst src
  | .settle r => w.settle r
  | .hand dst src => w.hand dst src
  | .handEnvelope dst src => w.handEnvelope dst src
  | .discard e => { w with envelopes := Function.update w.envelopes e {} }

/-! ## Calls -/

/-- `ExternalPool::acquire` into a new lease. -/
def acquire (pool : ℕ) (request : BufferRequest) (i : ℕ) (w : World) : Result Unit × World :=
  match (w.pools pool).acquire request with
  | .error e => (.error e, w)
  | .ok (index, p) =>
    let b : BlockId := { pool, index }
    (.ok (), { w.setLease ⟨.variable i, 0⟩ (some { block := b }) with
      pools := Function.update w.pools pool p, log := w.log ++ [.granted b] })

/-- `BufferLease::capacity`. -/
def capacity (w : World) (l : Lease) : ℕ := ((w.block l.block).map Block.capacity).getD 0

/-- `BufferLease::set_size`. -/
def setSize (i size : ℕ) (w : World) : Result Unit × World :=
  match w.leases ⟨.variable i, 0⟩ with
  | none => (.error (failure .invalidArgument), w)
  | some l =>
    if size > w.capacity l then (.error (failure .invalidArgument), w)
    else (.ok (), w.setLease ⟨.variable i, 0⟩ (some { l with used := size }))

/-- A lease is assigned from another one. -/
def assign (dst src : Place) : List Task := [.reset dst, .take dst src]

/-- `RxEnvelope::add_buffer`. -/
def addBuffer (e i : ℕ) (w : World) : Result ℕ × World :=
  let index := (w.envelopes e).leaseCount
  if w.leases ⟨.variable i, 0⟩ = none then (.error (failure .invalidArgument), w)
  else if index = 18 then (.error (failure .capacityExhausted), w)
  else (.ok index, { w with
    envelopes := Function.update w.envelopes e { w.envelopes e with leaseCount := index + 1 }
    tasks := assign ⟨.envelope e, index⟩ ⟨.variable i, 0⟩ ++ w.tasks })

/-- `RxEnvelope::valid`. -/
def validSegment (e : ℕ) (s : SegmentRef) (w : World) : Bool :=
  let size := ((w.leases ⟨.envelope e, s.lease⟩).map Lease.used).getD 0
  s.lease < (w.envelopes e).leaseCount ∧ s.offset ≤ size ∧ s.length ≤ size - s.offset

/-- `RxEnvelope::append_payload`. -/
def appendPayload (e : ℕ) (s : SegmentRef) (w : World) : Result Unit × World :=
  if ¬w.validSegment e s ∨ s.length = 0 then (.error (failure .invalidArgument), w)
  else if (w.envelopes e).payload.length = 16 then (.error (failure .capacityExhausted), w)
  else (.ok (), { w with
    envelopes := Function.update w.envelopes e
      { w.envelopes e with payload := (w.envelopes e).payload ++ [s] } })

/-- `take_quota`. -/
def takeQuota (q : ℕ) (w : World) : Option World :=
  if (w.quotas q).enabled ∧ (w.quotas q).active < (w.quotas q).limit then some (w.setQuota q (· + 1))
  else none

/-- The quotas of a retained value: two, or one that is both. -/
def takeQuotas (consumer global : ℕ) (w : World) : Result Unit × World :=
  match w.takeQuota consumer with
  | none => (.error (failure .capacityExhausted), w)
  | some w =>
    if consumer = global then (.ok (), w)
    else match w.takeQuota global with
      | none => (.error (failure .capacityExhausted), w.setQuota consumer (· - 1))
      | some w => (.ok (), w)

/-- `BufferLease::share`. -/
def share (dst src : Place) (w : World) : World :=
  match w.leases src with
  | none => w
  | some l => (w.setLease dst (some l)).setReferences l.block (· + 1)

/-- The leases of the envelope that the payload uses, in the order of their first use, and the payload
in terms of them. -/
def remap : List SegmentRef → List ℕ → List ℕ × List SegmentRef
  | [], sources => (sources, [])
  | s :: rest, sources =>
    let found := if s.lease ∈ sources then sources else sources ++ [s.lease]
    let (all, fragments) := remap rest found
    (all, { s with lease := found.idxOf s.lease } :: fragments)

/-- The new value holds a lease for each source. -/
def shareAll (r : ℕ) (sources : List Place) (w : World) : World :=
  sources.zipIdx.foldl (fun w source => w.share ⟨.retained r, source.2⟩ source.1) w

/-- `RxEnvelope::retain` into a new `RetainedRx`. -/
def retain (e consumer global r : ℕ) (w : World) : Result Unit × World :=
  if (w.envelopes e).payload = [] then (.error (failure .invalidState), w)
  else match w.takeQuotas consumer global with
    | (.error err, w) => (.error err, w)
    | (.ok _, w) =>
      let (sources, fragments) := remap (w.envelopes e).payload []
      (.ok (), shareAll r (sources.map fun i => ⟨.envelope e, i⟩) { w with
        retained := Function.update w.retained r
          { leaseCount := sources.length, fragments, consumer := some consumer, global := some global } })

/-- `RetainedRx::retain` into a new `RetainedRx`. -/
def retainAgain (src consumer global r : ℕ) (w : World) : Result Unit × World :=
  let old := w.retained src
  if old.fragments = [] then (.error (failure .invalidState), w)
  else match w.takeQuotas consumer global with
    | (.error err, w) => (.error err, w)
    | (.ok _, w) =>
      (.ok (), shareAll r ((List.range old.leaseCount).map fun i => ⟨.retained src, i⟩) { w with
        retained := Function.update w.retained r
          { old with consumer := some consumer, global := some global } })

/-- `RetainedRx::reset`. -/
def resetTasks (r : ℕ) : List Task :=
  ((List.range 16).map fun i => .reset ⟨.retained r, i⟩) ++ [.settle r]

/-- The assignment of the leases of an array, one after the other. -/
def assignAll (dst src : Holder) (n : ℕ) : List Task :=
  (List.range n).flatMap fun i => assign ⟨dst, i⟩ ⟨src, i⟩

/-- The calls, with the objects they work on. -/
inductive Call where
  | acquire (pool : ℕ) (request : BufferRequest) (i : ℕ)
  | setSize (i size : ℕ)
  | move (dst src : ℕ)
  | reset (i : ℕ)
  | addBuffer (e i : ℕ)
  | appendPayload (e : ℕ) (s : SegmentRef)
  | moveEnvelope (dst src : ℕ)
  | dropEnvelope (e : ℕ)
  | retain (e consumer global r : ℕ)
  | retainAgain (src consumer global r : ℕ)
  | moveRetained (dst src : ℕ)
  | resetRetained (r : ℕ)
  | enable (q : ℕ) (value : Bool)

/-- A call begins; a call without `on_return` in it is over at once. -/
def begin (w : World) : Call → World
  | .acquire pool request i => (w.acquire pool request i).2
  | .setSize i size => (w.setSize i size).2
  | .move dst src =>
    if dst = src then w
    else { w with tasks := assign ⟨.variable dst, 0⟩ ⟨.variable src, 0⟩ ++ w.tasks }
  | .reset i => { w with tasks := .reset ⟨.variable i, 0⟩ :: w.tasks }
  | .addBuffer e i => (w.addBuffer e i).2
  | .appendPayload e s => (w.appendPayload e s).2
  | .moveEnvelope dst src =>
    if dst = src then w
    else { w with
      tasks := assignAll (.envelope dst) (.envelope src) 18 ++ [.handEnvelope dst src] ++ w.tasks }
  | .dropEnvelope e =>
    { w with
      tasks := ((List.range 18).reverse.map fun i => .reset ⟨.envelope e, i⟩) ++ [.discard e] ++
        w.tasks }
  | .retain e consumer global r => (w.retain e consumer global r).2
  | .retainAgain src consumer global r => (w.retainAgain src consumer global r).2
  | .moveRetained dst src =>
    if dst = src then w
    else { w with
      tasks := resetTasks dst ++ assignAll (.retained dst) (.retained src) 16 ++ [.hand dst src] ++
        w.tasks }
  | .resetRetained r => { w with tasks := resetTasks r ++ w.tasks }
  | .enable q value =>
    { w with quotas := Function.update w.quotas q { w.quotas q with enabled := value } }

/-- The objects a call changes. -/
def Call.changes : Call → List Holder
  | .acquire _ _ i | .setSize i _ | .reset i => [.variable i]
  | .move dst src => [.variable dst, .variable src]
  | .addBuffer e i => [.envelope e, .variable i]
  | .appendPayload e _ | .dropEnvelope e => [.envelope e]
  | .moveEnvelope dst src => [.envelope dst, .envelope src]
  | .retain _ _ _ r | .retainAgain _ _ _ r | .resetRetained r => [.retained r]
  | .moveRetained dst src => [.retained dst, .retained src]
  | .enable .. => []

/-- The objects a call only reads. -/
def Call.reads : Call → List Holder
  | .retain e _ _ _ => [.envelope e]
  | .retainAgain src _ _ _ => [.retained src]
  | _ => []

/-- The objects that are new with a call. -/
def Call.creates : Call → List Holder
  | .acquire _ _ i => [.variable i]
  | .retain _ _ _ r | .retainAgain _ _ _ r => [.retained r]
  | _ => []

/-- The call in progress goes on, up to the end of the next task. -/
def advance (w : World) : World :=
  match w.tasks with
  | [] => w
  | t :: rest => { w with tasks := rest }.perform t

/-! ## Runs -/

/-- An object that is new holds nothing. -/
def Unused (w : World) (h : Holder) : Prop :=
  (∀ i, w.leases ⟨h, i⟩ = none) ∧
    ∀ r, h = .retained r → (w.retained r).consumer = none ∧ (w.retained r).global = none

/-- A call uses objects that no call in progress uses, and makes new ones. -/
structure MayCall (w : World) (c : Call) : Prop where
  other : ∀ h ∈ c.changes ++ c.reads, ∀ t ∈ w.tasks, h ∉ t.touches
  new : ∀ h ∈ c.creates, w.Unused h

/-- Nothing has been granted or retained. -/
structure Start (w : World) : Prop where
  free : ∀ b, w.references b = 0
  leases : ∀ p, w.leases p = none
  retained : ∀ r, w.retained r = {}
  quotas : ∀ q, (w.quotas q).active = 0
  tasks : w.tasks = []
  log : w.log = []

inductive Reachable : World → Prop where
  | start {w : World} (h : w.Start) : Reachable w
  | call {w : World} (h : Reachable w) (c : Call) (hmay : w.MayCall c) : Reachable (w.begin c)
  | advance {w : World} (h : Reachable w) : Reachable w.advance

end World

end Vita.Memory
