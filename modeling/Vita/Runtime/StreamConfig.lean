import Vita.State.Contracts

/-!
# The configuration of a stream (`public/config.hpp`, `profiles/iq/profile.hpp`)

Callbacks and pointers appear by whether they are there, owners by their identity.

Main definitions:
- `StreamConfig`;
- `packetSamples`: the samples of a packet.
-/

namespace Vita.Runtime

open Checked State

/-! ## Profiles -/

inductive SampleFormat where
  | iq16 | iq32 | float32
deriving DecidableEq

def bytesPerPair : SampleFormat → ℕ
  | .iq16 => 4
  | .iq32 | .float32 => 8

def baselinePacketClass : SampleFormat → UInt16
  | .iq16 => 1
  | .iq32 => 2
  | .float32 => 3

def informationClass : IqProfile → UInt16
  | .sdrRadio => 0
  | .frequencyTunable => 2
  | .generatorV1 => 1

def contextClass : IqProfile → UInt16
  | .sdrRadio => 0
  | .frequencyTunable => 0x110
  | .generatorV1 => 0x10

def commandClass : IqProfile → UInt16
  | .sdrRadio => 0
  | .frequencyTunable => 0x120
  | .generatorV1 => 0x20

def dataClass (profile : IqProfile) (baseline : UInt16) : UInt16 :=
  match profile with
  | .sdrRadio => 0
  | .frequencyTunable => 0x100 + baseline
  | .generatorV1 => baseline

def sdrUnknownOui : UInt32 := 0x00ffffff

def sdrBurstPairs : ℕ := 1024 * 1024 / 4

def minimumCenterHz : ℕ := 1000000

def maximumCenterHz : ℕ := 6000000000

/-! ## Bindings -/

inductive EndpointRole where
  | combined | controllerOnly | controlleeOnly
deriving DecidableEq

inductive ControlleeKind where
  | iqSource | virtualRegister
deriving DecidableEq

/-- `DeviceBackendBinding`; the number 0 is no context and no owner. -/
structure DeviceBinding where
  context : ℕ := 0
  validate : Bool := false
  validatePlan : Bool := false
  start : Bool := false
  simulate : Bool := false
  disarm : Bool := false
  quiescence : Bool := false
  commit : Bool := false
  owner : ℕ := 0
  storageBytes : ℕ := 0
  progress : Bool := false

namespace DeviceBinding

def enabled (d : DeviceBinding) : Bool :=
  d.context ≠ 0 ∨ d.validate ∨ d.validatePlan ∨ d.start ∨ d.simulate ∨ d.disarm ∨ d.quiescence ∨
    d.commit ∨ d.owner ≠ 0 ∨ d.storageBytes ≠ 0 ∨ d.progress

def valid (d : DeviceBinding) : Bool :=
  ¬d.enabled ∨ d.owner ≠ 0 ∧ d.storageBytes ≠ 0 ∧ d.context ≠ 0 ∧ d.validate ∧ d.start ∧ d.quiescence

end DeviceBinding

structure TraceBinding where
  owner : ℕ := 0
  context : ℕ := 0
  nowNs : Bool := false
  record : Bool := false
  storageBytes : ℕ := 0

namespace TraceBinding

def enabled (t : TraceBinding) : Bool := t.owner ≠ 0 ∧ t.context ≠ 0 ∧ t.nowNs ∧ t.record

def valid (t : TraceBinding) : Bool :=
  t.enabled ∨ t.owner = 0 ∧ t.context = 0 ∧ ¬t.nowNs ∧ ¬t.record ∧ t.storageBytes = 0

end TraceBinding

/-! ## Streams -/

structure StreamConfig where
  sid : UInt32 := 0
  controllerId : UInt32 := 0
  controlleeId : UInt32 := 0
  controllerPeer : UInt64 := 1
  controlleePeer : UInt64 := 2
  format : SampleFormat := .iq16
  sampleRate : ℕ := 1000000
  ipMtu : ℕ := 1500
  maximumSamplesPerPacket : ℕ := 256
  burstPairs : ℕ := sdrBurstPairs
  ipv6 : Bool := false
  trailer : Bool := false
  trailerPacketClass : Option UInt16 := none
  /-- The source has a callback. -/
  source : Bool := true
  kind : ControlleeKind := .iqSource
  trace : TraceBinding := {}
  profile : IqProfile := .generatorV1
  centerFrequency : ℕ := 100000000
  bandwidth : ℕ := 100000
  /-- `sdr_capabilities.validate()`. -/
  sdrCapabilities : Bool := true
  role : EndpointRole := .combined
  device : DeviceBinding := {}
  associationGeneration : UInt64 := 1

def packetSamples (config : StreamConfig) : Result ℕ := do
  rejectIf (config.sampleRate < 1 ∨ config.sampleRate > 100000000 ∨ config.ipMtu < 64 ∨
    config.maximumSamplesPerPacket = 0 ∨ config.maximumSamplesPerPacket > 1024 ∨
    config.profile ≠ .sdrRadio ∧ config.maximumSamplesPerPacket > 256) (failure .invalidArgument)
  let overhead := (if config.ipv6 then 48 else 28) + 28 + if config.trailer then 4 else 0
  rejectIf (config.ipMtu ≤ overhead) (failure .shortOutput)
  let room := (config.ipMtu - overhead) / bytesPerPair config.format
  if config.profile = .sdrRadio then
    rejectIf (config.burstPairs = 0 ∨ config.burstPairs > sdrBurstPairs) (failure .invalidArgument)
    rejectIf (config.maximumSamplesPerPacket > room) (failure .shortOutput)
    return config.maximumSamplesPerPacket
  else
    let count := min config.maximumSamplesPerPacket (min config.sampleRate room)
    rejectIf (count = 0) (failure .shortOutput)
    return count

theorem packetSamples_pos {config : StreamConfig} {pairs : ℕ} (h : packetSamples config = .ok pairs) :
    0 < pairs := by
  simp only [packetSamples, bind_eq_ok, rejectIf_eq_ok, exists_const] at h
  obtain ⟨hargument, -, h⟩ := h
  split at h
  · simp only [bind_eq_ok, rejectIf_eq_ok, exists_const, pure_eq_ok, Except.ok.injEq] at h
    omega
  · simp only [bind_eq_ok, rejectIf_eq_ok, exists_const, pure_eq_ok, Except.ok.injEq] at h
    omega

end Vita.Runtime
