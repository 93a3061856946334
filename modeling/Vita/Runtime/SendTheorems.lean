import Vita.Runtime.Send
import Vita.Transport.Counting
import Vita.Transport.Delivery

/-!
# Packet counts of the runtime

A packet that the runtime hands over carries the next count of its key, so no transport refuses it for
its count. With what is known of the transports, the counts of every key have no gap.

Main results:
- `Bank.storage_begins`: the header of a packet of the runtime;
- `trySend_stale_loopback`, `trySend_stale_udp`: when a count is refused;
- `counts_gapless`: all together.
-/

namespace Vita.Runtime

open Words Checked Codec Transport
open Transaction (AdmissionBundle)

/-! ## Headers -/

/-- The first word of a packet is in its first segment. -/
def Begins (storage : TxStorage) (header : UInt32) : Prop :=
  ∃ first rest bytes, storage.segments = first :: rest ∧ first.bytes = .ok bytes ∧
    wordAt bytes 0 = some header

/-- The count in a header. -/
def headerCount (header : UInt32) : UInt8 := (headerEnvelope header).packetCount

variable {storage : TxStorage} {header : UInt32}

theorem Begins.copied {bytes : Bytes} (h : Begins storage header)
    (hcopied : copySegments storage.segments = .ok bytes) : wordAt bytes 0 = some header := by
  obtain ⟨first, rest, part, hsegments, hpart, hheader⟩ := h
  rw [hsegments] at hcopied
  simp only [copySegments, bind_eq_ok, pure_eq_ok, Except.ok.injEq] at hcopied
  obtain ⟨part', hpart', more, -, rfl⟩ := hcopied
  rw [hpart] at hpart'
  cases hpart'
  exact Link.wordAt_of_prefix (List.prefix_append _ _) hheader

/-- The decoder takes the count from the header. -/
theorem decodeEnvelope_count {bytes : Bytes} {view : EnvelopeView}
    (h : decodeEnvelope bytes = .ok view) (hheader : wordAt bytes 0 = some header) :
    view.envelope.packetCount = headerCount header := by
  simp only [decodeEnvelope, decodePrologue, bind_eq_ok, rejectIf_eq_ok, load32_eq_ok, Prod.exists,
    pure_eq_ok, Except.ok.injEq, Prod.mk.injEq] at h
  obtain ⟨_, _, ⟨_, -, header', hheader', _, -, _, -, _, -, _, -, _, _, -, _, _, -, _, _, -, _, _, -,
    rfl, -⟩, _, -, _, -, _, -, rfl⟩ := h
  rw [hheader] at hheader'
  cases hheader'
  rfl

/-- So does the inspection of a storage. -/
theorem Begins.inspected {framing : Framing} (h : Begins storage header)
    (hframing : inspect storage = .ok framing) :
    framing.envelope.packetCount = headerCount header := by
  obtain ⟨first, rest, bytes, hsegments, hbytes, hheader⟩ := h
  have hfour := le_length_of_wordAt hheader
  -- the four bytes of the header are in the first segment
  have hgather : gather 4 storage.segments 0 [] = .ok (bytes.take 4) := by
    rw [hsegments]
    unfold gather
    rw [if_pos (by decide), hbytes]
    show (if _ then _ else _) = _
    rw [if_neg (by simp only [List.length_nil]; omega)]
    have hn : min 4 bytes.length = 4 := by omega
    simp only [List.nil_append, List.length_nil, Nat.sub_zero, List.drop_zero, hn]
    have hfull : ¬(bytes.take 4).length < 4 := by
      rw [List.length_take]
      omega
    cases rest with
    | nil => rfl
    | cons second rest =>
      unfold gather
      rw [if_neg hfull]
      rfl
  simp only [inspect, inspectPrologue, bind_eq_ok, rejectIf_eq_ok, load32_eq_ok, Prod.exists,
    pure_eq_ok, Except.ok.injEq, Prod.mk.injEq, Result.decoded_eq_ok] at hframing
  obtain ⟨_, _, ⟨copied, hcopied, header', hheader', _, -, _, -, _, -, _, -, _, _, -, _, _, -, _, _, -,
    _, _, -, rfl, -⟩, _, -, _, -, rfl⟩ := hframing
  have hcopied' : copied = bytes.take 4 := by
    simp only [ensure, bind_eq_ok, rejectIf_eq_ok, exists_const, pure_eq_ok, Except.ok.injEq,
      hgather] at hcopied
    obtain ⟨-, _, hgathered, -, rfl⟩ := hcopied
    exact hgathered.symm
  subst hcopied'
  have hword := Link.wordAt_of_prefix (List.prefix_append (bytes.take 4)
    (List.replicate (68 - (bytes.take 4).length) 0)) (Link.wordAt_take (Nat.le_refl 4) hheader)
  have hwire : ({ copied := bytes.take 4 } : Reader).wire =
      bytes.take 4 ++ List.replicate (68 - (bytes.take 4).length) 0 := rfl
  rw [hwire, hword] at hheader'
  cases hheader'
  rfl

/-! ## Packets of the runtime -/

/-- A segment that is written over holds what was written. -/
theorem overwrite_bytes {s : TxSegment} {old bytes : Bytes} (hold : s.bytes = .ok old)
    (hlength : bytes.length = old.length) : (overwrite s bytes).bytes = .ok bytes := by
  have hinside := s.inside
  simp only [TxSegment.bytes, BufferLease.bytes] at hold ⊢
  split at hold
  · next haddress =>
    rw [show (overwrite s bytes).lease.address = s.lease.address from rfl, if_pos haddress]
    simp only [ok_bind, pure_eq_ok, Except.ok.injEq] at hold ⊢
    have hsize : bytes.length = s.length := by
      rw [hlength, ← hold, List.length_take, List.length_drop]
      omega
    have hoffset : (s.lease.contents.take s.offset).length = s.offset := by
      rw [List.length_take]
      omega
    show ((s.lease.contents.take s.offset ++ (bytes.take s.length ++ _)).drop s.offset).take
      s.length = bytes
    rw [List.drop_left' hoffset, ← hsize, List.take_length, List.take_left' rfl]
  · cases hold

/-- The header of a packet carries the count of its envelope. -/
theorem headerCount_headerWord {e : Envelope} {payload n : ℕ} (h : Measured e payload n) :
    headerCount (headerWord e n) = e.packetCount := by
  obtain ⟨-, -, -, -, hheader⟩ :=
    (headerWord_eq_iff n h.count h.family h.fits h.size_words).mp rfl
  rw [headerCount, hheader]
  rfl

theorem wordAt_prologue (e : Envelope) (n : ℕ) (more : Bytes) :
    wordAt (prologue e n ++ more) 0 = some (headerWord e n) := by
  unfold prologue
  rw [List.append_assoc]
  exact wordAt_append [] _ _

/-- A packet that was built carries the count that it was built with. -/
theorem build_begins {s : Bank} {site : Site} {counters : CounterRegistry} {e : Envelope}
    {payload : Bytes} (h : s.build site counters e payload = .ok storage) :
    ∃ header, Begins storage header ∧
      site.count counters (s.counter site.type site.controller) = .ok (headerCount header) := by
  simp only [Bank.build, bind_eq_ok] at h
  obtain ⟨packetCount, hcount, bytes, hbytes, h⟩ := h
  obtain ⟨-, hmeasured, -, hout⟩ := encodeEnvelope_eq_ok.mp hbytes
  refine ⟨headerWord { e with packetCount } bytes.length, ?_, ?_⟩
  · unfold appendOnly at h
    split at h
    · cases h
      refine ⟨_, [], bytes, rfl, ?_, ?_⟩
      · simp only [TxSegment.bytes, BufferLease.bytes, if_true, ok_bind, List.drop_zero,
          List.take_length]
        rfl
      · conv_lhs => rw [hout]
        exact wordAt_prologue _ _ _
    · cases h
  · rw [hcount, headerCount_headerWord hmeasured]

/-- What `encode_prologue` leaves in its output. -/
theorem encodePrologue_bytes {e : Envelope} {payload : ℕ} {output : Bytes} {o : Output}
    (h : encodePrologue e payload output = .ok o) :
    ∃ total more, Measured e payload total ∧ o.bytes = prologue e total ++ more ∧
      o.bytes.length = output.length := by
  simp only [encodePrologue, measurePrologue, bind_eq_ok, rejectIf_eq_ok, exists_const, pure_eq_ok,
    Except.ok.injEq, not_lt] at h
  obtain ⟨layout, ⟨total, htotal, rfl⟩, hroom, rfl⟩ := h
  have hmeasured := measureEnvelope_eq_ok.mp htotal
  have hsize := hmeasured.size_eq
  simp only at hroom
  rw [writePrologue_eq e total (by omega)]
  refine ⟨total, _, hmeasured, rfl, ?_⟩
  rw [List.length_append, List.length_drop]
  omega

/-- The header of Data carries the count of its turn. -/
theorem finalize_begins {counters : CounterRegistry} {key : CounterKey} {storage' : TxStorage}
    (h : finalize counters key storage = .ok storage') :
    ∃ header, Begins storage' header ∧ counters.next key = .ok (headerCount header) := by
  unfold finalize at h
  split at h
  · cases h
  · next first rest hle =>
    simp only [bind_eq_ok] at h
    obtain ⟨old, hold, h⟩ := h
    split at h
    · cases h
    · next framing hframing =>
      simp only [bind_eq_ok, pure_eq_ok, Except.ok.injEq] at h
      obtain ⟨packetCount, hcount, output, houtput, rfl⟩ := h
      obtain ⟨total, more, hmeasured, hbytes, hlength⟩ := encodePrologue_bytes houtput
      refine ⟨headerWord { framing.envelope with packetCount } total,
        ⟨_, rest, _, rfl, overwrite_bytes hold hlength, ?_⟩, ?_⟩
      · rw [hbytes]
        exact wordAt_prologue _ _ _
      · rw [hcount, headerCount_headerWord hmeasured]

/-- A packet that the runtime hands over carries the next count of its key, if there is one. -/
theorem Bank.storage_begins {s : Bank} {counters : CounterRegistry} {draft : Draft}
    (h : s.storage counters draft = .ok storage) :
    ∃ header, Begins storage header ∧ ∀ count,
      counters.next (s.counter draft.type draft.controller) = .ok count →
        count = headerCount header := by
  cases draft with
  | built site e payload =>
    obtain ⟨header, hbegins, hcount⟩ := build_begins h
    refine ⟨header, hbegins, fun count hnext => ?_⟩
    change counters.next (s.counter site.type site.controller) = .ok count at hnext
    unfold Site.count at hcount
    rw [hnext] at hcount
    cases site <;> exact Except.ok.inj hcount
  | held storage =>
    obtain ⟨header, hbegins, hcount⟩ := finalize_begins h
    refine ⟨header, hbegins, fun count hnext => ?_⟩
    change counters.next (s.counter .signal) = .ok count at hnext
    rw [hcount] at hnext
    exact (Except.ok.inj hnext).symm

/-! ## Refusals -/

variable {n : ℕ} {submission : TxSubmission} {refusal : Refusal}

/-- The loopback refuses a packet for its count only when the count is not the next one. -/
theorem trySend_stale_loopback {s : Loopback n}
    (h : (s.trySend submission).1 = .error ⟨refusal, submission⟩) (hstale : refusal.stale) :
    s.Miscounted submission := by
  unfold Loopback.trySend at h
  split at h
  · next r hr =>
    cases h
    rw [(Loopback.preflight_refused hr).1] at hstale
    cases hstale
  · split at h
    · cases h
      cases hstale
    · simp only at h
      split at h
      · next r hr =>
        cases h
        exact (Loopback.checkPacket_refused hr).1 hstale
      · next hchecked =>
        split at h
        · cases h
          cases hstale
        · split at h
          · next haccept =>
            -- the packet was compared with the next count before
            obtain ⟨-, -, -, -, -, -, hnext, -⟩ := Loopback.checkPacket_ok hchecked
            obtain ⟨counters, hcounters⟩ := CounterRegistry.accept_next hnext
            exact absurd (haccept.symm.trans hcounters) nofun
          · cases h

/-- So does the UDP transport. -/
theorem trySend_stale_udp {s : Udp n} (h : (s.trySend submission).1 = .error ⟨refusal, submission⟩)
    (hstale : refusal.stale) :
    ∃ frame expected, inspect submission.storage = .ok frame ∧
      s.host.counters.next submission.counter = .ok expected ∧
      expected ≠ frame.envelope.packetCount := by
  unfold Udp.trySend at h
  split at h
  · next r hr =>
    cases h
    rw [(Udp.preflight_refused hr).1] at hstale
    cases hstale
  · next hpreflight =>
    split at h
    · cases h
      cases hstale
    · simp only at h
      split at h
      · next error haccept =>
        cases h
        obtain ⟨frame, hframe, -, rfl, -⟩ := (Udp.admitted_of_preflight hpreflight).frame
        simp only [Refusal.uncounted, decide_eq_true_eq] at hstale
        obtain ⟨expected, hexpected, hne⟩ := CounterRegistry.accept_stale haccept hstale
        exact ⟨frame, expected, hframe, hexpected, hne⟩
      · cases h

/-- A packet of the runtime is never refused for its count. -/
theorem Bank.not_stale {b : Bank} {draft : Draft} (ticket : CompletionToken) (fault : InjectedFault)
    (credit : AdmissionBundle) :
    (∀ s : Loopback n, b.storage s.host.counters draft = .ok storage →
      ∀ refusal, (s.trySend (b.submission draft storage ticket fault credit)).1 =
        .error ⟨refusal, b.submission draft storage ticket fault credit⟩ → refusal.stale = false) ∧
    ∀ s : Udp n, b.storage s.host.counters draft = .ok storage →
      ∀ refusal, (s.trySend (b.submission draft storage ticket fault credit)).1 =
        .error ⟨refusal, b.submission draft storage ticket fault credit⟩ → refusal.stale = false := by
  constructor
  · intro s hstorage refusal hrefused
    by_contra hstale
    obtain ⟨header, hbegins, hcount⟩ := storage_begins hstorage
    obtain ⟨bytes, view, expected, hbytes, hview, hexpected, hne⟩ :=
      trySend_stale_loopback hrefused (Bool.eq_true_of_not_eq_false hstale)
    rw [decodeEnvelope_count hview (hbegins.copied hbytes)] at hne
    exact hne (hcount expected hexpected)
  · intro s hstorage refusal hrefused
    by_contra hstale
    obtain ⟨header, hbegins, hcount⟩ := storage_begins hstorage
    obtain ⟨frame, expected, hframe, hexpected, hne⟩ :=
      trySend_stale_udp hrefused (Bool.eq_true_of_not_eq_false hstale)
    rw [hbegins.inspected hframe] at hne
    exact hne (hcount expected hexpected)

/-! ## Both transports -/

/-- The counts of every key have no gap, a refusal changes nothing, and no packet of the runtime is
refused for its count. -/
theorem counts_gapless :
    (∀ (n : ℕ) (capabilities : Capabilities) (host : HostBindings), host.counters.Fresh →
      ∀ (moves : List Loopback.Move) (s : Loopback n),
        s = (Loopback.new n capabilities host).run moves →
      (∀ key, Gapless (counts s.log key)) ∧
      (∀ submission rejected, (s.trySend submission).1 = .error rejected →
        rejected.submission = submission ∧ (s.trySend submission).2 = s) ∧
      ∀ (b : Bank) draft storage ticket fault credit rejected,
        b.storage s.host.counters draft = .ok storage →
        (s.trySend (b.submission draft storage ticket fault credit)).1 = .error rejected →
        rejected.refusal.stale = false) ∧
    ∀ (n : ℕ) (config : Udp.Config) (host : HostBindings), host.counters.Fresh →
      ∀ (moves : List Udp.Move) (s : Udp n), s = (Udp.new n config host).run moves →
      (∀ key, Gapless (counts s.log key)) ∧
      (∀ submission rejected, (s.trySend submission).1 = .error rejected →
        rejected.submission = submission ∧ (s.trySend submission).2 = s) ∧
      ∀ (b : Bank) draft storage ticket fault credit rejected,
        b.storage s.host.counters draft = .ok storage →
        (s.trySend (b.submission draft storage ticket fault credit)).1 = .error rejected →
        rejected.refusal.stale = false := by
  constructor
  · rintro n capabilities host hfresh moves s rfl
    have hrejected : ∀ submission rejected,
        (((Loopback.new n capabilities host).run moves).trySend submission).1 = .error rejected →
          rejected.submission = submission ∧
          (((Loopback.new n capabilities host).run moves).trySend submission).2 =
            (Loopback.new n capabilities host).run moves := by
      intro submission rejected h
      rcases Loopback.trySend_cases _ submission with ⟨refusal, heq⟩ | ⟨_, _, _, _, _, _, -, -, heq⟩
      · rw [heq] at h ⊢
        cases h
        exact ⟨rfl, rfl⟩
      · rw [heq] at h
        cases h
    refine ⟨(Loopback.run_counted capabilities host hfresh moves).gapless, hrejected, ?_⟩
    intro b draft storage ticket fault credit rejected hstorage h
    obtain ⟨hsubmission, -⟩ := hrejected _ rejected h
    refine (b.not_stale ticket fault credit).1 _ hstorage rejected.refusal ?_
    rw [h, ← hsubmission]
  · rintro n config host hfresh moves s rfl
    have hrejected : ∀ submission rejected,
        (((Udp.new n config host).run moves).trySend submission).1 = .error rejected →
          rejected.submission = submission ∧
          (((Udp.new n config host).run moves).trySend submission).2 =
            (Udp.new n config host).run moves := by
      intro submission rejected h
      rcases Udp.trySend_cases _ submission with
        ⟨refusal, heq⟩ | ⟨_, _, _, _, _, _, _, -, -, -, heq⟩
      · rw [heq] at h ⊢
        cases h
        exact ⟨rfl, rfl⟩
      · rw [heq] at h
        cases h
    refine ⟨(Udp.run_counted config host hfresh moves).gapless, hrejected, ?_⟩
    intro b draft storage ticket fault credit rejected hstorage h
    obtain ⟨hsubmission, -⟩ := hrejected _ rejected h
    refine (b.not_stale ticket fault credit).2 _ hstorage rejected.refusal ?_
    rw [h, ← hsubmission]

/-- Two packets of Data are sent; the second carries the count of the first and is refused. -/
theorem counts_gapless_data :
    Loopback.Bench.host.counters.Fresh ∧
      let s := (Loopback.new 3 {} Loopback.Bench.host).run
        [.call (.reserve 1), .call (.send Loopback.Bench.data), .progressNext {}, .call (.reserve 2)]
      counts s.log Loopback.Bench.data.counter = [0] ∧
      Gapless (counts s.log Loopback.Bench.data.counter) ∧
      (s.trySend { Loopback.Bench.data with completion := { ticket := 2 } }).2 = s := by
  have hfresh : Loopback.Bench.host.counters.Fresh := by
    intro e he
    rw [List.mem_singleton.mp he]
  obtain ⟨hgapless, hrejected, -⟩ := counts_gapless.1 3 {} Loopback.Bench.host hfresh
    [.call (.reserve 1), .call (.send Loopback.Bench.data), .progressNext {}, .call (.reserve 2)] _ rfl
  exact ⟨hfresh, rfl, hgapless _, (hrejected _ _ rfl).2⟩

end Vita.Runtime
