import Vita.Transport.Ingress
import Vita.Transport.Delivery

/-!
# All ingress paths dispatch alike

The loopback, the UDP transport and the stream ingress each decode a packet, look up its route, check
the limits and the extension of the route and cut the buffer of the packet. `dispatch` says once what
comes out of this for the bytes of a peer; the three paths call the callbacks that it names.

Main results:
- `dispatch_eq_some`: what is known of a packet that reaches a callback;
- `Loopback.progress_receptions`, `Udp.receive_receptions`, `StreamIngress.feeds_receptions`;
- `Udp.receive_removes`: a datagram that is looked at leaves its socket's queue.
-/

namespace Vita.Transport

open Words Checked Codec Trace
open Completion (CompletionResult)

/-! ## Packets and their routes -/

/-- The route of a packet takes its payload. -/
def Route.takes (route : Route) (header : EnvelopeView) : Prop :=
  route.minimumPayloadBytes ≤ header.payload.length ∧
    header.payload.length ≤ route.maximumPayloadBytes ∧
    (isExtension header.envelope.type → route.validExtension header = .ok ())

instance (route : Route) (header : EnvelopeView) : Decidable (route.takes header) :=
  inferInstanceAs (Decidable (_ ∧ _ ∧ _))

/-- The callback that a packet reaches and what it is given, if `find` looks up the routes. -/
def dispatchWith (find : Envelope → Option (ℕ × Route)) (w : Bytes) : Option Reception :=
  match decodeEnvelope w with
  | .error _ => none
  | .ok header =>
    match find header.envelope with
    | none => none
    | some (position, route) =>
      if route.takes header then
        match Route.decodePacket w (route.options header.envelope) with
        | .error _ => none
        | .ok packet =>
          match RxEnvelope.ofPacket w packet.envelope with
          | .error _ => none
          | .ok rx => some ⟨position, packet, rx⟩
      else none

/-- The callback that the bytes of a peer reach, and what it is given. -/
def dispatch (routes : RouteRegistry) (peer : PeerSession) (w : Bytes) : Option Reception :=
  dispatchWith (fun e => (routes.lookup peer e).toOption) w

variable {routes : RouteRegistry} {peer : PeerSession} {w : Bytes}
  {find : Envelope → Option (ℕ × Route)}

/-- A packet that reaches a callback was decoded with the context of its route, and the envelope that
the callback gets holds all of its bytes. -/
theorem dispatchWith_eq_some {r : Reception} (h : dispatchWith find w = some r) :
    ∃ header route, decodeEnvelope w = .ok header ∧ find header.envelope = some (r.route, route) ∧
      route.takes header ∧ Route.decodePacket w (route.options header.envelope) = .ok r.packet ∧
      r.rx.content = w := by
  unfold dispatchWith at h
  split at h
  · cases h
  · next header hheader =>
    split at h
    · cases h
    · next position route hfind =>
      split at h
      · next htakes =>
        split at h
        · cases h
        · next packet hpacket =>
          obtain ⟨rx, hrx, hcontent⟩ :=
            RxEnvelope.ofPacket_spec (Route.decodePacket_envelope hpacket)
          rw [hrx] at h
          cases h
          exact ⟨header, route, hheader, hfind, htakes, hpacket, hcontent⟩
      · cases h

/-- A packet that is decoded reaches its callback. -/
theorem dispatchWith_of_decoded {header : EnvelopeView} {position : ℕ} {route : Route}
    {packet : PacketView} (hheader : decodeEnvelope w = .ok header)
    (hfind : find header.envelope = some (position, route)) (htakes : route.takes header)
    (hpacket : Route.decodePacket w (route.options header.envelope) = .ok packet) :
    ∃ rx, RxEnvelope.ofPacket w packet.envelope = .ok rx ∧
      dispatchWith find w = some ⟨position, packet, rx⟩ := by
  obtain ⟨rx, hrx, -⟩ := RxEnvelope.ofPacket_spec (Route.decodePacket_envelope hpacket)
  refine ⟨rx, hrx, ?_⟩
  simp only [dispatchWith, hheader, hfind, if_pos htakes, hpacket, hrx]

theorem toOption_eq_some {α : Type} {r : Result α} {a : α} : r.toOption = some a ↔ r = .ok a := by
  cases r <;> simp [Except.toOption]

theorem dispatch_eq_some {r : Reception} (h : dispatch routes peer w = some r) :
    ∃ header route, decodeEnvelope w = .ok header ∧
      routes.lookup peer header.envelope = .ok (r.route, route) ∧ route.takes header ∧
      Route.decodePacket w (route.options header.envelope) = .ok r.packet ∧ r.rx.content = w := by
  obtain ⟨header, route, hheader, hfind, hrest⟩ := dispatchWith_eq_some h
  exact ⟨header, route, hheader, toOption_eq_some.mp hfind, hrest⟩

theorem dispatch_of_decoded {header : EnvelopeView} {position : ℕ} {route : Route}
    {packet : PacketView} (hheader : decodeEnvelope w = .ok header)
    (hlookup : routes.lookup peer header.envelope = .ok (position, route))
    (htakes : route.takes header)
    (hpacket : Route.decodePacket w (route.options header.envelope) = .ok packet) :
    ∃ rx, RxEnvelope.ofPacket w packet.envelope = .ok rx ∧
      dispatch routes peer w = some ⟨position, packet, rx⟩ :=
  dispatchWith_of_decoded hheader (toOption_eq_some.mpr hlookup) htakes hpacket

/-- The bytes are as many as their header says. -/
def Framed (w : Bytes) : Prop := ∃ header, wordAt w 0 = some header ∧ w.length = bits header 0 16 * 4

/-! ## Registries -/

/-- A registry as its functions leave it. -/
inductive RouteRegistry.Built : RouteRegistry → Prop
  | new (capacity : ℕ) : Built { capacity }
  | add {r r' : RouteRegistry} {route : Route} : Built r → r.add route = .ok r' → Built r'
  | install {r r' : RouteRegistry} {batch : List Route} : Built r → r.install batch = .ok r' → Built r'
  | detach {r : RouteRegistry} (context : ℕ) : Built r → Built (r.detach context)
  | freeze {r : RouteRegistry} : Built r → Built r.freeze

namespace RouteRegistry

/-- Every route is of a session. -/
def Sessions (r : RouteRegistry) : Prop := ∀ route ∈ r.routes, route.key.source.generation ≠ 0

theorem Sessions.add {r r' : RouteRegistry} {route : Route} (h : r.Sessions)
    (hadd : r.add route = .ok r') : r'.Sessions := by
  unfold RouteRegistry.add at hadd
  simp only [bind_eq_ok, rejectIf_eq_ok, exists_const, pure_eq_ok, Except.ok.injEq] at hadd
  obtain ⟨-, hgeneration, -, -, -, -, -, -, -, rfl⟩ := hadd
  intro existing hmem
  rcases List.mem_append.mp hmem with hmem | hmem
  · exact h existing hmem
  · rw [List.mem_singleton.mp hmem]
    exact fun hzero => hgeneration (.inl hzero)

/-- The sessions of a registry that was built are those of its routes. -/
theorem Built.sessions {r : RouteRegistry} (h : r.Built) : r.Sessions := by
  induction h with
  | new capacity =>
    intro route hmem
    cases hmem
  | add _ hadd ih => exact ih.add hadd
  | install _ hinstall ih =>
    unfold RouteRegistry.install at hinstall
    simp only [bind_eq_ok, pure_eq_ok, Except.ok.injEq] at hinstall
    obtain ⟨candidate, hfold, rfl⟩ := hinstall
    exact foldlM_induction (fun _ r => r.Sessions) ih (fun _ _ _ _ _ hr hadd => hr.add hadd) hfold
  | detach context _ ih =>
    intro route hmem
    obtain ⟨existing, hexisting, rfl⟩ := List.mem_map.mp hmem
    have := ih existing hexisting
    split <;> exact this
  | freeze _ ih => exact ih

/-- There is no route for a peer without a session. -/
theorem Sessions.dispatch_eq_none {r : RouteRegistry} (h : r.Sessions) (hpeer : peer.generation = 0) :
    dispatch r peer w = none := by
  by_contra hne
  obtain ⟨reception, hr⟩ := Option.ne_none_iff_exists'.mp hne
  obtain ⟨header, route, -, hlookup, -⟩ := dispatch_eq_some hr
  unfold lookup at hlookup
  simp only [bind_eq_ok] at hlookup
  obtain ⟨_, -, hlookup⟩ := hlookup
  split at hlookup
  · cases hlookup
  · next found i hfound =>
    have hmem : (found, i) ∈ r.routes.zipIdx.filter
        fun route => sameRoute route.1.key (wanted peer header.envelope) := by
      rw [hfound]
      exact List.mem_singleton_self _
    obtain ⟨hmem, hsame⟩ := List.mem_filter.mp hmem
    have hroute : found ∈ r.routes := (List.mem_zipIdx hmem).2.2 ▸ List.getElem_mem _
    simp only [sameRoute, Bool.decide_and, Bool.and_eq_true, decide_eq_true_eq] at hsame
    refine h found hroute ?_
    rw [hsame.1]
    exact hpeer
  · cases hlookup

end RouteRegistry

/-! ## Histories -/

/-- The calls of receive callbacks in a history. -/
def receptions (log : List TxEvent) : List Reception :=
  log.filterMap fun e => match e with
    | .delivered _ route packet rx => some ⟨route, packet, rx⟩
    | .received route packet rx => some ⟨route, packet, rx⟩
    | _ => none

theorem receptions_append (log log' : List TxEvent) :
    receptions (log ++ log') = receptions log ++ receptions log' :=
  List.filterMap_append ..

/-! ## The loopback transport -/

namespace Loopback

variable {n : ℕ} {s : Loopback n}

/-- `parse` succeeds exactly for the packets that reach a callback. -/
theorem dispatch_parse {packet : PacketView} (h : parse routes peer w = .ok packet) :
    ∃ position route rx, routes.lookup peer packet.envelope.envelope = .ok (position, route) ∧
      RxEnvelope.ofPacket w packet.envelope = .ok rx ∧
      dispatch routes peer w = some ⟨position, packet, rx⟩ := by
  unfold parse at h
  simp only [bind_eq_ok, Prod.exists, Result.decoded_eq_ok, rejectIf_eq_ok] at h
  obtain ⟨header, hheader, position, route, hlookup, _, hlimits, h⟩ := h
  have hpacket : (isExtension header.envelope.type → route.validExtension header = .ok ()) ∧
      Route.decodePacket w (route.options header.envelope) = .ok packet := by
    split at h
    · simp only [bind_eq_ok, Result.decoded_eq_ok] at h
      obtain ⟨_, hvalid, h⟩ := h
      exact ⟨fun _ => hvalid, h⟩
    · next hext => exact ⟨fun hext' => absurd hext' hext, h⟩
  have henvelope := Route.decodePacket_envelope hpacket.2
  rw [hheader] at henvelope
  cases henvelope
  obtain ⟨rx, hrx, hdispatch⟩ :=
    dispatch_of_decoded hheader hlookup ⟨by omega, by omega, hpacket.1⟩ hpacket.2
  exact ⟨position, route, rx, hlookup, hrx, hdispatch⟩

/-- A packet that is not parsed reaches no route. -/
theorem dispatch_parse_error {e : Fault} (h : parse routes peer w = .error e) :
    dispatch routes peer w = none := by
  by_contra hne
  obtain ⟨r, hr⟩ := Option.ne_none_iff_exists'.mp hne
  obtain ⟨header, route, hheader, hlookup, ⟨hmin, hmax, hext⟩, hpacket, -⟩ := dispatch_eq_some hr
  have hok : parse routes peer w = .ok r.packet := by
    unfold parse
    simp only [hheader, ok_bind, hlookup, Result.decoded]
    rw [rejectIf_of_not (by omega)]
    simp only [ok_bind]
    split
    · next hextension =>
      rw [hext hextension]
      exact hpacket
    · exact hpacket
  rw [hok] at h
  cases h

theorem receptions_served (log : List TxEvent) : receptions (served log) = receptions log := by
  unfold receptions served
  rw [List.filterMap_filter]
  congr 1
  funext e
  cases e <;> rfl

/-- The callbacks that a submission without faults reaches. -/
theorem Outcome.receptions {submission : TxSubmission} {q : ℕ} {events : List TxEvent}
    {result : CompletionResult} (h : Outcome routes submission w q events result)
    (hfault : submission.fault = {}) :
    Transport.receptions events = (dispatch routes submission.source w).toList := by
  cases h with
  | failed hfail =>
    rw [hfault] at hfail
    cases hfail
  | lost _ hlose =>
    rw [hfault] at hlose
    cases hlose
  | undecodable e _ _ hparse =>
    rw [dispatch_parse_error hparse]
    rfl
  | delivered packet position route rx _ _ hparse hlookup hrx _ =>
    obtain ⟨position', route', rx', hlookup', hrx', hdispatch⟩ := dispatch_parse hparse
    rw [hlookup] at hlookup'
    rw [hrx] at hrx'
    cases hlookup'
    cases hrx'
    rw [hdispatch, hfault]
    rfl

/-- The delivery of a submission without faults calls the callbacks that `dispatch` names. -/
theorem Reachable.progress_receptions (h : s.Reachable) {i : Fin n} {submission : TxSubmission}
    (callbacks : Callbacks) (hsub : (s.slots i).submission = some submission)
    (hfault : submission.fault = {}) (hw : copySegments submission.storage.segments = .ok w) :
    receptions (s.progress ⟨i, (s.slots i).generation⟩ callbacks).2.log =
      receptions s.log ++ (dispatch s.host.routes submission.source w).toList := by
  obtain ⟨bytes, events, result, hcopied, houtcome, hserved⟩ :=
    h.settled.progress_serves hsub callbacks
  rw [hw] at hcopied
  cases hcopied
  rw [← receptions_served, hserved, receptions_append, receptions_served, receptions_append,
    houtcome.receptions hfault]
  show _ ++ (_ ++ []) = _
  rw [List.append_nil]

/-- Whatever the faults are, a callback only gets packets that are dispatched to it. -/
theorem Outcome.mem_receptions {submission : TxSubmission} {q : ℕ} {events : List TxEvent}
    {result : CompletionResult} (h : Outcome routes submission w q events result) :
    ∀ r ∈ Transport.receptions events, dispatch routes submission.source w = some r := by
  intro r hr
  cases h with
  | failed => cases hr
  | lost => cases hr
  | undecodable => cases hr
  | delivered packet position route rx _ _ hparse hlookup hrx _ =>
    obtain ⟨position', route', rx', hlookup', hrx', hdispatch⟩ := dispatch_parse hparse
    rw [hlookup] at hlookup'
    rw [hrx] at hrx'
    cases hlookup'
    cases hrx'
    have hr' : r = ⟨position, packet, rx⟩ := by
      obtain ⟨e, he, hre⟩ := List.mem_filterMap.mp hr
      rw [List.eq_of_mem_replicate he] at hre
      exact (Option.some.inj hre).symm
    rw [hdispatch, hr']

end Loopback

/-! ## The stream ingress -/

/-- The sink's context after a packet was offered. -/
theorem Link.offer_context {τ : Type} (sink : Sink τ) (packet : Bytes) (w : Link τ) :
    (Link.offer sink packet w).2.context = (sink w.context packet).2 := by
  unfold Link.offer
  simp only
  split
  · next hsink =>
    rw [hsink]
    rfl
  · next hsink => rw [hsink]

namespace StreamIngress

/-- A packet with a buffer for it is handed to the callback that `dispatch` names. -/
theorem routePacket_receptions (routes : RouteRegistry) (peer : PeerSession) (g : Ingress) (w : Bytes) :
    (routePacket routes peer g w).2.receptions = g.receptions ∨
      ∃ r, dispatch routes peer w = some r ∧
        (routePacket routes peer g w).2.receptions = g.receptions ++ [r] := by
  unfold routePacket
  split
  · exact .inl rfl
  · next header hheader =>
    split
    · exact .inl rfl
    · next position route hlookup =>
      split
      · exact .inl rfl
      · next hlimits =>
        split
        · exact .inl rfl
        · next hext =>
          split
          · exact .inl rfl
          · next packet hpacket =>
            have htakes : route.takes header := by
              refine ⟨by omega, by omega, fun hextension => ?_⟩
              rw [if_pos hextension] at hext
              exact hext
            obtain ⟨rx, hrx, hdispatch⟩ := dispatch_of_decoded hheader hlookup htakes hpacket
            unfold handOver
            simp only
            split
            · exact .inl rfl
            · simp only [hpacket, hrx]
              exact .inr ⟨_, hdispatch, rfl⟩

/-- Nothing but the lack of a buffer keeps a packet from its callback. -/
theorem routePacket_eq {g : Ingress}
    (hpool : ∀ header, decodeEnvelope w = .ok header → ∃ taken,
      (g.pools (lane header.envelope.type header.envelope.cancel)).acquire { capacity := w.length } =
        .ok taken) :
    (routePacket routes peer g w).2.receptions = g.receptions ++ (dispatch routes peer w).toList := by
  rcases routePacket_receptions routes peer g w with hnone | ⟨r, hdispatch, hr⟩
  · rw [hnone]
    suffices hempty : dispatch routes peer w = none by
      rw [hempty]
      exact (List.append_nil _).symm
    by_contra hne
    obtain ⟨r, hr⟩ := Option.ne_none_iff_exists'.mp hne
    obtain ⟨header, route, hheader, hlookup, ⟨hmin, hmax, hext⟩, hpacket, -⟩ := dispatch_eq_some hr
    obtain ⟨rx, hrx, -⟩ := RxEnvelope.ofPacket_spec (Route.decodePacket_envelope hpacket)
    obtain ⟨⟨block, pool⟩, htaken⟩ := hpool header hheader
    have hvalid : (if isExtension header.envelope.type then route.validExtension header else .ok ()) =
        .ok () := by
      split
      · next hextension => exact hext hextension
      · rfl
    unfold routePacket at hnone
    simp only [hheader, hlookup] at hnone
    rw [if_neg (by omega)] at hnone
    simp only [hvalid, hpacket, handOver, htaken, hrx] at hnone
    simp at hnone
  · rw [hr, hdispatch]
    rfl

/-- A stream of a session is fed as its framer is. -/
theorem feeds_eq (s : StreamIngress) (h : s.peer.generation ≠ 0) (chunks : List Bytes) :
    s.feeds chunks = (s.link.feedChunks (routePacket s.routes s.peer) chunks).map
      fun r => (r.1, { s with link := r.2 }) := by
  induction chunks generalizing s with
  | nil => rfl
  | cons chunk rest ih =>
    unfold feeds Link.feedChunks feed
    rw [if_neg h]
    cases hfeed : s.link.feed (routePacket s.routes s.peer) chunk with
    | none => rfl
    | some r =>
      obtain ⟨e | n, link⟩ := r
      · rfl
      · simp only [Option.map_some]
        rw [ih { s with link } h]
        cases hrest : link.feedChunks (routePacket s.routes s.peer) rest with
        | none => rfl
        | some r =>
          obtain ⟨e | m, link'⟩ := r <;> rfl

/-- What the sink keeps of its context is kept by a chunk. -/
theorem loop_context {τ : Type} {sink : Sink τ} {Q : τ → Prop} (hsink : ∀ c packet, Q c → Q (sink c packet).2)
    {rounds : ℕ} {input : Bytes} {d : ℕ} {w : Link τ} {r : Result ℕ × Link τ}
    (h : Link.loop sink rounds input d w = some r) (hw : Q w.context) : Q r.2.context := by
  -- a round leaves the context alone, or offers a packet to the sink
  have hsettle : ∀ w : Link τ, Q w.context → Q (Link.settle sink w).2.context := by
    intro w hw
    unfold Link.settle
    split
    · exact hw
    · simp only
      split
      · exact hw
      · split
        · exact hw
        · rw [Link.offer_context]
          exact hsink _ _ hw
  induction rounds generalizing input d w with
  | zero => cases h
  | succ rounds ih =>
    unfold Link.loop at h
    split at h
    · cases h
      exact hw
    · simp only at h
      have hkept := hsettle (Link.copy (input.take (min input.length
        (w.framer.target - w.framer.buffer.length))) w) hw
      split at h
      · next e w' hround =>
        cases h
        rw [hround] at hkept
        exact hkept
      · next k w' hround =>
        rw [hround] at hkept
        exact ih h hkept

/-- Every packet that a callback gets is dispatched to it. -/
theorem feed_dispatched (s : StreamIngress) {input : Bytes} {r : Result ℕ} {s' : StreamIngress}
    (h : s.feed input = some (r, s')) : ∀ reception ∈ s'.receptions, reception ∈ s.receptions ∨
      ∃ w, dispatch s.routes s.peer w = some reception := by
  unfold feed at h
  split at h
  · cases h
    exact fun _ hmem => .inl hmem
  · obtain ⟨⟨r', link⟩, hfeed, heq⟩ := Option.map_eq_some_iff.mp h
    cases heq
    unfold Link.feed Link.feedWithin at hfeed
    split at hfeed
    · cases hfeed
      exact fun _ hmem => .inl hmem
    · refine loop_context (Q := fun g => ∀ reception ∈ g.receptions, reception ∈ s.receptions ∨
        ∃ w, dispatch s.routes s.peer w = some reception) (fun g packet hg => ?_) hfeed
        fun _ hmem => .inl hmem
      rcases routePacket_receptions s.routes s.peer g packet with hsame | ⟨found, hfound, hmore⟩
      · rw [hsame]
        exact hg
      · rw [hmore]
        intro reception hmem
        rcases List.mem_append.mp hmem with hmem | hmem
        · exact hg reception hmem
        · rw [List.mem_singleton.mp hmem]
          exact .inr ⟨packet, hfound⟩

/-- A stream that is between packets hands a packet to the callback that `dispatch` names, however the
packet is cut. -/
theorem feeds_receptions (s : StreamIngress) (hroutes : s.routes.Built)
    (haccepts : s.link.framer.accepts) (hempty : s.link.framer.buffer = [])
    (hexpected : s.link.framer.expected = 0) (hw : Framed w)
    (hmaximum : w.length ≤ s.link.framer.maximumPacketBytes)
    (hpool : ∀ header, decodeEnvelope w = .ok header → ∃ taken,
      (s.link.context.pools (lane header.envelope.type header.envelope.cancel)).acquire
        { capacity := w.length } = .ok taken) {chunks : List Bytes} (hchunks : chunks.flatten = w) :
    ∃ r s', s.feeds chunks = some (r, s') ∧
      s'.receptions = s.receptions ++ (dispatch s.routes s.peer w).toList := by
  by_cases hpeer : s.peer.generation = 0
  · -- no session: the first chunk is refused
    rw [hroutes.sessions.dispatch_eq_none hpeer]
    cases chunks with
    | nil => exact ⟨_, _, rfl, (List.append_nil _).symm⟩
    | cons chunk rest =>
      refine ⟨.error (failure .invalidState), s, ?_, (List.append_nil _).symm⟩
      simp [feeds, feed, hpeer]
  · rw [s.feeds_eq hpeer, Link.feedChunks_eq (Link.waiting_of_empty hempty) haccepts, hchunks]
    refine ⟨_, _, rfl, ?_⟩
    show (Feeding.pump _ w s.link).2.context.receptions = s.link.context.receptions ++ _
    obtain ⟨header, hheader, hlength⟩ := hw
    have hfour := le_length_of_wordAt hheader
    by_cases htype : bits header 28 4 ≤ 7
    · rw [Link.pump_packet hempty hexpected haccepts hheader htype (by omega) (by omega) hlength.le,
        Link.settle_full (by show bits header 0 16 * 4 ≠ 0; omega) hlength]
      show (match decodeEnvelope w with
        | .error e => _
        | .ok _ => _ : Result ℕ × Link Ingress).2.context.receptions = _
      rw [← routePacket_eq hpool]
      cases hdecode : decodeEnvelope w with
      | error e =>
        simp only [routePacket, hdecode]
        rfl
      | ok view => exact congrArg Ingress.receptions (Link.offer_context _ _ _)
    · have hpump : ∃ e, Feeding.pump (Link.push (routePacket s.routes s.peer)) w s.link =
          (.error e, (Link.copy (w.take 4) s.link).shutdown) :=
        Link.pump_refused hempty hexpected hheader (by tauto)
      obtain ⟨e, hrefused⟩ := hpump
      rw [hrefused]
      have hnone : dispatch s.routes s.peer w = none := by
        by_contra hne
        obtain ⟨r, hr⟩ := Option.ne_none_iff_exists'.mp hne
        obtain ⟨view, route, hview, -⟩ := dispatch_eq_some hr
        obtain ⟨header', hheader', htype', -⟩ := Link.decodeEnvelope_header hview
        rw [hheader] at hheader'
        cases hheader'
        exact htype htype'
      rw [hnone]
      exact (List.append_nil _).symm

end StreamIngress

/-! ## The UDP transport -/

namespace Udp

variable {n : ℕ} {s : Udp n} {l : Lane} {source : Address}

theorem complete_receptions {i : Fin n} {submission : TxSubmission} (result : CompletionResult)
    (hsub : (s.slots i).submission = some submission) :
    receptions (s.complete i submission result).2.log = receptions s.log := by
  obtain ⟨-, -, -, -, -, hlog⟩ := complete_eq result hsub
  rw [hlog, receptions_append]
  exact List.append_nil _

theorem failSlot_receptions (s : Udp n) (i : Fin n) : receptions (s.failSlot i).log = receptions s.log := by
  unfold failSlot
  split
  · rfl
  · next submission hsub => exact complete_receptions _ hsub

theorem foldl_failSlot_receptions (slots : List (Fin n)) (s : Udp n) :
    receptions (slots.foldl failSlot s).log = receptions s.log := by
  induction slots generalizing s with
  | nil => rfl
  | cons i slots ih => exact (ih (s.failSlot i)).trans (s.failSlot_receptions i)

/-- A call of the transport calls no receive callback. -/
theorem call_receptions (s : Udp n) (c : Call) : receptions (s.call c).log = receptions s.log := by
  cases c with
  | send submission =>
    show receptions (if _ then s else _ : Udp n).log = _
    split
    · rfl
    · rcases s.trySend_cases submission with ⟨refusal, h⟩ |
        ⟨peer, l, i, count, credits, admission, counters, -, -, -, h⟩
      · rw [h]
      · rw [h]
        have hlog : (s.admitted submission (peer.remote l) i count credits admission counters).log =
            s.log ++ [.accepted ⟨i, (s.slots i).generation⟩ s.nextSequence submission count] := rfl
        rw [hlog, receptions_append]
        exact List.append_nil _
  | beginCycle => rw [call, s.same_beginCycle.log]
  | close => rfl
  | abort => rfl
  | detach =>
    show receptions s.detach.log = _
    unfold detach
    split
    · rfl
    · exact foldl_failSlot_receptions _ _
  | addPeer peer => rw [call, (same_ok fun s' => same_addPeer).log]
  | associate batch commit => rw [call, (same_ok fun s' => same_associate).log]
  | reserve => rfl
  | publish => rfl
  | outside => rfl
  | install => rfl
  | arrive => rfl

theorem calls_receptions (s : Udp n) (cs : List Call) :
    receptions (s.calls cs).log = receptions s.log := by
  induction cs generalizing s with
  | nil => rfl
  | cons c cs ih => exact (ih (s.call c)).trans (s.call_receptions c)

/-- What the bindings of an address say about a packet. -/
def candidates (s : Udp n) (l : Lane) (source : Address) (e : Envelope) : List (ℕ × Route) :=
  s.peers.filterMap fun p =>
    if p.remote l = source then (s.host.routes.lookup p.remoteSource e).toOption else none

/-- A route is found where all candidates agree. -/
theorem findRoute_eq (s : Udp n) (l : Lane) (source : Address) (e : Envelope) :
    s.findRoute l source e = match s.candidates l source e with
      | [] => none
      | first :: rest => if ∀ c ∈ rest, c.1 = first.1 then some first else none := by
  have hsame (f : PeerBinding → Option (ℕ × Route)) (hf : ∀ p, f p =
      if p.remote l = source then (s.host.routes.lookup p.remoteSource e).toOption else none) :
      s.peers.filterMap f = s.candidates l source e := List.filterMap_congr fun p _ => hf p
  unfold findRoute
  rewrite [hsame]
  · rfl
  · intro p
    cases s.host.routes.lookup p.remoteSource e <;> rfl

/-- The route that is found is that of a peer with the address. -/
theorem findRoute_some {e : Envelope} {found : ℕ × Route} (h : s.findRoute l source e = some found) :
    ∃ p ∈ s.peers, p.remote l = source ∧ s.host.routes.lookup p.remoteSource e = .ok found := by
  rw [findRoute_eq] at h
  split at h
  · cases h
  · next first rest hcandidates =>
    split at h
    · cases h
      have hmem : found ∈ s.candidates l source e := by
        rw [hcandidates]
        exact List.mem_cons_self
      obtain ⟨p, hp, hfound⟩ := List.mem_filterMap.mp hmem
      split at hfound
      · next hremote =>
        exact ⟨p, hp, hremote, toOption_eq_some.mp hfound⟩
      · cases hfound
    · cases h

/-- The address is bound to one peer only. -/
structure BoundTo (s : Udp n) (l : Lane) (source : Address) (peer : PeerSession) : Prop where
  bound : ∃ p ∈ s.peers, p.remote l = source
  only : ∀ p ∈ s.peers, p.remote l = source → p.remoteSource = peer

/-- The routes of an address that is bound to one peer. -/
theorem BoundTo.findRoute (h : s.BoundTo l source peer) (e : Envelope) :
    s.findRoute l source e = (s.host.routes.lookup peer e).toOption := by
  have hcandidates : s.candidates l source e =
      (s.peers.filter fun p => p.remote l = source).filterMap fun _ =>
        (s.host.routes.lookup peer e).toOption := by
    unfold candidates
    rw [List.filterMap_filter]
    refine List.filterMap_congr fun p hp => ?_
    by_cases hremote : p.remote l = source
    · rw [if_pos hremote, if_pos (by simpa using hremote), h.only p hp hremote]
    · rw [if_neg hremote, if_neg (by simpa using hremote)]
  rw [findRoute_eq, hcandidates]
  obtain ⟨p, hp, hremote⟩ := h.bound
  have hmem : p ∈ s.peers.filter fun p => p.remote l = source :=
    List.mem_filter.mpr ⟨hp, by simpa using hremote⟩
  generalize (s.peers.filter fun p => p.remote l = source) = bound at hmem
  cases hlookup : (s.host.routes.lookup peer e).toOption with
  | none => simp
  | some found =>
    cases bound with
    | nil => cases hmem
    | cons p' bound =>
      have hall : ∀ c ∈ bound.filterMap fun _ => some found, c.1 = found.1 := by
        intro c hc
        obtain ⟨_, -, hc⟩ := List.mem_filterMap.mp hc
        cases hc
        rfl
      simp only [List.filterMap_cons]
      rw [if_pos hall]

/-- The buffer of a datagram is dispatched to the route of its address. -/
theorem dispatch_receptions (s : Udp n) (l : Lane) (source : Address) (wire : Bytes)
    (callbacks : Callbacks) : receptions (s.dispatch l source wire callbacks).2.log =
      receptions s.log ++ (dispatchWith (s.findRoute l source) wire).toList := by
  have hnone : ∀ s' : Udp n, receptions s'.log = receptions s.log →
      dispatchWith (s.findRoute l source) wire = none → receptions s'.log = receptions s.log ++
        (dispatchWith (s.findRoute l source) wire).toList := by
    intro s' hsame hempty
    rw [hempty, hsame]
    exact (List.append_nil _).symm
  unfold Udp.dispatch
  cases hheader : decodeEnvelope wire with
  | error e => exact hnone s rfl (by simp only [dispatchWith, hheader])
  | ok view =>
    simp only
    cases hfind : s.findRoute l source view.envelope with
    | none => exact hnone s rfl (by simp only [dispatchWith, hheader, hfind])
    | some found =>
      obtain ⟨position, route⟩ := found
      simp only
      generalize hbefore : (if route.beforeDecode then s.calls callbacks.beforeDecode else s) = s₁
      have hsame : receptions s₁.log = receptions s.log := by
        rw [← hbefore]
        split
        · exact s.calls_receptions _
        · rfl
      split
      · next hlimits =>
        refine hnone s₁ hsame ?_
        simp only [dispatchWith, hheader, hfind]
        rw [if_neg fun h => by obtain ⟨hmin, hmax, -⟩ := h; omega]
      · next hlimits =>
        split
        · next hinvalid =>
          refine hnone s₁ hsame ?_
          simp only [dispatchWith, hheader, hfind]
          rw [if_neg fun h => ?_]
          rw [h.2.2 hinvalid.1] at hinvalid
          cases hinvalid.2
        · next hvalid =>
          have htakes : route.takes view := by
            refine ⟨by omega, by omega, fun hextension => ?_⟩
            cases hext : route.validExtension view with
            | ok u => rfl
            | error e => exact absurd ⟨hextension, by rw [hext]; rfl⟩ hvalid
          cases hpacket : Route.decodePacket wire (route.options view.envelope) with
          | error e =>
            refine hnone s₁ hsame ?_
            simp only [dispatchWith, hheader, hfind, if_pos htakes, hpacket]
          | ok packet =>
            obtain ⟨rx, hrx, hdispatch⟩ := dispatchWith_of_decoded hheader hfind htakes hpacket
            simp only [hrx]
            rw [calls_receptions, note, hdispatch, ← hsame]
            exact receptions_append ..

/-- The lane that the header of a packet names. -/
def laneOf (w : Bytes) : Option Lane :=
  (wordAt w 0).map fun word =>
    lane (PacketType.ofCode (bits word 28 4)) (bits word 28 4 ≥ 6 ∧ bit word 24)

/-- What `receive` has checked when it takes a buffer for a datagram. -/
structure Taken (s : Udp n) (l : Lane) (d : Datagram) (declared : ℕ) : Prop where
  bound : ∃ p ∈ s.peers, p.remote l = d.source
  lane : laneOf d.bytes = some l
  header : ∃ word, wordAt d.bytes 0 = some word ∧ declared = bits word 0 16 * 4

/-- A datagram that a socket returns is discarded, or received into a buffer. -/
theorem receive_cases {io : Io} {d : Datagram} {rest : List Datagram} (callbacks : Callbacks)
    (hopen : s.isOpen) (hpeek : io.peek l = none) (hqueue : s.sockets l = d :: rest) :
    (s.receive l io callbacks = (.ok true, s.discard l io) ∧
      ¬((∃ p ∈ s.peers, p.remote l = d.source) ∧ laneOf d.bytes = some l ∧
        ∃ word, wordAt d.bytes 0 = some word ∧ 4 ≤ bits word 0 16 * 4 ∧
          bits word 0 16 * 4 ≤ s.maximum l ∧ ∃ taken, (s.host.pools l).acquire
            { capacity := bits word 0 16 * 4 } = .ok taken)) ∨
    ∃ declared block pool, s.Taken l d declared ∧
      s.receive l io callbacks = s.fill l d.source declared block pool io callbacks := by
  unfold receive
  rw [if_neg (by simp [hopen]), hpeek, hqueue]
  simp only
  have hsource : (d.into 4).source = d.source := rfl
  have hbytes : (d.into 4).bytes = d.bytes.take 4 := rfl
  rw [hsource, hbytes]
  by_cases hbound : ∃ p ∈ s.peers, p.remote l = d.source
  · rw [if_neg (not_not_intro hbound)]
    by_cases hfour : (d.bytes.take 4).length = 4
    · rw [if_neg (not_not_intro hfour)]
      obtain ⟨word, hword⟩ := @wordAt_isSome d.bytes 0 (by rw [List.length_take] at hfour; omega)
      rw [Link.wordAt_take (Nat.le_refl 4) hword, Option.getD_some]
      by_cases hlane : lane (PacketType.ofCode (bits word 28 4)) (bits word 28 4 ≥ 6 ∧ bit word 24) = l
      · have hlaneOf : laneOf d.bytes = some l := by
          rw [laneOf, hword, Option.map_some, hlane]
        rw [if_neg (not_not_intro hlane)]
        split
        · next hshort =>
          refine .inl ⟨rfl, fun ⟨_, _, word', hword', hle, _⟩ => ?_⟩
          rw [hword] at hword'
          cases hword'
          omega
        · split
          · next hlarge =>
            refine .inl ⟨rfl, fun ⟨_, _, word', hword', _, hle, _⟩ => ?_⟩
            rw [hword] at hword'
            cases hword'
            omega
          · cases hacquire : (s.host.pools l).acquire { capacity := bits word 0 16 * 4 } with
            | error e =>
              refine .inl ⟨rfl, fun ⟨_, _, word', hword', _, _, taken, htaken⟩ => ?_⟩
              rw [hword] at hword'
              cases hword'
              rw [hacquire] at htaken
              cases htaken
            | ok taken => exact .inr ⟨_, _, _, ⟨hbound, hlaneOf, word, hword, rfl⟩, rfl⟩
      · rw [if_pos hlane]
        refine .inl ⟨rfl, fun ⟨_, hlane', _⟩ => hlane ?_⟩
        rw [laneOf, hword, Option.map_some] at hlane'
        exact Option.some.inj hlane'
    · rw [if_pos hfour]
      refine .inl ⟨rfl, fun ⟨_, _, word, hword, _⟩ => hfour ?_⟩
      have := le_length_of_wordAt hword
      rw [List.length_take]
      omega
  · rw [if_pos hbound]
    exact .inl ⟨rfl, fun h => hbound h.1⟩

/-- A datagram that was received into its buffer is dispatched if it is as long as its header says. -/
theorem accept_eq {io : Io} {d : Datagram} {rest : List Datagram} (declared : ℕ)
    (callbacks : Callbacks) (hreceive : io.receive l = none) (hqueue : s.sockets l = d :: rest) :
    s.accept l d.source declared io callbacks =
      if d.bytes.length = declared then (s.removeHead l).dispatch l d.source d.bytes callbacks
      else (.ok true, s.removeHead l) := by
  unfold accept
  rw [hreceive, hqueue]
  simp only
  split
  · next hsource => exact absurd rfl hsource
  · split
    · next hlonger =>
      have hlonger' : declared < d.bytes.length := by simpa [Datagram.into] using hlonger
      rw [if_neg (by omega)]
    · next hlonger =>
      have hle : d.bytes.length ≤ declared := by simpa [Datagram.into] using hlonger
      have hbytes : (d.into declared).bytes = d.bytes := List.take_of_length_le hle
      split
      · next hlength =>
        rw [hbytes] at hlength
        rw [if_neg hlength]
      · next hlength =>
        rw [hbytes] at hlength ⊢
        rw [if_pos (not_not.mp hlength)]
        rfl

/-- What is dispatched to the routes of an address is dispatched to one of its peers. -/
theorem dispatchWith_findRoute {r : Reception} (h : dispatchWith (s.findRoute l source) w = some r) :
    ∃ p ∈ s.peers, p.remote l = source ∧ Transport.dispatch s.host.routes p.remoteSource w = some r := by
  obtain ⟨header, route, hheader, hfind, htakes, hpacket, -⟩ := dispatchWith_eq_some h
  obtain ⟨p, hp, hremote, hlookup⟩ := findRoute_some hfind
  refine ⟨p, hp, hremote, ?_⟩
  obtain ⟨rx, hrx, hdispatch⟩ := dispatchWith_of_decoded hheader hfind htakes hpacket
  obtain ⟨rx', hrx', hdispatch'⟩ := dispatch_of_decoded hheader hlookup htakes hpacket
  rw [hrx] at hrx'
  cases hrx'
  rw [hdispatch', ← h, hdispatch]

/-- A callback gets the datagram at the head of the queue, if at all: its address is that of a peer,
its lane that of the socket, and its bytes are dispatched to the callback. -/
theorem receive_receptions (s : Udp n) (l : Lane) (io : Io) (callbacks : Callbacks) :
    receptions (s.receive l io callbacks).2.log = receptions s.log ∨
      ∃ d rest p r, s.sockets l = d :: rest ∧ p ∈ s.peers ∧ p.remote l = d.source ∧
        laneOf d.bytes = some l ∧ Transport.dispatch s.host.routes p.remoteSource d.bytes = some r ∧
        receptions (s.receive l io callbacks).2.log = receptions s.log ++ [r] := by
  by_cases hopen : s.isOpen
  · cases hpeek : io.peek l with
    | some e =>
      left
      simp only [receive, hopen, not_true_eq_false, if_false, hpeek]
      split <;> rfl
    | none =>
      cases hqueue : s.sockets l with
      | nil =>
        left
        simp only [receive, hopen, not_true_eq_false, if_false, hpeek, hqueue]
      | cons d rest =>
        rcases receive_cases callbacks hopen hpeek hqueue with ⟨heq, -⟩ | ⟨declared, block, pool, htaken, heq⟩
        · left
          rw [heq, (s.discard_same l io).log]
        · rw [heq]
          cases hreceive : io.receive l with
          | some e =>
            left
            simp only [fill, accept, hreceive]
            split <;> rfl
          | none =>
            let s₁ : Udp n := { s with host :=
              { s.host with pools := Function.update s.host.pools l pool } }
            show receptions (s₁.accept l d.source declared io callbacks).2.log = _ ∨ _
            have hlog : (s.fill l d.source declared block pool io callbacks).2.log =
                (s₁.accept l d.source declared io callbacks).2.log := rfl
            rw [hlog, accept_eq declared callbacks hreceive (s := s₁) hqueue]
            split
            · rw [dispatch_receptions]
              have hfind : (s₁.removeHead l).findRoute l d.source = s.findRoute l d.source := rfl
              rw [hfind]
              cases hdispatch : dispatchWith (s.findRoute l d.source) d.bytes with
              | none =>
                left
                exact List.append_nil _
              | some r =>
                obtain ⟨p, hp, hremote, hr⟩ := dispatchWith_findRoute hdispatch
                exact .inr ⟨d, rest, p, r, rfl, hp, hremote, htaken.lane, hr, rfl⟩
            · exact .inl rfl
  · left
    simp [receive, hopen]

/-- A datagram with a packet of a peer is dispatched. -/
theorem receive_dispatches {io : Io} {rest : List Datagram} (callbacks : Callbacks)
    (hopen : s.isOpen) (hpeek : io.peek l = none) (hreceive : io.receive l = none)
    (hqueue : s.sockets l = ⟨source, w⟩ :: rest) (hbound : s.BoundTo l source peer)
    (hlane : laneOf w = some l) (hw : Framed w) (hmaximum : w.length ≤ s.maximum l)
    (hpool : ∃ taken, (s.host.pools l).acquire { capacity := w.length } = .ok taken) :
    receptions (s.receive l io callbacks).2.log =
      receptions s.log ++ (Transport.dispatch s.host.routes peer w).toList := by
  obtain ⟨word, hword, hlength⟩ := hw
  have hfour := le_length_of_wordAt hword
  rcases receive_cases callbacks hopen hpeek hqueue with ⟨-, hnot⟩ | ⟨declared, block, pool, htaken, heq⟩
  · refine absurd ⟨hbound.bound, hlane, word, hword, by omega, by omega, ?_⟩ hnot
    rw [← hlength]
    exact hpool
  · obtain ⟨word', hword', rfl⟩ := htaken.header
    rw [show (⟨source, w⟩ : Datagram).bytes = w from rfl, hword] at hword'
    cases hword'
    let s₁ : Udp n := { s with host :=
      { s.host with pools := Function.update s.host.pools l pool } }
    have hlog : (s.fill l source (bits word 0 16 * 4) block pool io callbacks).2.log =
        (s₁.accept l source (bits word 0 16 * 4) io callbacks).2.log := rfl
    rw [heq, hlog, accept_eq (d := ⟨source, w⟩) _ callbacks hreceive (s := s₁) hqueue, if_pos hlength,
      dispatch_receptions]
    have hfind : (s₁.removeHead l).findRoute l source =
        fun e => (s.host.routes.lookup peer e).toOption := funext hbound.findRoute
    rw [hfind]
    rfl

/-! ### Queues -/

/-- The datagrams that arrive during some calls. -/
def arrivals (l : Lane) (cs : List Call) : List Datagram :=
  cs.filterMap fun c => match c with
    | .arrive l' d => if l' = l then some d else none
    | _ => none

/-- The queues after some calls: what has arrived is behind what was there, unless the transport was
detached and its sockets closed. -/
def Queued (s s' : Udp n) (cs : List Call) : Prop :=
  (∀ l, s'.sockets l <:+ s.sockets l ++ arrivals l cs) ∧
    (s'.detached = false → s.detached = false ∧ ∀ l, s'.sockets l = s.sockets l ++ arrivals l cs)

theorem queued_same {s' : Udp n} {c : Call} (hsockets : s'.sockets = s.sockets)
    (hdetached : s'.detached = s.detached) (hnone : ∀ l, arrivals l [c] = []) : Queued s s' [c] := by
  refine ⟨fun l => ?_, fun h => ⟨hdetached ▸ h, fun l => ?_⟩⟩
  · rw [hnone, List.append_nil, hsockets]
  · rw [hnone, List.append_nil, hsockets]

theorem foldl_failSlot_detached (slots : List (Fin n)) (s : Udp n) :
    (slots.foldl failSlot s).detached = s.detached := by
  induction slots generalizing s with
  | nil => rfl
  | cons i slots ih =>
    have hone : (s.failSlot i).detached = s.detached := by
      unfold failSlot
      split <;> rfl
    exact (ih (s.failSlot i)).trans hone

/-- A call queues what it submits. -/
theorem call_queued (s : Udp n) (c : Call) : Queued s (s.call c) [c] := by
  have hok : ∀ r : Result (Udp n), (∀ s', r = .ok s' → s'.sockets = s.sockets ∧
      s'.detached = s.detached) → (s.ok r).sockets = s.sockets ∧ (s.ok r).detached = s.detached := by
    intro r h
    cases r with
    | ok s' => exact h s' rfl
    | error e => exact ⟨rfl, rfl⟩
  cases c with
  | send submission =>
    refine queued_same ?_ ?_ fun _ => rfl
    all_goals
      simp only [call]
      split
      · rfl
      · rcases s.trySend_cases submission with ⟨refusal, h⟩ |
          ⟨peer, l, i, count, credits, admission, counters, -, -, -, h⟩
        · rw [h]
        · rw [h]
          rfl
  | beginCycle =>
    refine queued_same ?_ ?_ fun _ => rfl
    all_goals
      simp only [call, beginCycle]
      split <;> rfl
  | close => exact queued_same rfl rfl fun _ => rfl
  | abort => exact queued_same rfl rfl fun _ => rfl
  | detach =>
    show Queued s s.detach _
    unfold detach
    split
    · exact queued_same rfl rfl fun _ => rfl
    · refine ⟨fun l => List.nil_suffix, fun h => ?_⟩
      have hdetached := foldl_failSlot_detached (List.finRange n)
        { s with isOpen := false, aborting := true, detached := true }
      rw [show ({ (List.finRange n).foldl failSlot _ with sockets := fun _ => [] } : Udp n).detached =
        ((List.finRange n).foldl failSlot _).detached from rfl, hdetached] at h
      cases h
  | addPeer peer =>
    obtain ⟨hsockets, hdetached⟩ := hok (s.addPeer peer) fun s' h => by
      unfold addPeer at h
      simp only [bind_eq_ok, rejectIf_eq_ok, exists_const, pure_eq_ok, Except.ok.injEq] at h
      obtain ⟨-, -, -, -, rfl⟩ := h
      exact ⟨rfl, rfl⟩
    exact queued_same hsockets hdetached fun _ => rfl
  | associate batch commit =>
    obtain ⟨hsockets, hdetached⟩ := hok (s.associate batch commit) fun s' h => by
      unfold associate at h
      simp only [bind_eq_ok, rejectIf_eq_ok, exists_const, pure_eq_ok, Except.ok.injEq] at h
      obtain ⟨-, candidate, -, rfl⟩ := h
      cases commit <;> exact ⟨rfl, rfl⟩
    exact queued_same hsockets hdetached fun _ => rfl
  | reserve => exact queued_same rfl rfl fun _ => rfl
  | publish => exact queued_same rfl rfl fun _ => rfl
  | outside => exact queued_same rfl rfl fun _ => rfl
  | install => exact queued_same rfl rfl fun _ => rfl
  | arrive l' d =>
    have heq : ∀ l, (s.call (.arrive l' d)).sockets l = s.sockets l ++ arrivals l [.arrive l' d] := by
      intro l
      by_cases hl : l' = l
      · subst hl
        simp [call, arrivals]
      · simp [call, arrivals, hl, Function.update_of_ne (Ne.symm hl)]
    exact ⟨fun l => by rw [heq], fun h => ⟨h, heq⟩⟩

/-- Calls that are queued one after the other. -/
theorem Queued.append {s₁ s₂ : Udp n} {cs cs' : List Call} (h : Queued s s₁ cs)
    (h' : Queued s₁ s₂ cs') : Queued s s₂ (cs ++ cs') := by
  obtain ⟨hsuffix, hkept⟩ := h
  obtain ⟨hsuffix', hkept'⟩ := h'
  have happend : ∀ l, arrivals l (cs ++ cs') = arrivals l cs ++ arrivals l cs' :=
    fun l => List.filterMap_append
  refine ⟨fun l => (hsuffix' l).trans ?_, fun h => ?_⟩
  · rw [happend, ← List.append_assoc]
    obtain ⟨front, hfront⟩ := hsuffix l
    exact ⟨front, by rw [← hfront, List.append_assoc]⟩
  · obtain ⟨hdetached, heq'⟩ := hkept' h
    obtain ⟨hdetached', heq⟩ := hkept hdetached
    refine ⟨hdetached', fun l => ?_⟩
    rw [heq' l, heq l, happend, List.append_assoc]

theorem queued_refl (s : Udp n) : Queued s s [] :=
  ⟨fun l => by simp [arrivals], fun h => ⟨h, fun l => by simp [arrivals]⟩⟩

theorem calls_queued (s : Udp n) (cs : List Call) : Queued s (s.calls cs) cs := by
  induction cs generalizing s with
  | nil => exact s.queued_refl
  | cons c cs ih => exact (s.call_queued c).append (ih (s.call c))

/-- Only the callbacks of a packet add to the queues while it is dispatched. -/
theorem dispatch_queued (s : Udp n) (l : Lane) (source : Address) (wire : Bytes)
    (callbacks : Callbacks) : ∃ made, made.Sublist (callbacks.beforeDecode ++ callbacks.receive) ∧
      Queued s (s.dispatch l source wire callbacks).2 made := by
  unfold Udp.dispatch
  split
  · exact ⟨[], List.nil_sublist _, s.queued_refl⟩
  · split
    · exact ⟨[], List.nil_sublist _, s.queued_refl⟩
    · next position route _ =>
      have hbefore : ∃ before, before.Sublist callbacks.beforeDecode ∧
          Queued s (if route.beforeDecode then s.calls callbacks.beforeDecode else s) before := by
        split
        · exact ⟨_, List.Sublist.refl _, s.calls_queued _⟩
        · exact ⟨[], List.nil_sublist _, s.queued_refl⟩
      obtain ⟨before, hsublist, hqueued⟩ := hbefore
      have hearly : before.Sublist (callbacks.beforeDecode ++ callbacks.receive) :=
        hsublist.trans (List.sublist_append_left _ _)
      simp only
      split
      · exact ⟨before, hearly, hqueued⟩
      · split
        · exact ⟨before, hearly, hqueued⟩
        · split
          · exact ⟨before, hearly, hqueued⟩
          · split
            · exact ⟨before, hearly, hqueued⟩
            · refine ⟨before ++ callbacks.receive, hsublist.append (List.Sublist.refl _),
                hqueued.append ?_⟩
              exact calls_queued (note _ _) callbacks.receive

/-- A socket that returns its head loses it, and nothing else. -/
theorem receive_removes {io : Io} {d : Datagram} {rest : List Datagram} (callbacks : Callbacks)
    (hopen : s.isOpen) (hpeek : io.peek l = none) (hreceive : io.receive l = none)
    (hqueue : s.sockets l = d :: rest) :
    ∃ made, made.Sublist (callbacks.beforeDecode ++ callbacks.receive) ∧
      Queued (s.removeHead l) (s.receive l io callbacks).2 made := by
  rcases receive_cases callbacks hopen hpeek hqueue with ⟨heq, -⟩ | ⟨declared, block, pool, -, heq⟩
  · refine ⟨[], List.nil_sublist _, ?_⟩
    rw [heq, discard, if_neg (by simp [hreceive])]
    exact queued_refl _
  · let s₁ : Udp n := { s with host :=
      { s.host with pools := Function.update s.host.pools l pool } }
    have hfill : ∀ made, Queued (s₁.removeHead l) (s₁.accept l d.source declared io callbacks).2 made →
        Queued (s.removeHead l) (s.fill l d.source declared block pool io callbacks).2 made :=
      fun made h => h
    rw [heq]
    rw [accept_eq declared callbacks hreceive (s := s₁) hqueue] at hfill
    split at hfill
    · obtain ⟨made, hsublist, hqueued⟩ :=
        (s₁.removeHead l).dispatch_queued l d.source d.bytes callbacks
      exact ⟨made, hsublist, hfill made hqueued⟩
    · exact ⟨[], List.nil_sublist _, hfill [] (queued_refl _)⟩

end Udp

/-! ## The three paths -/

/-- The loopback, the UDP transport and the stream ingress call the same callback for a packet, or
none of them calls one; a callback only gets what is decoded for its route, and a datagram that the
UDP transport looks at is removed from its queue. -/
theorem ingress_alike {routes : RouteRegistry} (hroutes : routes.Built) (peer : PeerSession) {w : Bytes}
    (hw : Framed w) :
    -- each path calls what `dispatch` names
    (∀ (n : ℕ) (s : Loopback n) (i : Fin n) (submission : TxSubmission) (callbacks : Loopback.Callbacks),
      s.Reachable → s.host.routes = routes → (s.slots i).submission = some submission →
      submission.source = peer → submission.fault = {} →
      copySegments submission.storage.segments = .ok w →
      receptions (s.progress ⟨i, (s.slots i).generation⟩ callbacks).2.log =
        receptions s.log ++ (dispatch routes peer w).toList) ∧
    (∀ (n : ℕ) (s : Udp n) (l : Lane) (source : Address) (rest : List Datagram) (io : Io)
      (callbacks : Udp.Callbacks), s.isOpen → s.host.routes = routes →
      s.sockets l = ⟨source, w⟩ :: rest → io.peek l = none → io.receive l = none →
      s.BoundTo l source peer → Udp.laneOf w = some l → w.length ≤ s.maximum l →
      (∃ taken, (s.host.pools l).acquire { capacity := w.length } = .ok taken) →
      receptions (s.receive l io callbacks).2.log =
        receptions s.log ++ (dispatch routes peer w).toList) ∧
    (∀ (s : StreamIngress) (chunks : List Bytes), s.routes = routes → s.peer = peer →
      s.link.framer.accepts → s.link.framer.buffer = [] → s.link.framer.expected = 0 →
      w.length ≤ s.link.framer.maximumPacketBytes →
      (∀ header, decodeEnvelope w = .ok header → ∃ taken, (s.link.context.pools
        (lane header.envelope.type header.envelope.cancel)).acquire { capacity := w.length } =
          .ok taken) → chunks.flatten = w →
      ∃ r s', s.feeds chunks = some (r, s') ∧
        s'.receptions = s.receptions ++ (dispatch routes peer w).toList) ∧
    -- what a callback gets
    (∀ peer w r, dispatch routes peer w = some r → ∃ header route, decodeEnvelope w = .ok header ∧
      routes.lookup peer header.envelope = .ok (r.route, route) ∧
      Route.decodePacket w (route.options header.envelope) = .ok r.packet ∧ r.rx.content = w) ∧
    -- no other bytes reach a callback
    (∀ (n : ℕ) (s : Loopback n) (token : TxToken) (callbacks : Loopback.Callbacks), s.Reachable →
      s.host.routes = routes → ∀ r ∈ receptions (s.progress token callbacks).2.log,
        r ∈ receptions s.log ∨ ∃ submission bytes, dispatch routes submission.source bytes = some r ∧
          copySegments (TxSubmission.storage submission).segments = .ok bytes) ∧
    (∀ (n : ℕ) (s : Udp n) (l : Lane) (io : Io) (callbacks : Udp.Callbacks), s.host.routes = routes →
      receptions (s.receive l io callbacks).2.log = receptions s.log ∨
        ∃ d rest p r, s.sockets l = d :: rest ∧ p ∈ s.peers ∧ p.remote l = d.source ∧
          Udp.laneOf d.bytes = some l ∧ dispatch routes p.remoteSource d.bytes = some r ∧
          receptions (s.receive l io callbacks).2.log = receptions s.log ++ [r]) ∧
    (∀ (s s' : StreamIngress) (input : Bytes) (r : Result ℕ), s.routes = routes →
      s.feed input = some (r, s') → ∀ reception ∈ s'.receptions, reception ∈ s.receptions ∨
        ∃ bytes, dispatch routes s.peer bytes = some reception) ∧
    -- a datagram leaves its queue
    ∀ (n : ℕ) (s : Udp n) (l : Lane) (d : Datagram) (rest : List Datagram) (io : Io)
      (callbacks : Udp.Callbacks), s.isOpen → s.sockets l = d :: rest → io.peek l = none →
      io.receive l = none → ∃ made, made.Sublist (callbacks.beforeDecode ++ callbacks.receive) ∧
        Udp.Queued (s.removeHead l) (s.receive l io callbacks).2 made := by
  refine ⟨?_, ?_, ?_, ?_, ?_, ?_, ?_, ?_⟩
  · rintro n s i submission callbacks hs rfl hsub rfl hfault hcopied
    exact hs.progress_receptions callbacks hsub hfault hcopied
  · rintro n s l source rest io callbacks hopen rfl hqueue hpeek hreceive hbound hlane hmaximum hpool
    exact Udp.receive_dispatches callbacks hopen hpeek hreceive hqueue hbound hlane hw hmaximum hpool
  · rintro s chunks rfl rfl haccepts hempty hexpected hmaximum hpool hchunks
    exact s.feeds_receptions hroutes haccepts hempty hexpected hw hmaximum hpool hchunks
  · intro peer w r hr
    obtain ⟨header, route, hheader, hlookup, -, hpacket, hcontent⟩ := dispatch_eq_some hr
    exact ⟨header, route, hheader, hlookup, hpacket, hcontent⟩
  · rintro n s token callbacks hs rfl r hr
    rcases hs.progress_spec token callbacks with ⟨e, hrefused⟩ |
      ⟨q, submission, count, -, -, bytes, events, result, hcopied, houtcome, hserved⟩
    · rw [hrefused] at hr
      exact .inl hr
    · rw [← Loopback.receptions_served, hserved, receptions_append, Loopback.receptions_served,
        receptions_append] at hr
      rcases List.mem_append.mp hr with hr | hr
      · exact .inl hr
      · rcases List.mem_append.mp hr with hr | hr
        · exact .inr ⟨submission, bytes, houtcome.mem_receptions r hr, hcopied⟩
        · cases hr
  · rintro n s l io callbacks rfl
    exact s.receive_receptions l io callbacks
  · rintro s s' input r rfl hfeed
    exact s.feed_dispatched hfeed
  · intro n s l d rest io callbacks hopen hqueue hpeek hreceive
    exact Udp.receive_removes callbacks hopen hpeek hreceive hqueue

namespace StreamIngress.Bench

/-- A packet of Data of stream 7. -/
def packet : Bytes := [0x10000003, 7, 0].flatMap be32

/-- An ingress for that stream. -/
def ingress : StreamIngress where
  routes := Loopback.Bench.host.routes
  peer := ⟨1, 1⟩
  link := { framer := { capacity := 64, maximumPacketBytes := 64 }
            context := { pools := Loopback.Bench.host.pools } }

theorem built : ingress.routes.Built :=
  have hadded : RouteRegistry.add { capacity := 4 }
      { key := { source := ⟨1, 1⟩, streamId := some 7 }, context := 1 } = .ok _ := rfl
  .freeze (.add (.new 4) hadded)

end StreamIngress.Bench

open StreamIngress.Bench in
/-- The packet is fed in two pieces and reaches its route once. -/
theorem ingress_alike_stream : ∃ r s', ingress.feeds [packet.take 5, packet.drop 5] = some (r, s') ∧
    s'.receptions.length = 1 := by
  have hw : Framed packet := ⟨0x10000003, rfl, rfl⟩
  obtain ⟨-, -, hstream, -⟩ := ingress_alike built ⟨1, 1⟩ hw
  have hpool : ∀ header, decodeEnvelope packet = .ok header → ∃ taken, (ingress.link.context.pools
      (lane header.envelope.type header.envelope.cancel)).acquire { capacity := packet.length } =
        .ok taken := by
    intro header _
    cases lane header.envelope.type header.envelope.cancel <;> exact ⟨_, rfl⟩
  obtain ⟨r, s', hfeeds, hreceptions⟩ := hstream ingress [packet.take 5, packet.drop 5] rfl rfl rfl rfl
    rfl (by decide) hpool rfl
  refine ⟨r, s', hfeeds, ?_⟩
  rw [hreceptions]
  rfl

end Vita.Transport
