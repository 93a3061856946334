import Vita.Runtime.Association
import Vita.Transaction.ControllerTheorems

/-!
# Associations are installed as a whole

The preflight of `install_association` looks at the capacities, the relationship and the transport; the
installs after it are meant not to fail. They do not, as long as the stream identifier is new. It is new
for a stream that is added. For a recovery it was new when `recover_stream` accepted it, but the
association is installed later, and another stream may have recovered under the same identifier since.

Main results:
- `installAssociation_fresh`: under a new identifier everything is installed or nothing;
- `Sound.step`: the identifiers of all routes, counters and relationships are in the history;
- `associations_whole`.
-/

namespace Vita.Runtime.Association

open Checked State Codec Transport
open Transaction (TransactionKey)
open Transaction.Controller (Registry Sizes)

/-! ## Routes -/

/-- What of a key two routes are compared by. -/
def meaning (k : RouteKey) : PeerSession × Option UInt32 × PacketType ×
    Option (UInt32 × UInt16 × UInt16) × (IdentifierKind × List UInt32) × IdentifierKind × List UInt32 :=
  (k.source, k.streamId, k.type,
    k.packetClass.map fun c => (c.oui, c.informationClass, c.packetClass),
    (k.controllee.kind, k.controllee.wireWords), (k.controller.kind, k.controller.wireWords))

theorem sameClass_iff {a b : Option ClassId} : sameClass a b ↔
    (a.map fun c => (c.oui, c.informationClass, c.packetClass)) =
      b.map fun c => (c.oui, c.informationClass, c.packetClass) := by
  cases a <;> cases b <;> simp [sameClass]

theorem sameRoute_iff {a b : RouteKey} : sameRoute a b ↔ meaning a = meaning b := by
  simp only [sameRoute, sameIdentifier, meaning, decide_eq_true_eq, Prod.mk.injEq, sameClass_iff]

/-- A route that a registry takes. -/
structure WellFormed (x : Route) : Prop where
  generation : x.key.source.generation ≠ 0
  payload : x.minimumPayloadBytes ≤ x.maximumPayloadBytes
  oui : ∀ c ∈ x.key.packetClass, c.oui ≤ 0xffffff
  controllee : RouteRegistry.emptyUuid x.key.controllee = false
  controller : RouteRegistry.emptyUuid x.key.controller = false
  packet : isExtension x.key.type = false
  streamId : hasSid x.key.type = x.key.streamId.isSome
  command : isCommand x.key.type ∨
    x.key.controllee.kind = .absent ∧ x.key.controller.kind = .absent

namespace RouteRegistry

/-- A route with a new key is added at the end. -/
theorem add_fresh {r : RouteRegistry} {x : Route} (hfrozen : r.frozen = false) (h : WellFormed x)
    (hnew : ∀ y ∈ r.routes, meaning y.key ≠ meaning x.key) (hroom : r.routes.length < r.capacity) :
    r.add x = .ok { r with routes := r.routes ++ [x] } := by
  unfold RouteRegistry.add
  rw [rejectIf_of_not (by simp [hfrozen]), ok_bind,
    rejectIf_of_not (not_or.mpr ⟨h.generation, not_lt.mpr h.payload⟩), ok_bind,
    rejectIf_of_not (by rintro ⟨c, hc, hlt⟩; exact absurd (h.oui c hc) (UInt32.not_le.mpr hlt)), ok_bind,
    rejectIf_of_not (by simp [h.controllee, h.controller]), ok_bind,
    rejectIf_of_not (by simp [h.packet]), ok_bind, rejectIf_of_not ?_, ok_bind,
    rejectIf_of_not ?_, ok_bind, rejectIf_of_not ?_, ok_bind, rejectIf_of_not (not_le.mpr hroom), ok_bind]
  · rfl
  · rintro ⟨y, hy, hsame⟩
    exact hnew y hy (sameRoute_iff.mp hsame)
  · rintro ⟨hcommand, habsent⟩
    rcases h.command with hc | ⟨hce, hcr⟩
    · exact hcommand hc
    · exact habsent.elim (fun hne => hne hce) fun hne => hne hcr
  · rw [h.streamId]
    cases x.key.streamId <;> simp

/-- Routes with new and distinct keys are all added. -/
theorem foldlM_add_fresh {batch : List Route} {r : RouteRegistry} (hfrozen : r.frozen = false)
    (h : ∀ x ∈ batch, WellFormed x) (hdistinct : (batch.map fun x => meaning x.key).Nodup)
    (hnew : ∀ x ∈ batch, ∀ y ∈ r.routes, meaning y.key ≠ meaning x.key)
    (hroom : r.routes.length + batch.length ≤ r.capacity) :
    batch.foldlM RouteRegistry.add r = .ok { r with routes := r.routes ++ batch } := by
  induction batch generalizing r with
  | nil => simp
  | cons x batch ih =>
    rw [List.map_cons, List.nodup_cons] at hdistinct
    rw [List.length_cons] at hroom
    rw [List.foldlM_cons, add_fresh hfrozen (h x List.mem_cons_self) (hnew x List.mem_cons_self)
      (by omega), ok_bind, ih (r := { r with routes := r.routes ++ [x] }) hfrozen
      (fun y hy => h y (List.mem_cons_of_mem x hy)) hdistinct.2]
    · simp
    · intro y hy z hz
      rcases List.mem_append.mp hz with hz | hz
      · exact hnew y (List.mem_cons_of_mem x hy) z hz
      · rw [List.mem_singleton.mp hz]
        intro hsame
        exact hdistinct.1 (hsame ▸ List.mem_map_of_mem hy)
    · simp only [List.length_append, List.length_singleton]
      omega

/-- A batch of new routes is installed. -/
theorem install_fresh {batch : List Route} {r : RouteRegistry} (h : ∀ x ∈ batch, WellFormed x)
    (hdistinct : (batch.map fun x => meaning x.key).Nodup)
    (hnew : ∀ x ∈ batch, ∀ y ∈ r.routes, meaning y.key ≠ meaning x.key)
    (hroom : r.routes.length + batch.length ≤ r.capacity) :
    r.install batch = .ok { r with routes := r.routes ++ batch } := by
  unfold RouteRegistry.install
  rw [foldlM_add_fresh (r := { r with frozen := false }) rfl h hdistinct hnew hroom]
  rfl

/-- Routes with distinct keys are told apart by what they are compared by. -/
theorem getElem_unique {routes : List Route} (hdistinct : (routes.map fun x => meaning x.key).Nodup)
    {i j : ℕ} {x y : Route} (hx : routes[i]? = some x) (hy : routes[j]? = some y)
    (hsame : sameRoute x.key y.key) : i = j := by
  have hx' : (routes.map fun x => meaning x.key)[i]? = some (meaning x.key) := by simp [hx]
  have hy' : (routes.map fun x => meaning x.key)[j]? = some (meaning y.key) := by simp [hy]
  have hi : i < (routes.map fun x => meaning x.key).length := by
    rw [List.length_map]
    exact (List.getElem?_eq_some_iff.mp hx).1
  exact (List.getElem?_inj hi hdistinct).mp (by rw [hx', hy', sameRoute_iff.mp hsame])

/-- With distinct keys a packet has at most one route. -/
theorem lookup_unique {r : RouteRegistry} (hfrozen : r.frozen)
    (hdistinct : (r.routes.map fun x => meaning x.key).Nodup) (peer : PeerSession) (e : Envelope) :
    (r.lookup peer e = .error (failure .unsupportedCapability) ∧
      ∀ x ∈ r.routes, ¬sameRoute x.key (RouteRegistry.wanted peer e)) ∨
    ∃ i x, r.lookup peer e = .ok (i, x) ∧ r.routes[i]? = some x ∧
      ∀ j y, r.routes[j]? = some y → sameRoute y.key (RouteRegistry.wanted peer e) → j = i := by
  have hmem (i : ℕ) (x : Route) : (x, i) ∈ r.routes.zipIdx ↔ r.routes[i]? = some x :=
    List.mem_zipIdx_iff_getElem?
  have hsingle (i j : ℕ) (x y : Route) (hx : r.routes[i]? = some x) (hy : r.routes[j]? = some y)
      (hsx : sameRoute x.key (RouteRegistry.wanted peer e))
      (hsy : sameRoute y.key (RouteRegistry.wanted peer e)) : j = i :=
    getElem_unique hdistinct hy hx
      (sameRoute_iff.mpr ((sameRoute_iff.mp hsy).trans (sameRoute_iff.mp hsx).symm))
  unfold RouteRegistry.lookup
  rw [rejectIf_of_not (by simp [hfrozen]), ok_bind]
  generalize hfound : r.routes.zipIdx.filter _ = found
  have hfind (i : ℕ) (x : Route) : (x, i) ∈ found ↔
      r.routes[i]? = some x ∧ sameRoute x.key (RouteRegistry.wanted peer e) := by
    rw [← hfound, List.mem_filter, hmem]
  match found with
  | [] =>
    refine .inl ⟨rfl, fun x hx hsame => ?_⟩
    obtain ⟨i, hi⟩ := List.getElem?_of_mem hx
    exact absurd ((hfind i x).mpr ⟨hi, hsame⟩) List.not_mem_nil
  | [(x, i)] =>
    have hx := (hfind i x).mp List.mem_cons_self
    exact .inr ⟨i, x, rfl, hx.1, fun j y hy hsame => hsingle i j x y hx.1 hy hx.2 hsame⟩
  | (x, i) :: (y, j) :: rest =>
    -- two routes of one packet would be the same
    have hx := (hfind i x).mp List.mem_cons_self
    have hy := (hfind j y).mp (List.mem_cons_of_mem _ List.mem_cons_self)
    obtain rfl := hsingle i j x y hx.1 hy.1 hx.2 hy.2
    obtain rfl : x = y := Option.some.inj (hx.1.symm.trans hy.1)
    have hnodup : (r.routes.zipIdx.filter fun route =>
        sameRoute route.1.key (RouteRegistry.wanted peer e)).Nodup :=
      List.Nodup.filter _ (List.Nodup.of_map Prod.snd (by
        rw [List.zipIdx_map_snd]
        exact List.nodup_range'))
    rw [hfound, List.nodup_cons] at hnodup
    exact absurd List.mem_cons_self hnodup.1

end RouteRegistry

/-! ## Counters -/

namespace CounterRegistry

/-- A batch of new keys is installed, with counts of zero. -/
theorem install_fresh {batch : List CounterKey} {r : CounterRegistry}
    (h : ∀ key ∈ batch, CounterRegistry.malformed key = false) (hdistinct : batch.Nodup)
    (hnew : ∀ key ∈ batch, key ∉ r.entries.map Prod.fst)
    (hroom : r.entries.length + batch.length ≤ r.capacity) :
    r.install batch = .ok { r with entries := r.entries ++ batch.map fun key => (key, 0) } := by
  unfold CounterRegistry.install
  induction batch generalizing r with
  | nil => simp
  | cons key batch ih =>
    rw [List.nodup_cons] at hdistinct
    rw [List.length_cons] at hroom
    have hinsert : CounterRegistry.insert .identityConflict r key =
        .ok { r with entries := r.entries ++ [(key, 0)] } := by
      unfold CounterRegistry.insert
      rw [rejectIf_of_not (by simp [h key List.mem_cons_self]), ok_bind,
        rejectIf_of_not (hnew key List.mem_cons_self), ok_bind, rejectIf_of_not (by omega), ok_bind]
      rfl
    rw [List.foldlM_cons, hinsert, ok_bind, ih (r := { r with entries := r.entries ++ [(key, 0)] })
      (fun k hk => h k (List.mem_cons_of_mem key hk)) hdistinct.2]
    · simp
    · intro k hk hmem
      rw [List.map_append, List.mem_append] at hmem
      rcases hmem with hmem | hmem
      · exact hnew k (List.mem_cons_of_mem key hk) hmem
      · rw [List.map_singleton, List.mem_singleton] at hmem
        have hkey : k = key := hmem
        exact hdistinct.1 (hkey ▸ hk)
    · simp only [List.length_append, List.length_singleton]
      omega

/-- A count changes no key. -/
theorem accept_keys {r r' : CounterRegistry} {key : CounterKey} {c : UInt8}
    (h : r.accept key c = .ok r') : r'.entries.map Prod.fst = r.entries.map Prod.fst := by
  have hloop : ∀ entries entries' : List (CounterKey × UInt8),
      CounterRegistry.acceptIn key c entries = .ok entries' →
      entries'.map Prod.fst = entries.map Prod.fst := by
    intro entries
    induction entries with
    | nil => nofun
    | cons entry rest ih =>
      obtain ⟨k, count⟩ := entry
      intro entries' hentries
      unfold CounterRegistry.acceptIn at hentries
      split at hentries
      · split at hentries
        · cases hentries
        · cases hentries
          rfl
      · simp only [bind_eq_ok, pure_eq_ok, Except.ok.injEq] at hentries
        obtain ⟨rest', hrest, rfl⟩ := hentries
        rw [List.map_cons, List.map_cons, ih rest' hrest]
  simp only [CounterRegistry.accept, bind_eq_ok, rejectIf_eq_ok, exists_const, pure_eq_ok,
    Except.ok.injEq] at h
  obtain ⟨-, entries, hentries, rfl⟩ := h
  exact hloop r.entries entries hentries

end CounterRegistry

/-! ## Relationships -/

/-- The relationships are the same, apart from their message numbers. -/
def SameRelationships (r r' : Registry controllerSizes) : Prop :=
  ∀ j, (r'.relationships j).used = (r.relationships j).used ∧
    (r'.relationships j).identity = (r.relationships j).identity

theorem SameRelationships.refl (r : Registry controllerSizes) : SameRelationships r r :=
  fun _ => ⟨rfl, rfl⟩

theorem SameRelationships.of_eq {r r' : Registry controllerSizes}
    (h : r'.relationships = r.relationships) : SameRelationships r r' := by
  intro j
  rw [h]
  exact ⟨rfl, rfl⟩

/-- A higher message id is no other relationship. -/
theorem SameRelationships.raise {r : Registry controllerSizes}
    (j : Fin controllerSizes.relationships) (next : ℕ) :
    SameRelationships r (r.setRelationship j { r.relationships j with nextMid := next }) := by
  intro k
  show (Function.update r.relationships j _ k).used = _ ∧ (Function.update r.relationships j _ k).identity = _
  by_cases hk : k = j
  · subst hk
    rw [Function.update_self]
    exact ⟨rfl, rfl⟩
  · rw [Function.update_of_ne hk]
    exact ⟨rfl, rfl⟩

theorem onRecord_relationships {α : Type} (handle : Transaction.Controller.ControllerHandle)
    (f : Transaction.Controller.Record → Result (α × Transaction.Controller.Record))
    (r : Registry controllerSizes) : (r.onRecord handle f).2.relationships = r.relationships := by
  unfold Registry.onRecord
  split
  · rfl
  · split <;> rfl

/-- An advance of the records leaves the relationships. -/
theorem advanceFrom_relationships (now : ℕ) (rest : List (Fin controllerSizes.records))
    (r : Registry controllerSizes) : (Registry.advanceFrom now rest r).2.relationships =
      r.relationships := by
  induction rest generalizing r with
  | nil => rfl
  | cons i rest ih =>
    unfold Registry.advanceFrom
    split
    · exact ih r
    · split
      · rfl
      · split
        · rfl
        · exact ih _

/-- Only `register_relationship` adds a relationship, and no call changes or removes one. -/
theorem call_relationships (r : Registry controllerSizes) (call : Registry.Call)
    (h : VitaRuntime.registers call = false) : SameRelationships r (r.call call) := by
  cases call with
  | registerRelationship => cases h
  | resumeAfter slot watermark =>
    show SameRelationships r (r.resumeAfter slot watermark).2
    unfold Registry.resumeAfter
    split
    · exact .refl r
    · split
      · exact .refl r
      · dsimp only
        split
        · exact .raise _ _
        · exact .refl r
  | track slot request now timeoutNs =>
    show SameRelationships r (r.track slot request now timeoutNs).2
    rcases Registry.track_cases r slot request now timeoutNs with
      ⟨err, heq⟩ | ⟨j, i, record, tracked, -, -, -, -, -, -, -, -, -, heq⟩
    · rw [heq]
      exact .refl r
    · rw [heq]
      exact SameRelationships.raise j _
  | receive generation peer wire now =>
    refine .of_eq ?_
    show (r.receive generation peer wire now).2.relationships = r.relationships
    unfold Registry.receive
    split
    · rfl
    · dsimp only
      split
      · rfl
      · split
        · rfl
        · split
          · rfl
          · split <;> rfl
  | advance now => exact .of_eq (advanceFrom_relationships now _ r)
  | registerCancel handle packet now timeoutNs => exact .of_eq (onRecord_relationships handle _ r)
  | localSend handle succeeded => exact .of_eq (onRecord_relationships handle _ r)
  | markTerminal handle cancellation now => exact .of_eq (onRecord_relationships handle _ r)
  | retain handle => exact .of_eq (onRecord_relationships handle _ r)
  | release handle => exact .of_eq (onRecord_relationships handle _ r)
  | expire now => exact .of_eq rfl

/-! ## One association -/

/-- A bank that `add_controllee` or a recovery may make. -/
structure Proper (s : Bank) : Prop where
  generation : s.generation ≠ 0
  peers : s.config.controllerPeer ≠ s.config.controlleePeer

variable {h : Host} {s : Bank}

/-- The class identifiers fit the wire. -/
theorem classId_oui (config : StreamConfig) (type : PacketType) :
    ∀ c ∈ classId h config type, c.oui ≤ 0xffffff := by
  intro c hc
  unfold classId at hc
  split at hc
  · cases hc
    dsimp only
    split
    · decide
    · exact h.oui_le
  · cases hc

/-- The type of one of the four routes. -/
def Ordinary (type : PacketType) : Prop := type = .command ∨ type = .context ∨ type = .signal

theorem route_wellFormed (hs : Proper s) {type : PacketType} (htype : Ordinary type)
    (controller : Bool) : WellFormed (route h s type controller) := by
  refine ⟨hs.generation, Nat.zero_le _, classId_oui s.config type, ?_, ?_, ?_, ?_, ?_⟩
  all_goals rcases htype with rfl | rfl | rfl
  all_goals first | rfl | exact .inl rfl | exact .inr ⟨rfl, rfl⟩

/-- The routes of an association are those of its packet types. -/
theorem mem_associationRoutes {x : Route} (hx : x ∈ associationRoutes h s) :
    ∃ type controller, Ordinary type ∧ x = route h s type controller := by
  unfold associationRoutes at hx
  rcases List.mem_append.mp hx with hx | hx
  · split at hx
    · rw [List.mem_singleton] at hx
      exact ⟨_, _, .inl rfl, hx⟩
    · cases hx
  · split at hx
    · simp only [List.mem_cons, List.not_mem_nil, or_false] at hx
      rcases hx with rfl | rfl | rfl
      · exact ⟨_, _, .inl rfl, rfl⟩
      · exact ⟨_, _, .inr (.inl rfl), rfl⟩
      · exact ⟨_, _, .inr (.inr rfl), rfl⟩
    · cases hx

theorem length_associationRoutes : (associationRoutes h s).length ≤ 4 := by
  unfold associationRoutes
  rw [List.length_append]
  split <;> split <;> simp

/-- The routes of an association differ in the peer or in the packet type. -/
theorem associationRoutes_distinct (hs : Proper s) :
    ((associationRoutes h s).map fun x => meaning x.key).Nodup := by
  have hpeer : meaning (route h s .command true).key ≠ meaning (route h s .command false).key := by
    intro heq
    have hsource := congrArg (·.1.peer) heq
    exact hs.peers hsource
  have htype (a b : PacketType) (c d : Bool) (hne : a ≠ b) :
      meaning (route h s a c).key ≠ meaning (route h s b d).key := by
    intro heq
    exact hne (congrArg (·.2.2.1) heq)
  have hack := htype .command .context false false nofun
  have hdata := htype .command .signal false false nofun
  have hboth := htype .context .signal false false nofun
  have hcontext := htype .command .context true false nofun
  have hsignal := htype .command .signal true false nofun
  unfold associationRoutes
  split <;> split <;> simp [hpeer, hack, hdata, hboth, hcontext, hsignal]

/-- The counters of an association differ. -/
theorem associationCounters_distinct (hs : Proper s) : (associationCounters s).Nodup := by
  have hpeer : counter s .command true ≠ counter s .command false := by
    intro heq
    exact hs.peers (congrArg CounterKey.sender heq)
  have htype (a b : PacketType) (c d : Bool) (hne : a ≠ b) : counter s a c ≠ counter s b d := by
    intro heq
    exact hne (congrArg CounterKey.type heq)
  have hack := htype .command .context false false nofun
  have hdata := htype .command .signal false false nofun
  have hboth := htype .context .signal false false nofun
  have hcontext := htype .command .context true false nofun
  have hsignal := htype .command .signal true false nofun
  simp [associationCounters, hpeer, hack, hdata, hboth, hcontext, hsignal]

theorem mem_associationCounters {key : CounterKey} (hkey : key ∈ associationCounters s) :
    key.streamId = some s.config.sid ∧ CounterRegistry.malformed key = false := by
  simp only [associationCounters, List.mem_cons, List.not_mem_nil, or_false] at hkey
  rcases hkey with rfl | rfl | rfl | rfl <;> exact ⟨rfl, rfl⟩

/-- Nothing in the registries has a stream identifier. -/
structure NewSid (sid : UInt32) (r : Registries) : Prop where
  routes : ∀ x ∈ r.routes.routes, x.key.streamId ≠ some sid
  counters : ∀ key ∈ r.counters.entries.map Prod.fst, key.streamId ≠ some sid
  relationships : ∀ j, (r.controllers.relationships j).used →
    (r.controllers.relationships j).identity.streamId ≠ some sid

/-- An association is installed: all its routes, its counters at zero and its relationship. -/
structure Installed (h : Host) (s : Bank) (handle : ℕ) (r r' : Registries) : Prop where
  routes : r'.routes = { r.routes with routes := r.routes.routes ++ associationRoutes h s }
  counters : r'.counters =
    { r.counters with entries := r.counters.entries ++ (associationCounters s).map fun key => (key, 0) }
  relationship : ∃ j : Fin controllerSizes.relationships, j.val = handle ∧
    ¬(r.controllers.relationships j).used ∧
    r'.controllers = r.controllers.setRelationship j
      { used := true, sdrProfile := s.config.profile = .sdrRadio, identity := relationshipKey s
        nextMid := 1 }

/-- A new stream has no relationship yet. -/
theorem registered_fresh {r : Registries} (hnew : NewSid s.config.sid r) :
    r.controllers.registered (relationshipKey s) = none := by
  refine List.find?_eq_none.mpr fun j _ => ?_
  simp only [decide_eq_true_eq, not_and, not_or]
  intro hused
  have hsid := hnew.relationships j hused
  constructor
  · intro hsame
    simp only [Transaction.sameKey, decide_eq_true_eq] at hsame
    exact hsid hsame.2.2.1
  · intro hsame
    simp only [Transaction.Controller.sameWireRelationship, decide_eq_true_eq] at hsame
    exact hsid hsame.2.1

/-- A relationship that may be registered is. -/
theorem registerRelationship_fresh {r : Registries} (hnew : NewSid s.config.sid r)
    (hcan : canRegisterRelationship (relationshipKey s) r.controllers = .ok ()) :
    ∃ j : Fin controllerSizes.relationships, ¬(r.controllers.relationships j).used ∧
      r.controllers.registerRelationship (relationshipKey s) 1 s.config.profile =
        (.ok j.val, r.controllers.setRelationship j
          { used := true, sdrProfile := s.config.profile = .sdrRadio, identity := relationshipKey s
            nextMid := 1 }) := by
  have hkey : { relationshipKey s with messageId := 0 } = relationshipKey s := rfl
  unfold canRegisterRelationship at hcan
  split at hcan
  · cases hcan
  next hvalid =>
    dsimp only at hcan
    rw [hkey, registered_fresh hnew] at hcan
    dsimp only at hcan
    split at hcan
    · cases hcan
    next hfree =>
      push Not at hfree
      obtain ⟨i, hi⟩ := hfree
      unfold Registry.registerRelationship
      rw [if_neg hvalid]
      dsimp only
      rw [hkey, registered_fresh hnew]
      dsimp only
      cases hfind : (List.finRange controllerSizes.relationships).find?
          fun j => ¬(r.controllers.relationships j).used with
      | none =>
        have hused := List.find?_eq_none.mp hfind i (List.mem_finRange i)
        simp only [decide_eq_true_eq, not_not] at hused
        exact absurd hused hi
      | some j =>
        have hunused := List.find?_some hfind
        exact ⟨j, by simpa using hunused, rfl⟩

/-- Under a new stream identifier an association is installed as a whole or not at all. -/
theorem installAssociation_fresh (hs : Proper s) (associate : Associate) {r : Registries}
    (hnew : NewSid s.config.sid r) :
    (∃ handle, (installAssociation h s associate r).1 = .ok handle ∧
      Installed h s handle r (installAssociation h s associate r).2) ∨
    ∃ e, installAssociation h s associate r = (.error e, r) := by
  unfold installAssociation
  split
  · next e _ => exact .inr ⟨e, rfl⟩
  · next hpreflight =>
    left
    simp only [preflight, bind_eq_ok, rejectIf_eq_ok, exists_const, not_or, not_lt] at hpreflight
    obtain ⟨⟨hroutes, hcounters⟩, _, hcan, -⟩ := hpreflight
    have hinstall : r.routes.install (associationRoutes h s) =
        .ok { r.routes with routes := r.routes.routes ++ associationRoutes h s } := by
      refine RouteRegistry.install_fresh ?_ (associationRoutes_distinct hs) ?_ ?_
      · intro x hx
        obtain ⟨type, controller, htype, rfl⟩ := mem_associationRoutes hx
        exact route_wellFormed hs htype controller
      · intro x hx y hy hsame
        obtain ⟨type, controller, -, rfl⟩ := mem_associationRoutes hx
        exact hnew.routes y hy (congrArg (·.2.1) hsame)
      · have := length_associationRoutes (h := h) (s := s)
        omega
    have hcount : r.counters.install (associationCounters s) = .ok
        { r.counters with
          entries := r.counters.entries ++ (associationCounters s).map fun key => (key, 0) } := by
      refine CounterRegistry.install_fresh ?_ (associationCounters_distinct hs) ?_ ?_
      · exact fun key hkey => (mem_associationCounters hkey).2
      · exact fun key hkey hmem => hnew.counters key hmem (mem_associationCounters hkey).1
      · show r.counters.entries.length + 4 ≤ r.counters.capacity
        omega
    obtain ⟨j, hunused, hregister⟩ := registerRelationship_fresh hnew hcan
    rw [hinstall]
    dsimp only
    rw [hcount]
    dsimp only
    rw [hregister]
    exact ⟨j.val, rfl, rfl, rfl, j, rfl, hunused, rfl⟩

/-! ## Reachable states -/

/-- The stream identifiers in the registries are all in a history. -/
structure Recorded (history : List UInt32) (r : Registries) : Prop where
  routes : ∀ x ∈ r.routes.routes, ∃ sid ∈ history, x.key.streamId = some sid
  counters : ∀ key ∈ r.counters.entries.map Prod.fst, ∃ sid ∈ history, key.streamId = some sid
  relationships : ∀ j, (r.controllers.relationships j).used →
    ∃ sid ∈ history, (r.controllers.relationships j).identity.streamId = some sid
  distinct : (r.routes.routes.map fun x => meaning x.key).Nodup

namespace Recorded

variable {history : List UInt32} {r r' : Registries}

theorem newSid (hr : Recorded history r) {sid : UInt32} (h : sid ∉ history) : NewSid sid r where
  routes x hx heq := by
    obtain ⟨old, hold, hsid⟩ := hr.routes x hx
    exact h (Option.some.inj (hsid.symm.trans heq) ▸ hold)
  counters key hkey heq := by
    obtain ⟨old, hold, hsid⟩ := hr.counters key hkey
    exact h (Option.some.inj (hsid.symm.trans heq) ▸ hold)
  relationships j hj heq := by
    obtain ⟨old, hold, hsid⟩ := hr.relationships j hj
    exact h (Option.some.inj (hsid.symm.trans heq) ▸ hold)

/-- A change that keeps the keys. -/
theorem of_keys (hr : Recorded history r)
    (hroutes : r'.routes.routes.map Route.key = r.routes.routes.map Route.key)
    (hcounters : r'.counters.entries.map Prod.fst = r.counters.entries.map Prod.fst)
    (hcontrollers : SameRelationships r.controllers r'.controllers) : Recorded history r' where
  routes x hx := by
    have hkey : x.key ∈ r.routes.routes.map Route.key := hroutes ▸ List.mem_map_of_mem hx
    obtain ⟨y, hy, heq⟩ := List.mem_map.mp hkey
    exact heq ▸ hr.routes y hy
  counters := by
    rw [hcounters]
    exact hr.counters
  relationships j hj := by
    obtain ⟨hused, hidentity⟩ := hcontrollers j
    rw [hidentity]
    exact hr.relationships j (hused ▸ hj)
  distinct := by
    have hmap (routes : List Route) : (routes.map fun x => meaning x.key) =
        (routes.map Route.key).map meaning := by rw [List.map_map]; rfl
    rw [hmap, hroutes, ← hmap]
    exact hr.distinct

/-- An association under a new identifier is installed. -/
theorem installed (hr : Recorded history r) (hs : Proper s) (hnew : s.config.sid ∉ history)
    {handle : ℕ} (hi : Installed h s handle r r') : Recorded (history ++ [s.config.sid]) r' := by
  have hlast : s.config.sid ∈ history ++ [s.config.sid] := List.mem_append_right _ (List.mem_singleton_self _)
  have hroutes : r'.routes.routes = r.routes.routes ++ associationRoutes h s := by rw [hi.routes]
  have hcounters : r'.counters.entries.map Prod.fst =
      r.counters.entries.map Prod.fst ++ associationCounters s := by
    rw [hi.counters, List.map_append, List.map_map]
    exact congrArg _ (List.map_id _)
  refine ⟨?_, ?_, ?_, ?_⟩
  · intro x hx
    rw [hroutes, List.mem_append] at hx
    rcases hx with hx | hx
    · obtain ⟨sid, hsid, heq⟩ := hr.routes x hx
      exact ⟨sid, List.mem_append_left _ hsid, heq⟩
    · obtain ⟨type, controller, -, rfl⟩ := mem_associationRoutes hx
      exact ⟨_, hlast, rfl⟩
  · intro key hkey
    rw [hcounters, List.mem_append] at hkey
    rcases hkey with hkey | hkey
    · obtain ⟨sid, hsid, heq⟩ := hr.counters key hkey
      exact ⟨sid, List.mem_append_left _ hsid, heq⟩
    · exact ⟨_, hlast, (mem_associationCounters hkey).1⟩
  · obtain ⟨j, -, -, hcontrollers⟩ := hi.relationship
    intro k
    rw [hcontrollers]
    show (Function.update r.controllers.relationships j _ k).used → ∃ sid ∈ _,
      (Function.update r.controllers.relationships j _ k).identity.streamId = some sid
    by_cases hk : k = j
    · subst hk
      rw [Function.update_self]
      exact fun _ => ⟨_, hlast, rfl⟩
    · rw [Function.update_of_ne hk]
      intro hused
      obtain ⟨sid, hsid, heq⟩ := hr.relationships k hused
      exact ⟨sid, List.mem_append_left _ hsid, heq⟩
  · rw [hroutes, List.map_append, List.nodup_append]
    refine ⟨hr.distinct, associationRoutes_distinct hs, ?_⟩
    rintro _ hx _ hy rfl
    obtain ⟨x, hx, hxk⟩ := List.mem_map.mp hx
    obtain ⟨y, hy, hyk⟩ := List.mem_map.mp hy
    obtain ⟨type, controller, -, rfl⟩ := mem_associationRoutes hy
    have hsid : x.key.streamId = some s.config.sid := congrArg (·.2.1) (hxk.trans hyk.symm)
    exact (hr.newSid hnew).routes x hx hsid

end Recorded

/-- What holds in every state of a run in which no recovery takes an identifier that is in use. -/
structure Sound (w : VitaRuntime) : Prop where
  recorded : Recorded w.sidHistory w.registries
  proper : ∀ s ∈ w.streams, Proper s
  /-- Before the first turn the history has the identifiers of the streams only. -/
  streams : w.frozen = false → ∀ sid ∈ w.sidHistory, ∃ s ∈ w.streams, s.config.sid = sid
  /-- A recovery has a next generation to go to. -/
  recoveries : ∀ index sid, w.recoveries index = some sid →
    ∃ s, w.streams[index]? = some s ∧ s.generation.toNat ≠ Timing.uint64Max
  /-- Banks have addresses. -/
  addresses : ∀ s ∈ w.streams ++ w.retired, s.address ≠ 0

variable {w : VitaRuntime}

theorem Sound.start (budget : BudgetLedger) : Sound { budget } where
  recorded := ⟨fun _ hx => absurd hx List.not_mem_nil, fun _ hkey => absurd hkey List.not_mem_nil,
    fun _ hused => absurd hused Bool.false_ne_true, List.nodup_nil⟩
  proper _ hs := absurd hs List.not_mem_nil
  streams _ _ hsid := absurd hsid List.not_mem_nil
  recoveries _ _ hsid := absurd hsid.symm (Option.some_ne_none _)
  addresses _ hs := absurd hs List.not_mem_nil

theorem Sound.freeze (hw : Sound w) : Sound w.freeze := by
  unfold VitaRuntime.freeze
  split
  · exact hw
  · exact ⟨hw.recorded.of_keys rfl rfl (.refl _), hw.proper, nofun, hw.recoveries, hw.addresses⟩

theorem Sound.detachBank (hw : Sound w) (address : ℕ) : Sound (w.detachBank address) := by
  refine ⟨hw.recorded.of_keys ?_ rfl (.refl _), hw.proper, hw.streams, hw.recoveries, hw.addresses⟩
  show (w.registries.routes.routes.map _).map Route.key = _
  rw [List.map_map]
  refine List.map_congr_left fun x _ => ?_
  show (if x.context = address then _ else x).key = x.key
  split <;> rfl

/-! ### Adding a stream -/

theorem checkStream_ok {config : StreamConfig} (hcheck : checkStream h w config = .ok ()) :
    w.frozen = false ∧ config.controllerPeer ≠ config.controlleePeer ∧
      config.associationGeneration ≠ 0 ∧ ∀ s ∈ w.streams, s.config.sid ≠ config.sid := by
  simp only [checkStream, bind_eq_ok, rejectIf_eq_ok, exists_const, not_or, not_exists, not_and] at hcheck
  obtain ⟨⟨hfrozen, -, -, -, -, -, -, hpeers⟩, ⟨hgeneration, -⟩, -, -, -, -, _, -, -, -, hsid⟩ := hcheck
  exact ⟨by simpa using hfrozen, hpeers, hgeneration, hsid⟩

/-- A stream is added with everything it needs, or nothing is changed. -/
inductive Added (h : Host) (config : StreamConfig) (associate : Associate) (w : VitaRuntime) : Prop
  | added (handle : ℕ)
      (hnew : config.sid ∉ w.sidHistory)
      (hresult : (w.addControllee h config associate).1 = .ok w.streams.length)
      (hinstalled : Installed h (newBank (2 * w.streams.length + 1) config) handle w.registries
        (w.addControllee h config associate).2.registries)
      (hstate : ∃ registries budget, (w.addControllee h config associate).2 = { w with
        registries, budget, sidHistory := w.sidHistory ++ [config.sid]
        streams := w.streams ++
          [{ newBank (2 * w.streams.length + 1) config with installed := true }]
        retired := w.retired ++ [newBank (2 * w.streams.length + 2) config] })
  | refused (e : Error) (hstate : w.addControllee h config associate = (.error e, w))

/-- What an addition does: all of the association, or nothing. -/
theorem Sound.added (hw : Sound w) (config : StreamConfig) (associate : Associate) :
    Added h config associate w := by
  cases hcheck : checkStream h w config with
  | error e =>
    refine .refused e ?_
    unfold VitaRuntime.addControllee
    rw [hcheck]
  | ok =>
    obtain ⟨hfrozen, hpeers, hgeneration, hsid⟩ := checkStream_ok hcheck
    have hnew : config.sid ∉ w.sidHistory := by
      intro hmem
      obtain ⟨s, hs, heq⟩ := hw.streams hfrozen config.sid hmem
      exact hsid s hs heq
    have hproper : Proper (newBank (2 * w.streams.length + 1) config) := ⟨hgeneration, hpeers⟩
    cases hcharge : chargeStream h w.streams config w.budget with
    | mk charged budget =>
      cases charged with
      | error e =>
        refine .refused e ?_
        unfold VitaRuntime.addControllee
        rw [hcheck, hcharge]
      | ok =>
        have hnewSid : NewSid (newBank (2 * w.streams.length + 1) config).config.sid w.registries :=
          hw.recorded.newSid hnew
        have hinstall := installAssociation_fresh (h := h) hproper associate hnewSid
        rcases hinstall with ⟨handle, hok, hinstalled⟩ | ⟨e, herror⟩
        · have heq : w.addControllee h config associate = (.ok w.streams.length, { w with
              registries := (installAssociation h (newBank (2 * w.streams.length + 1) config) associate
                w.registries).2
              budget, sidHistory := w.sidHistory ++ [config.sid]
              streams := w.streams ++
                [{ newBank (2 * w.streams.length + 1) config with installed := true }]
              retired := w.retired ++ [newBank (2 * w.streams.length + 2) config] }) := by
            unfold VitaRuntime.addControllee
            rw [hcheck, hcharge]
            dsimp only
            rw [hok]
          exact .added handle hnew (by rw [heq]) (by rw [heq]; exact hinstalled) ⟨_, budget, by rw [heq]⟩
        · refine .refused e ?_
          unfold VitaRuntime.addControllee
          rw [hcheck, hcharge]
          dsimp only
          rw [herror]

/-- An addition leaves the runtime sound. -/
theorem Sound.addControllee (hw : Sound w) (config : StreamConfig) (associate : Associate) :
    Sound (w.addControllee h config associate).2 := by
  cases hw.added (h := h) config associate with
  | refused e hstate =>
    rw [hstate]
    exact hw
  | added handle hnew _ hinstalled hstate =>
    obtain ⟨registries, budget, hstate⟩ := hstate
    rw [hstate] at hinstalled ⊢
    have hproper : Proper (newBank (2 * w.streams.length + 1) config) := by
      by_contra hnot
      unfold VitaRuntime.addControllee at hstate
      cases hcheck : checkStream h w config with
      | error e =>
        rw [hcheck] at hstate
        have hlength := congrArg (·.streams.length) hstate
        simp at hlength
      | ok =>
        obtain ⟨-, hpeers, hgeneration, -⟩ := checkStream_ok hcheck
        exact hnot ⟨hgeneration, hpeers⟩
    refine ⟨hw.recorded.installed hproper hnew hinstalled, ?_, ?_, ?_, ?_⟩
    · intro s hs
      rcases List.mem_append.mp hs with hs | hs
      · exact hw.proper s hs
      · rw [List.mem_singleton] at hs
        rw [hs]
        exact ⟨hproper.generation, hproper.peers⟩
    · intro hfrozen sid hsid
      rcases List.mem_append.mp hsid with hsid | hsid
      · obtain ⟨s, hs, heq⟩ := hw.streams hfrozen sid hsid
        exact ⟨s, List.mem_append_left _ hs, heq⟩
      · rw [List.mem_singleton] at hsid
        exact ⟨_, List.mem_append_right _ (List.mem_singleton_self _), hsid.symm⟩
    · intro index sid hsid
      obtain ⟨s, hs, hmax⟩ := hw.recoveries index sid hsid
      refine ⟨s, ?_, hmax⟩
      show (w.streams ++ _)[index]? = some s
      rw [List.getElem?_append_left (List.getElem?_eq_some_iff.mp hs).1, hs]
    · intro s hs
      have hs : s ∈ (w.streams ++ [{ newBank (2 * w.streams.length + 1) config with installed := true }]) ++
        (w.retired ++ [newBank (2 * w.streams.length + 2) config]) := hs
      simp only [List.mem_append, List.mem_singleton] at hs
      rcases hs with (hs | rfl) | hs | rfl
      · exact hw.addresses s (List.mem_append_left _ hs)
      · exact Nat.succ_ne_zero _
      · exact hw.addresses s (List.mem_append_right _ hs)
      · exact Nat.succ_ne_zero _

/-! ### Recovery -/

/-- A request to recover leaves the runtime sound. -/
theorem Sound.recoverStream (hw : Sound w) (index : ℕ) (newSid : UInt32) (others : Result Unit) :
    Sound (w.recoverStream index newSid others).2 := by
  unfold VitaRuntime.recoverStream
  split
  · exact hw
  · next s hs =>
    split
    · exact hw
    · next hstate =>
      simp only [not_or] at hstate
      split
      · exact hw
      · split
        · exact hw
        · split
          · exact hw
          · split
            · exact hw
            · refine ⟨hw.recorded, hw.proper, hw.streams, ?_, hw.addresses⟩
              intro i sid hsid
              have hsid : Function.update w.recoveries index (some newSid) i = some sid := hsid
              by_cases hi : i = index
              · subst hi
                exact ⟨s, hs, hstate.2.2⟩
              · rw [Function.update_of_ne hi] at hsid
                exact hw.recoveries i sid hsid

/-- A recovery has ended, and some banks have changed. -/
structure Ended (index : ℕ) (w w' : VitaRuntime) : Prop where
  frozen : w'.frozen = w.frozen
  recoveries : w'.recoveries = Function.update w.recoveries index none
  others : ∀ i, i ≠ index → w'.streams[i]? = w.streams[i]?
  banks : ∀ s ∈ w'.streams ++ w'.retired, ∃ s₀ ∈ w.streams ++ w.retired, s.address = s₀.address

/-- What the turn that installs the association of a recovery does: it detaches the bank, and installs
the association as a whole or not at all. -/
inductive Completed (h : Host) (index : ℕ) (confirmed : VitaRuntime.Confirmed) (associate : Associate)
    (detached : Bool) (w : VitaRuntime) : Prop
  | idle (e : Error) (hidle : w.recoveries index = none ∨ w.retired[index]? = none)
      (hstate : w.completeRecovery h index confirmed associate detached = (.error e, w))
  | installed (newSid : UInt32) (old spare : Bank) (handle : ℕ)
      (hpending : w.recoveries index = some newSid) (hold : w.streams[index]? = some old)
      (hspare : w.retired[index]? = some spare)
      (hresult : (w.completeRecovery h index confirmed associate detached).1 = .ok handle)
      (hinstalled : Installed h (VitaRuntime.recoveredBank old spare newSid confirmed) handle
        (w.detachBank spare.address).registries
        (w.completeRecovery h index confirmed associate detached).2.registries)
      (hhistory : (w.completeRecovery h index confirmed associate detached).2.sidHistory =
        w.sidHistory ++ [newSid])
      (hstreams : ∀ s ∈ (w.completeRecovery h index confirmed associate detached).2.streams,
        s ∈ w.streams ∨
          s = { VitaRuntime.recoveredBank old spare newSid confirmed with installed := true })
      (hended : Ended index w (w.completeRecovery h index confirmed associate detached).2)
  | refused (e : Error) (spare : Bank) (hspare : w.retired[index]? = some spare)
      (hresult : (w.completeRecovery h index confirmed associate detached).1 = .error e)
      (hregistries : (w.completeRecovery h index confirmed associate detached).2.registries =
        (w.detachBank spare.address).registries)
      (hhistory : (w.completeRecovery h index confirmed associate detached).2.sidHistory = w.sidHistory)
      (hstreams : (w.completeRecovery h index confirmed associate detached).2.streams = w.streams)
      (hended : Ended index w (w.completeRecovery h index confirmed associate detached).2)

/-- The bank that a recovery makes is proper. -/
theorem recoveredBank_proper {old spare : Bank} {newSid : UInt32} {confirmed : VitaRuntime.Confirmed}
    (hold : Proper old) (hmax : old.generation.toNat ≠ Timing.uint64Max) :
    Proper (VitaRuntime.recoveredBank old spare newSid confirmed) := by
  refine ⟨?_, hold.peers⟩
  show old.generation + 1 ≠ 0
  intro hzero
  have htoNat := congrArg UInt64.toNat hzero
  have hlt := old.generation.toNat_lt
  rw [UInt64.toNat_add] at htoNat
  rw [Timing.uint64Max] at hmax
  have hone : (1 : UInt64).toNat = 1 := rfl
  have hnone : (0 : UInt64).toNat = 0 := rfl
  omega

/-- What the end of a recovery does, under an identifier that is still free. -/
theorem Sound.completed (hw : Sound w) (index : ℕ) (confirmed : VitaRuntime.Confirmed)
    (associate : Associate) (detached : Bool)
    (hfree : ∀ newSid, w.recoveries index = some newSid → newSid ∉ w.sidHistory) :
    Completed h index confirmed associate detached w := by
  cases hpending : w.recoveries index with
  | none =>
    refine .idle (failure .invalidState) (.inl hpending) ?_
    unfold VitaRuntime.completeRecovery
    rw [hpending]
  | some newSid =>
    obtain ⟨old, hold, hmax⟩ := hw.recoveries index newSid hpending
    cases hspare : w.retired[index]? with
    | none =>
      refine .idle (failure .invalidState) (.inr hspare) ?_
      unfold VitaRuntime.completeRecovery
      rw [hpending, hold, hspare]
    | some spare =>
      have hproper : Proper (VitaRuntime.recoveredBank old spare newSid confirmed) :=
        recoveredBank_proper (hw.proper old (List.mem_of_getElem? hold)) hmax
      have hnew : NewSid (VitaRuntime.recoveredBank old spare newSid confirmed).config.sid
          (w.detachBank spare.address).registries :=
        (hw.detachBank spare.address).recorded.newSid (hfree newSid hpending)
      have hspare_mem := List.mem_of_getElem? hspare
      have hold_mem := List.mem_of_getElem? hold
      have hinstall := installAssociation_fresh (h := h) hproper associate hnew
      have hbank (s : Bank) (hs : s ∈ w.streams ++ w.retired) :
          ∃ s₀ ∈ w.streams ++ w.retired, s.address = s₀.address := ⟨s, hs, rfl⟩
      have hnext : ∃ s₀ ∈ w.streams ++ w.retired, spare.address = s₀.address :=
        ⟨spare, List.mem_append_right _ hspare_mem, rfl⟩
      rcases hinstall with ⟨handle, hok, hinstalled⟩ | ⟨e, herror⟩
      · have heq : w.completeRecovery h index confirmed associate detached = (.ok handle,
            { w with
              registries := (installAssociation h (VitaRuntime.recoveredBank old spare newSid confirmed)
                associate (w.detachBank spare.address).registries).2
              recoveries := Function.update w.recoveries index none
              sidHistory := w.sidHistory ++ [newSid]
              streams := if detached then w.streams.set index
                { VitaRuntime.recoveredBank old spare newSid confirmed with installed := true }
                else w.streams
              retired := if detached then w.retired.set index old else w.retired.set index
                { VitaRuntime.recoveredBank old spare newSid confirmed with installed := true } }) := by
          unfold VitaRuntime.completeRecovery
          rw [hpending, hold, hspare]
          dsimp only
          rw [hok]
          cases detached <;> rfl
        refine .installed newSid old spare handle hpending hold hspare (by rw [heq])
          (by rw [heq]; exact hinstalled) (by rw [heq]) ?_ ?_
        · rw [heq]
          intro s hs
          have hs : s ∈ (if detached then w.streams.set index _ else w.streams) := hs
          split at hs
          · exact List.mem_or_eq_of_mem_set hs
          · exact .inl hs
        · rw [heq]
          refine ⟨rfl, rfl, fun i hne => ?_, fun s hs => ?_⟩
          · show (if detached then w.streams.set index _ else w.streams)[i]? = _
            split
            · exact List.getElem?_set_ne (Ne.symm hne)
            · rfl
          · rcases List.mem_append.mp hs with hs | hs
            · have hs : s ∈ (if detached then w.streams.set index _ else w.streams) := hs
              split at hs
              · rcases List.mem_or_eq_of_mem_set hs with hs | rfl
                · exact hbank s (List.mem_append_left _ hs)
                · exact hnext
              · exact hbank s (List.mem_append_left _ hs)
            · have hs : s ∈ (if detached then w.retired.set index old else w.retired.set index _) := hs
              split at hs
              · rcases List.mem_or_eq_of_mem_set hs with hs | rfl
                · exact hbank s (List.mem_append_right _ hs)
                · exact hbank _ (List.mem_append_left _ hold_mem)
              · rcases List.mem_or_eq_of_mem_set hs with hs | rfl
                · exact hbank s (List.mem_append_right _ hs)
                · exact hnext
      · have heq : w.completeRecovery h index confirmed associate detached = (.error e,
            { w.detachBank spare.address with
              recoveries := Function.update w.recoveries index none
              retired := w.retired.set index
                (VitaRuntime.recoveredBank old spare newSid confirmed) }) := by
          unfold VitaRuntime.completeRecovery
          rw [hpending, hold, hspare]
          dsimp only
          rw [herror]
          rfl
        refine .refused e spare hspare (by rw [heq]) (by rw [heq]) (by rw [heq]; rfl) (by rw [heq]; rfl) ?_
        rw [heq]
        refine ⟨rfl, rfl, fun _ _ => rfl, fun s hs => ?_⟩
        rcases List.mem_append.mp hs with hs | hs
        · exact hbank s (List.mem_append_left _ hs)
        · rcases List.mem_or_eq_of_mem_set hs with hs | rfl
          · exact hbank s (List.mem_append_right _ hs)
          · exact hnext

/-- What is kept when a recovery ends. -/
theorem Sound.ended (hw : Sound w) (hfrozen : w.frozen) {index : ℕ} {w' : VitaRuntime}
    (hrecorded : Recorded w'.sidHistory w'.registries) (hproper : ∀ s ∈ w'.streams, Proper s)
    (hended : Ended index w w') : Sound w' := by
  refine ⟨hrecorded, hproper, fun hthawed => ?_, fun i sid hsid => ?_, fun s hs => ?_⟩
  · rw [hended.frozen, hfrozen] at hthawed
    cases hthawed
  · rw [hended.recoveries] at hsid
    by_cases hi : i = index
    · rw [hi, Function.update_self] at hsid
      cases hsid
    · rw [Function.update_of_ne hi] at hsid
      rw [hended.others i hi]
      exact hw.recoveries i sid hsid
  · obtain ⟨s₀, hs₀, heq⟩ := hended.banks s hs
    rw [heq]
    exact hw.addresses s₀ hs₀

/-- The end of a recovery leaves the runtime sound. -/
theorem Sound.completeRecovery (hw : Sound w) (hfrozen : w.frozen) (index : ℕ)
    (confirmed : VitaRuntime.Confirmed) (associate : Associate) (detached : Bool)
    (hfree : ∀ newSid, w.recoveries index = some newSid → newSid ∉ w.sidHistory) :
    Sound (w.completeRecovery h index confirmed associate detached).2 := by
  cases hw.completed (h := h) index confirmed associate detached hfree with
  | idle e _ hstate =>
    rw [hstate]
    exact hw
  | installed newSid old spare handle hpending hold _ _ hinstalled hhistory hstreams hended =>
    obtain ⟨old', hold', hmax⟩ := hw.recoveries index newSid hpending
    obtain rfl : old = old' := Option.some.inj (hold.symm.trans hold')
    have hproper : Proper (VitaRuntime.recoveredBank old spare newSid confirmed) :=
      recoveredBank_proper (hw.proper old (List.mem_of_getElem? hold)) hmax
    refine hw.ended hfrozen ?_ (fun s hs => ?_) hended
    · rw [hhistory]
      exact (hw.detachBank spare.address).recorded.installed hproper (hfree newSid hpending) hinstalled
    · rcases hstreams s hs with hs | rfl
      · exact hw.proper s hs
      · exact ⟨hproper.generation, hproper.peers⟩
  | refused e spare _ _ hregistries hhistory hstreams hended =>
    refine hw.ended hfrozen ?_ (fun s hs => hw.proper s (hstreams ▸ hs)) hended
    rw [hhistory, hregistries]
    exact (hw.detachBank spare.address).recorded

/-! ### Runs -/

/-- A recovery whose association is installed has an identifier that no other has taken since. -/
def Unclaimed (w : VitaRuntime) : VitaRuntime.Input → Prop
  | .completeRecovery index .. => ∀ newSid, w.recoveries index = some newSid → newSid ∉ w.sidHistory
  | _ => True

/-- The states of the runs in which that is so. -/
inductive Reached (h : Host) (budget : BudgetLedger) : VitaRuntime → Prop
  | start : Reached h budget { budget }
  | step {w : VitaRuntime} (hw : Reached h budget w) (input : VitaRuntime.Input)
      (hfree : Unclaimed w input) : Reached h budget (w.step h input)

/-- The states that a run goes on to. -/
inductive Later (h : Host) (w : VitaRuntime) : VitaRuntime → Prop
  | refl : Later h w w
  | step {w' : VitaRuntime} (hw : Later h w w') (input : VitaRuntime.Input)
      (hfree : Unclaimed w' input) : Later h w (w'.step h input)

theorem frozen_freeze (w : VitaRuntime) : w.freeze.frozen := by
  unfold VitaRuntime.freeze
  split
  · assumption
  · rfl

theorem Unclaimed.freeze {index : ℕ} {confirmed : VitaRuntime.Confirmed} {associate : Associate}
    {detached : Bool} (hfree : Unclaimed w (.completeRecovery index confirmed associate detached)) :
    ∀ newSid, w.freeze.recoveries index = some newSid → newSid ∉ w.freeze.sidHistory := by
  unfold VitaRuntime.freeze
  split <;> exact hfree

/-- Every turn leaves the runtime sound. -/
theorem Sound.step (hw : Sound w) (input : VitaRuntime.Input) (hfree : Unclaimed w input) :
    Sound (w.step h input) := by
  cases input with
  | addControllee config associate => exact hw.addControllee config associate
  | recoverStream index newSid others => exact hw.recoverStream index newSid others
  | freeze => exact hw.freeze
  | completeRecovery index confirmed associate detached =>
    exact hw.freeze.completeRecovery (frozen_freeze w) index confirmed associate detached hfree.freeze
  | interruptRecovery index =>
    show Sound (w.freeze.interruptRecovery index)
    unfold VitaRuntime.interruptRecovery
    split
    · exact hw.freeze.detachBank _
    · exact hw.freeze
  | abandonRecovery index =>
    have hf := hw.freeze
    have hsame : w.freeze.recoveries = w.recoveries := by
      unfold VitaRuntime.freeze
      split <;> rfl
    have hended : Ended index w.freeze (w.step h (.abandonRecovery index)) := by
      refine ⟨rfl, ?_, fun _ _ => rfl, fun s hs => ⟨s, hs, rfl⟩⟩
      rw [hsame]
      rfl
    exact hf.ended (frozen_freeze w) hf.recorded hf.proper hended
  | count key encoded =>
    unfold VitaRuntime.step
    dsimp only
    split
    · next counters hcounters =>
      exact ⟨hw.recorded.of_keys rfl (CounterRegistry.accept_keys hcounters) (.refl _), hw.proper,
        hw.streams, hw.recoveries, hw.addresses⟩
    · exact hw
  | controllers call =>
    show Sound (if VitaRuntime.registers call then w else _)
    split
    · exact hw
    · next hcall =>
      exact ⟨hw.recorded.of_keys rfl rfl (call_relationships _ call (by simpa using hcall)), hw.proper,
        hw.streams, hw.recoveries, hw.addresses⟩

theorem Reached.sound {budget : BudgetLedger} (hw : Reached h budget w) : Sound w := by
  induction hw with
  | start => exact .start budget
  | step _ input hfree ih => exact ih.step input hfree

/-- A run without the turns that install. -/
theorem Reached.run {budget : BudgetLedger} (inputs : List VitaRuntime.Input)
    (hplain : ∀ input ∈ inputs, ∀ w, Unclaimed w input) :
    Reached h budget (inputs.foldl (fun w input => w.step h input) { budget }) := by
  induction inputs using List.reverseRecOn with
  | nil => exact .start
  | append_singleton inputs input ih =>
    rw [List.foldl_append]
    exact (ih fun x hx => hplain x (by simp [hx])).step input (hplain input (by simp) _)

theorem Later.reached {budget : BudgetLedger} (hw : Reached h budget w) {w' : VitaRuntime}
    (hl : Later h w w') : Reached h budget w' := by
  induction hl with
  | refl => exact hw
  | step _ input hfree ih => exact ih.step input hfree

/-! ### Detached routes -/

/-- Routes keep their places; a route keeps its bank or loses it. -/
def Extends (r r' : List Route) : Prop :=
  ∀ (i : ℕ) (x : Route), r[i]? = some x →
    ∃ x' : Route, r'[i]? = some x' ∧ (x'.context = x.context ∨ x'.context = 0)

theorem Extends.refl (r : List Route) : Extends r r := fun _ x hx => ⟨x, hx, .inl rfl⟩

theorem Extends.trans {r r' r'' : List Route} (hr : Extends r r') (hr' : Extends r' r'') :
    Extends r r'' := by
  intro i x hx
  obtain ⟨x', hx', hkept⟩ := hr i x hx
  obtain ⟨x'', hx'', hkept'⟩ := hr' i x' hx'
  refine ⟨x'', hx'', ?_⟩
  rcases hkept' with heq | hzero
  · rwa [heq]
  · exact .inr hzero

theorem Extends.append (r more : List Route) : Extends r (r ++ more) := by
  intro i x hx
  refine ⟨x, ?_, .inl rfl⟩
  rw [List.getElem?_append_left (List.getElem?_eq_some_iff.mp hx).1, hx]

theorem detach_getElem (r : RouteRegistry) (address : ℕ) {i : ℕ} {x : Route}
    (hx : r.routes[i]? = some x) : ∃ x', (r.detach address).routes[i]? = some x' ∧
      x'.context = if x.context = address then 0 else x.context := by
  refine ⟨_, by rw [RouteRegistry.detach, List.getElem?_map, hx]; rfl, ?_⟩
  dsimp only
  split <;> rfl

theorem Extends.detach (r : RouteRegistry) (address : ℕ) :
    Extends r.routes (r.detach address).routes := by
  intro i x hx
  obtain ⟨x', hx', hcontext⟩ := detach_getElem r address hx
  refine ⟨x', hx', ?_⟩
  split at hcontext
  · exact .inr hcontext
  · exact .inl hcontext

theorem freeze_routes (w : VitaRuntime) :
    w.freeze.registries.routes.routes = w.registries.routes.routes := by
  unfold VitaRuntime.freeze
  split <;> rfl

/-- A recovery that is completed keeps the places of the routes. -/
theorem Sound.completed_extends (hw : Sound w) (index : ℕ) (confirmed : VitaRuntime.Confirmed)
    (associate : Associate) (detached : Bool)
    (hfree : ∀ newSid, w.recoveries index = some newSid → newSid ∉ w.sidHistory) :
    Extends w.registries.routes.routes
      (w.completeRecovery h index confirmed associate detached).2.registries.routes.routes := by
  cases hw.completed (h := h) index confirmed associate detached hfree with
  | idle e _ hstate =>
    rw [hstate]
    exact .refl _
  | installed newSid old spare handle _ _ _ _ hinstalled =>
    rw [hinstalled.routes]
    exact (Extends.detach _ spare.address).trans (.append _ _)
  | refused e spare _ _ hregistries =>
    rw [hregistries]
    exact .detach _ spare.address

/-- A turn adds routes and detaches routes, and changes no others. -/
theorem Sound.step_extends (hw : Sound w) (input : VitaRuntime.Input) (hfree : Unclaimed w input) :
    Extends w.registries.routes.routes (w.step h input).registries.routes.routes := by
  cases input with
  | addControllee config associate =>
    show Extends _ (w.addControllee h config associate).2.registries.routes.routes
    cases hw.added (h := h) config associate with
    | refused e hstate =>
      rw [hstate]
      exact .refl _
    | added handle _ _ hinstalled =>
      rw [hinstalled.routes]
      exact .append _ _
  | recoverStream index newSid others =>
    have hsame : (w.recoverStream index newSid others).2.registries = w.registries := by
      unfold VitaRuntime.recoverStream
      repeat' split
      all_goals rfl
    show Extends _ (w.recoverStream index newSid others).2.registries.routes.routes
    rw [hsame]
    exact .refl _
  | freeze =>
    show Extends _ w.freeze.registries.routes.routes
    rw [freeze_routes]
    exact .refl _
  | completeRecovery index confirmed associate detached =>
    have hextends := hw.freeze.completed_extends (h := h) index confirmed associate detached hfree.freeze
    rwa [freeze_routes] at hextends
  | interruptRecovery index =>
    show Extends _ (w.freeze.interruptRecovery index).registries.routes.routes
    rw [← freeze_routes]
    unfold VitaRuntime.interruptRecovery
    split
    · exact .detach _ _
    · exact .refl _
  | abandonRecovery index =>
    show Extends _ w.freeze.registries.routes.routes
    rw [freeze_routes]
    exact .refl _
  | count key encoded =>
    unfold VitaRuntime.step
    dsimp only
    split <;> exact .refl _
  | controllers call =>
    show Extends _ (if VitaRuntime.registers call then w else _).registries.routes.routes
    split <;> exact .refl _

theorem Later.extends {budget : BudgetLedger} (hw : Reached h budget w) {w' : VitaRuntime}
    (hl : Later h w w') : Extends w.registries.routes.routes w'.registries.routes.routes := by
  induction hl with
  | refl => exact .refl _
  | step hw' input hfree ih => exact ih.trans ((hw'.reached hw).sound.step_extends input hfree)

/-- The turns that detach the bank which a recovery is to use. -/
inductive Detaches (index : ℕ) : VitaRuntime.Input → Prop
  | completed (confirmed : VitaRuntime.Confirmed) (associate : Associate) (detached : Bool) :
    Detaches index (.completeRecovery index confirmed associate detached)
  | interrupted : Detaches index (.interruptRecovery index)

theorem freeze_banks (w : VitaRuntime) :
    w.freeze.retired = w.retired ∧ w.freeze.recoveries = w.recoveries := by
  unfold VitaRuntime.freeze
  split <;> exact ⟨rfl, rfl⟩

/-- In such a turn a route of the bank is detached. -/
theorem Sound.detaches (hw : Sound w) {index : ℕ} {spare : Bank} {newSid : UInt32}
    (hpending : w.recoveries index = some newSid) (hspare : w.retired[index]? = some spare)
    {input : VitaRuntime.Input} (hinput : Detaches index input) (hfree : Unclaimed w input) {i : ℕ}
    {x : Route} (hx : w.registries.routes.routes[i]? = some x) (hcontext : x.context = spare.address) :
    ∃ z, (w.step h input).registries.routes.routes[i]? = some z ∧ z.context = 0 := by
  have hf := hw.freeze
  obtain ⟨hretired, hrecoveries⟩ := freeze_banks w
  rw [← hrecoveries] at hpending
  rw [← hretired] at hspare
  rw [← freeze_routes] at hx
  obtain ⟨y, hy, hyc⟩ := detach_getElem w.freeze.registries.routes spare.address hx
  rw [if_pos hcontext] at hyc
  cases hinput with
  | interrupted =>
    show ∃ z, (w.freeze.interruptRecovery index).registries.routes.routes[i]? = some z ∧ z.context = 0
    unfold VitaRuntime.interruptRecovery
    rw [hpending, hspare]
    exact ⟨y, hy, hyc⟩
  | completed confirmed associate detached =>
    show ∃ z, (w.freeze.completeRecovery h index confirmed associate
      detached).2.registries.routes.routes[i]? = some z ∧ z.context = 0
    cases hf.completed (h := h) index confirmed associate detached hfree.freeze with
    | idle e hidle =>
      rcases hidle with hnone | hnone
      · rw [hpending] at hnone
        cases hnone
      · rw [hspare] at hnone
        cases hnone
    | installed newSid' old spare' handle _ _ hspare' _ hinstalled =>
      obtain rfl := Option.some.inj (hspare.symm.trans hspare')
      obtain ⟨z, hz, hzc⟩ := Extends.append (w.freeze.registries.routes.detach spare.address).routes
        (associationRoutes h (VitaRuntime.recoveredBank old spare newSid' confirmed)) i y hy
      refine ⟨z, by rw [hinstalled.routes]; exact hz, ?_⟩
      rcases hzc with heq | hzero
      · rw [heq, hyc]
      · exact hzero
    | refused e spare' hspare' _ hregistries =>
      obtain rfl := Option.some.inj (hspare.symm.trans hspare')
      exact ⟨y, by rw [hregistries]; exact hy, hyc⟩

/-- A route of a bank that is to be used again reaches no bank from then on. -/
theorem Reached.detached_forever {budget : BudgetLedger} (hw : Reached h budget w) {index : ℕ}
    {spare : Bank} {newSid : UInt32} (hpending : w.recoveries index = some newSid)
    (hspare : w.retired[index]? = some spare) {input : VitaRuntime.Input}
    (hinput : Detaches index input) (hfree : Unclaimed w input) {w' : VitaRuntime}
    (hlater : Later h (w.step h input) w') {i : ℕ} {x : Route}
    (hx : w.registries.routes.routes[i]? = some x) (hcontext : x.context = spare.address) :
    ∃ x', w'.registries.routes.routes[i]? = some x' ∧
      ∀ s ∈ w'.streams ++ w'.retired, x'.context ≠ s.address := by
  have hreached := hw.step input hfree
  obtain ⟨z, hz, hzc⟩ := hw.sound.detaches (h := h) hpending hspare hinput hfree hx hcontext
  obtain ⟨x', hx', hkept⟩ := hlater.extends hreached i z hz
  have hzero : x'.context = 0 := by
    rcases hkept with heq | hzero
    · rw [heq, hzc]
    · exact hzero
  refine ⟨x', hx', fun s hs heq => ?_⟩
  exact (hlater.reached hreached).sound.addresses s hs (heq.symm.trans hzero)

/-! ### Associations -/

/-- Associations are installed as a whole or not at all, the routes have distinct keys, so that a packet
has one route or none, and a detached route stays detached. -/
theorem associations_whole {budget : BudgetLedger} (hw : Reached h budget w) :
    (∀ config associate, Added h config associate w) ∧
    (∀ index confirmed associate detached,
      Unclaimed w (.completeRecovery index confirmed associate detached) →
        Completed h index confirmed associate detached w.freeze) ∧
    (∀ (i j : ℕ) (x y : Route), w.registries.routes.routes[i]? = some x →
      w.registries.routes.routes[j]? = some y → sameRoute x.key y.key → i = j) ∧
    (w.registries.routes.frozen → ∀ peer e,
      (w.registries.routes.lookup peer e = .error (failure .unsupportedCapability) ∧
        ∀ x ∈ w.registries.routes.routes, ¬sameRoute x.key (RouteRegistry.wanted peer e)) ∨
      ∃ i x, w.registries.routes.lookup peer e = .ok (i, x) ∧
        w.registries.routes.routes[i]? = some x ∧ ∀ (j : ℕ) (y : Route),
          w.registries.routes.routes[j]? = some y →
            sameRoute y.key (RouteRegistry.wanted peer e) → j = i) ∧
    (∀ (index : ℕ) (spare : Bank) (newSid : UInt32), w.recoveries index = some newSid →
      w.retired[index]? = some spare → ∀ input, Detaches index input → Unclaimed w input →
        ∀ w', Later h (w.step h input) w' → ∀ (i : ℕ) (x : Route),
          w.registries.routes.routes[i]? = some x → x.context = spare.address →
            ∃ x', w'.registries.routes.routes[i]? = some x' ∧
              ∀ s ∈ w'.streams ++ w'.retired, x'.context ≠ s.address) := by
  have hdistinct := hw.sound.recorded.distinct
  refine ⟨fun config associate => hw.sound.added config associate,
    fun index confirmed associate detached hfree =>
      hw.sound.freeze.completed index confirmed associate detached hfree.freeze,
    fun i j x y hx hy hsame => RouteRegistry.getElem_unique hdistinct hx hy hsame,
    fun hfrozen peer e => RouteRegistry.lookup_unique hfrozen hdistinct peer e, ?_⟩
  intro index spare newSid hpending hspare input hinput hfree w' hlater i x hx hcontext
  exact hw.detached_forever hpending hspare hinput hfree hlater hx hcontext

/-! ### Two recoveries under one identifier -/

namespace Shared

def host : Host where
  streams := 4
  oui := 0x123456
  oui_le := by decide
  epoch := .utc
  isolatedLab := true
  memoryLimit := frameworkBudget
  maxPacketBytes := 1500
  payloadSupports _ := true
  rxDataSupports _ := true
  associates := false
  streamBytes := 4096
  requestContext _ _ := none

def budget : BudgetLedger where
  rows _ := { reserved := 65536 }

/-- Two streams of one pair of peers. -/
def stream (sid : UInt32) (associationGeneration : UInt64) : StreamConfig where
  sid
  controllerId := 1
  controlleeId := sid + 1
  associationGeneration

def confirmed : VitaRuntime.Confirmed where
  sampleRate := 1000000
  format := .iq16
  centerFrequency := 100000000

/-- Both are to recover under the identifier 7; the first has done so. -/
def inputs : List VitaRuntime.Input :=
  [.addControllee (stream 1 1) {}, .addControllee (stream 2 5) {}, .freeze,
    .recoverStream 0 7 (.ok ()), .recoverStream 1 7 (.ok ()), .completeRecovery 0 confirmed {} true]

/-- Both are asked for. -/
def before : VitaRuntime := (inputs.take 5).foldl (fun w input => w.step host input) { budget }

def after : VitaRuntime := inputs.foldl (fun w input => w.step host input) { budget }

/-- The first stream is to recover once more. -/
def again : VitaRuntime := after.step host (.recoverStream 0 9 (.ok ()))

end Shared

open Shared in
/-- The second recovery fails with its routes installed, and without counters and a relationship. -/
theorem association_partial :
    after.recoveries 1 = some 7 ∧
    (after.completeRecovery host 1 confirmed {} true).1 = .error (failure .identityConflict) ∧
    after.registries.routes.routes.length = 12 ∧
    (after.completeRecovery host 1 confirmed {} true).2.registries.routes.routes.length = 16 ∧
    (after.completeRecovery host 1 confirmed {} true).2.registries.counters.entries.length =
      after.registries.counters.entries.length := by
  decide +kernel

open Shared in
/-- A completed recovery, and a second one of the same stream, which is to use the bank that the first
one gave up: the routes of this bank reach none from then on. -/
theorem associations_whole_recovered :
    Completed host 0 confirmed {} true before.freeze ∧
    (∀ (i j : ℕ) (x y : Route), after.registries.routes.routes[i]? = some x →
      after.registries.routes.routes[j]? = some y → sameRoute x.key y.key → i = j) ∧
    ∃ spare, again.retired[0]? = some spare ∧
      (∃ x ∈ again.registries.routes.routes, x.context = spare.address) ∧
      ∀ w', Later host (again.step host (.completeRecovery 0 confirmed {} true)) w' →
        ∀ (i : ℕ) (x : Route), again.registries.routes.routes[i]? = some x → x.context = spare.address →
          ∃ x', w'.registries.routes.routes[i]? = some x' ∧
            ∀ s ∈ w'.streams ++ w'.retired, x'.context ≠ s.address := by
  have hbefore : Reached host budget before := Reached.run (inputs.take 5) (by simp [inputs, Unclaimed])
  have hfirst : ∀ newSid ∈ before.recoveries 0, newSid ∉ before.sidHistory := by decide +kernel
  have hafter : Reached host budget after := hbefore.step (.completeRecovery 0 confirmed {} true) hfirst
  have hagain : Reached host budget again := hafter.step (.recoverStream 0 9 (.ok ())) trivial
  have hsecond : ∀ newSid ∈ again.recoveries 0, newSid ∉ again.sidHistory := by decide +kernel
  have hrouted : (again.retired[0]?).any
      (fun s => again.registries.routes.routes.any fun x => x.context = s.address) := by decide +kernel
  obtain ⟨spare, hspare, hroute⟩ := (Option.any_eq_true _ _).mp hrouted
  refine ⟨(associations_whole hbefore).2.1 0 confirmed {} true hfirst, (associations_whole hafter).2.2.1,
    spare, hspare, by simpa using hroute, fun w' hlater i x hx hcontext => ?_⟩
  exact (associations_whole hagain).2.2.2.2 0 spare 9 (by decide +kernel) hspare _
    (.completed confirmed {} true) hsecond w' hlater i x hx hcontext

end Vita.Runtime.Association
