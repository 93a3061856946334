import Vita.Transaction.PortTheorems
import Vita.Transaction.Results

/-!
# The tickets of the transactions

A token of a field keeps its ticket in use until the field has its outcome. The capability of the running
field is the only one that can be completed.

Main results:
- `Ports`: the tickets of all transactions and the capabilities in use;
- `ports_invariant`: the rule for invariants that use them.
-/

namespace Vita.Transaction.Engine

open Checked Timing State Codec

variable {σ : Type} {c : Config σ} {p p' : Phase} {w w' : Engine σ}

/-! ## Tokens -/

/-- The capability of the running field. -/
def current (w : Engine σ) : Option AsyncResult :=
  w.effectOwner.bind fun j =>
    if (w.slots j).running then some (capability j (w.slots j) (w.slots j).runningField) else none

/-- A token of the field `f` of a slot: its ticket is in use until the field has its outcome. -/
structure Owns (c : Config σ) (port : Port) (f : ℕ) (q : Publisher) (s : Slot) : Prop where
  lt : f < 4
  slot_lt : q.slot < c.transactions * 4
  state : port.Live q ∧ (port.tickets q.slot).operation = s.ticketOperations f ∨
    port.Dead q ∧ s.active ∧ Slot.settled s f

/-- The tickets of the transactions and the capabilities in use. -/
structure Ports (c : Config σ) (w : Engine σ) : Prop where
  port : w.env.port.Inv (current w)
  idle : ∀ j, (w.slots j).active = false → (w.slots j).running = false
  token : ∀ j f q, (w.slots j).tokens f = some q → Owns c w.env.port f q (w.slots j)
  unique : ∀ j f j' f' q, (w.slots j).tokens f = some q → (w.slots j').tokens f' = some q →
    j = j' ∧ f = f'
  full : ∀ j, (w.slots j).active → ∀ f < 4, ((w.slots j).tokens f).isSome
  cell : ∀ a ∈ w.env.port.held, ∃ j f, f < 4 ∧ a.index = j * 4 + f ∧
    ∀ q, (w.slots j).tokens f = some q → q = a.publisher

/-- The capability that can be completed is that of the owner of the lane. -/
theorem current_eq_some {a : AsyncResult} : current w = some a ↔
    ∃ j, w.effectOwner = some j ∧ (w.slots j).running ∧
      a = capability j (w.slots j) (w.slots j).runningField := by
  unfold current
  rcases w.effectOwner with _ | j
  · simp
  · by_cases hrunning : (w.slots j).running
    · simp only [Option.bind_some, hrunning, if_true, Option.some.injEq]
      exact ⟨fun h => ⟨j, rfl, hrunning, h.symm⟩, fun ⟨k, hk, _, ha⟩ => by rw [ha, hk]⟩
    · simp only [Option.bind_some, hrunning, Bool.false_eq_true, if_false, Option.some.injEq]
      constructor
      · intro h
        cases h
      · rintro ⟨k, rfl, hr, -⟩
        exact absurd hr hrunning

theorem current_of_running (hb : Base c p w) {j : ℕ} (hactive : (w.slots j).active)
    (hrunning : (w.slots j).running) :
    current w = some (capability j (w.slots j) (w.slots j).runningField) :=
  current_eq_some.mpr ⟨j, ((hb.slot j hactive).running hrunning).owner, hrunning, rfl⟩

/-- The field that is running is one of the first four. -/
theorem runningField_lt (hb : Base c p w) {j : ℕ} (hactive : (w.slots j).active)
    (hrunning : (w.slots j).running) : (w.slots j).runningField < 4 := by
  have hs := hb.slot j hactive
  have hr := hs.running hrunning
  have hlt := hr.permuted.lt hr.step
  rw [← hr.order] at hlt
  have hcount := hs.wellFormed.count_le
  have haction := (hs.lane hr.owner).2
  simp only [Slot.action] at haction
  rw [fieldLimit, if_neg (by simp [haction]), ← hs.count] at hcount
  omega

theorem Ports.active_of_running (h : Ports c w) {j : ℕ} (hrunning : (w.slots j).running) :
    (w.slots j).active := by
  by_contra hidle
  rw [h.idle j (by simpa using hidle)] at hrunning
  cases hrunning

/-- The token of a running field. -/
theorem Ports.running_token (h : Ports c w) (hb : Base c p w) {j : ℕ} (hactive : (w.slots j).active)
    (hrunning : (w.slots j).running) : (w.slots j).tokens (w.slots j).runningField =
      some (capability j (w.slots j) (w.slots j).runningField).publisher := by
  obtain ⟨q, hq⟩ := Option.isSome_iff_exists.mp (h.full j hactive _ (runningField_lt hb hactive hrunning))
  rw [capability, hq]
  rfl

/-- A slot whose tokens stay where they are. -/
structure Slot.Keeps (s s' : Slot) : Prop where
  tokens : s'.tokens = s.tokens
  operations : s'.ticketOperations = s.ticketOperations
  active : s'.active = s.active
  running : s.active = false → s'.running = s.running
  settled : ∀ f, Slot.settled s f → Slot.settled s' f

theorem Slot.Keeps.refl (s : Slot) : Slot.Keeps s s := ⟨rfl, rfl, rfl, fun _ => rfl, fun _ h => h⟩

theorem Owns.keeps {port port' : Port} {f : ℕ} {q : Publisher} {s s' : Slot} (h : Owns c port f q s)
    (hport : Port.Evolves port port') (hs : Slot.Keeps s s') : Owns c port' f q s' := by
  refine ⟨h.lt, h.slot_lt, ?_⟩
  rcases h.state with ⟨hlive, hop⟩ | ⟨hdead, hactive, hsettled⟩
  · refine .inl ⟨hport.live.mpr hlive, ?_⟩
    rw [hport.operation, hs.operations]
    exact hop
  · exact .inr ⟨hport.dead hdead, by rw [hs.active]; exact hactive, hs.settled f hsettled⟩

/-- A step of the port that the slots keep. -/
theorem Ports.keeps (h : Ports c w) (hb : Base c p w) (hcur : current w' = current w)
    (hport : Port.Step (current w) w.env.port w'.env.port)
    (hheld : ∀ a ∈ w'.env.port.held, a ∈ w.env.port.held ∨ current w = some a)
    (hslots : ∀ j, Slot.Keeps (w.slots j) (w'.slots j)) : Ports c w' where
  port := by
    rw [hcur]
    exact hport.inv
  idle j hj := by
    rw [(hslots j).active] at hj
    rw [(hslots j).running hj]
    exact h.idle j hj
  token j f q hq := by
    rw [(hslots j).tokens] at hq
    exact (h.token j f q hq).keeps hport.evolves (hslots j)
  unique j f j' f' q hq hq' := by
    rw [(hslots j).tokens] at hq
    rw [(hslots j').tokens] at hq'
    exact h.unique j f j' f' q hq hq'
  full j hj f hf := by
    rw [(hslots j).active] at hj
    rw [(hslots j).tokens]
    exact h.full j hj f hf
  cell a ha := by
    rcases hheld a ha with ha | ha
    · obtain ⟨j, f, hf, hindex, hq⟩ := h.cell a ha
      exact ⟨j, f, hf, hindex, fun q => by rw [(hslots j).tokens]; exact hq q⟩
    · -- the capability of the running field
      obtain ⟨j, howner, hrunning, rfl⟩ := current_eq_some.mp ha
      have hactive := hb.owner j howner
      refine ⟨j, (w.slots j).runningField, runningField_lt hb hactive hrunning, rfl, fun q hq => ?_⟩
      rw [(hslots j).tokens, h.running_token hb hactive hrunning] at hq
      exact (Option.some.inj hq).symm

/-- A move for a field that is not running leaves the running field as it is. -/
theorem current_of_act {i : ℕ} (hb : Base c p w) (h : Act c i p w p' w') (hrun : ¬(w.slots i).running)
    (hrun' : ¬(w'.slots i).running) : current w' = current w := by
  have hb' := hb.act h
  have hf := h.frame hb
  rcases h.owner_cases hb with howner | howner | ⟨howner, howner', -⟩
  · unfold current
    rw [howner]
    rcases ho : w.effectOwner with _ | j
    · rfl
    · by_cases hj : j = i
      · subst hj
        simp [hrun, hrun']
      · simp [hf.slots j hj]
  · have hnone : current w = none := by simp [current, howner]
    rw [hnone]
    by_contra hsome
    obtain ⟨a, ha⟩ := Option.ne_none_iff_exists'.mp hsome
    obtain ⟨j, hj, hrunning, -⟩ := current_eq_some.mp ha
    by_cases hji : j = i
    · exact hrun' (hji ▸ hrunning)
    · have hactive := hb'.owner j hj
      rw [hf.slots j hji] at hrunning hactive
      have := ((hb.slot j hactive).running hrunning).owner
      rw [howner] at this
      cases this
  · simp [current, howner, howner', hrun]

/-- A move that leaves the tickets alone. -/
structure Plain (i : ℕ) (w w' : Engine σ) : Prop where
  follows : w.env.Follows w'.env
  active : (w.slots i).active
  active' : (w'.slots i).active
  idle : ¬(w.slots i).running
  idle' : ¬(w'.slots i).running
  settled : ∀ f, Slot.settled (w.slots i) f → Slot.settled (w'.slots i) f

/-- A move that leaves the tickets alone keeps the port and the slots together. -/
theorem Ports.plain {i : ℕ} (h : Ports c w) (hb : Base c p w) (hact : Act c i p w p' w')
    (hplain : Plain i w w') : Ports c w' ∧ current w' = current w ∧
      Port.Step (current w) w.env.port w'.env.port := by
  have hcur := current_of_act hb hact hplain.idle hplain.idle'
  have hstep : Port.Step (current w) w.env.port w'.env.port := by
    obtain ⟨actions, hactions⟩ := hplain.follows
    rw [hactions]
    exact h.port.actAll actions
  refine ⟨h.keeps hb hcur hstep (fun a ha => .inl (follows_held hplain.follows ha)) fun j => ?_, hcur, hstep⟩
  by_cases hj : j = i
  · subst hj
    have htenure := hact.tenure hb hplain.active hplain.active'
    refine ⟨htenure.tokens, htenure.operations, ?_, fun hidle => ?_, hplain.settled⟩
    · rw [hplain.active, hplain.active']
    · rw [hplain.active] at hidle
      cases hidle
  · rw [(hact.frame hb).slots j hj]
    exact .refl _

/-- The slot after an outcome. -/
theorem plain_applied {i field : ℕ} {o : FieldOutcome} (h : Applied i field o w w')
    (ho : o.status ≠ .pending) (hactive : (w.slots i).active) (hidle : ¬(w.slots i).running) :
    Plain i w w' := by
  obtain ⟨hypothetical, credits, revisions, hs⟩ := h.slots
  have hslot : w'.slots i = recordOutcome { w.slots i with hypothetical, credits, revisions } field o := by
    rw [hs, Function.update_self]
  rw [recordOutcome_eq] at hslot
  refine ⟨h.env, hactive, ?_, hidle, ?_, fun f hf => ?_⟩
  · rw [hslot]
    exact hactive
  · rw [hslot]
    exact Bool.false_ne_true
  · rw [Slot.settled, hslot]
    dsimp only
    by_cases hfield : f = field
    · rw [hfield, Function.update_self]
      exact ho
    · rw [Function.update_of_ne hfield]
      exact hf

/-- The moves of a turn leave the tickets alone until a field is begun. -/
theorem Act.turn_cases {i : ℕ} (hb : Base c p w) (h : Act c i p w p' w') (hp : p ≠ .idle) :
    Plain i w w' ∨ ∃ now field, p = .walking i now ∧ p' = .idle ∧ Begun w i field ∧
      w' = dispatchField c now i field w := by
  have hturn : p.slot = some i := by
    cases p with
    | idle => exact absurd rfl hp
    | planning j _ | checked j _ | walking j _ | batch j _ | closing j =>
      exact congrArg some ((h.frame hb).before j rfl)
  obtain ⟨hactive, hslot, hin⟩ := hb.turn hturn
  have hsame : ∀ s : Slot, s.active = (w.slots i).active → s.running = (w.slots i).running →
      s.outcomes = (w.slots i).outcomes → w'.slots i = s → w.env.Follows w'.env →
      Plain i w w' ∨ ∃ now field, p = .walking i now ∧ p' = .idle ∧ Begun w i field ∧
        w' = dispatchField c now i field w := by
    intro s ha hr ho hs hfollows
    refine .inl ⟨hfollows, hactive, ?_, hin.idle, ?_, fun f hf => ?_⟩
    · rw [hs, ha]
      exact hactive
    · rw [hs, hr]
      exact hin.idle
    · rw [Slot.settled, hs, ho]
      exact hf
  have hresched : ∀ s : Slot, Rescheduled (w.slots i) s → w'.slots i = s → w'.env = w.env →
      Plain i w w' ∨ ∃ now field, p = .walking i now ∧ p' = .idle ∧ Begun w i field ∧
        w' = dispatchField c now i field w := by
    intro s hs heq henv
    refine hsame s ?_ ?_ ?_ heq (henv ▸ .refl _) <;> rw [hs.slot]
  cases h with
  | unscheduled | single | unchanged | stuck | exhaust => exact hsame _ rfl rfl rfl rfl (.refl _)
  | revalidate hnot =>
    obtain ⟨s, env, new, heq, hfollows, hr, -⟩ := revalidate_spec (c := c) hnot hslot.count_le
    rw [heq] at hsame ⊢
    refine hsame s ?_ ?_ ?_ (Function.update_self ..) hfollows <;> rw [hr.slot]
  | @defer _ now =>
    exact hresched _ (reschedule_rescheduled now (w.slots i)) (Function.update_self ..) rfl
  | schedule =>
    exact hresched _ ((reschedule_rescheduled _ _).trans (checkWindow_rescheduled _ _))
      (Function.update_self ..) rfl
  | boundary =>
    exact hresched _ (validateBoundaryState_rescheduled _ _) (Function.update_self ..) rfl
  | unready =>
    exact hsame (withdrawFour (w.slots i)) rfl rfl rfl (Function.update_self ..) (.refl _)
  | recheck =>
    obtain ⟨s, env, new, heq, hfollows, hr, -⟩ := revalidateBatch_spec (c := c) _ hslot.count_le
    rw [heq] at hsame ⊢
    refine hsame (withdrawFour s) ?_ ?_ ?_ (by simp) hfollows <;> rw [withdrawFour, hr.slot]
  | @commit _ now commit _ _ _ =>
    obtain ⟨s, env, new, heq, hfollows, hr, -⟩ := revalidateBatch_spec (c := c) now hslot.count_le
    rw [heq] at hsame ⊢
    refine hsame s ?_ ?_ ?_ (Function.update_self ..) (hfollows.trans (.call env _)) <;> rw [hr.slot]
  | apply | simulate =>
    exact .inl (plain_applied (applyOutcome_applied ..) (settledOutcome_ne_pending _ _ _ _ _) hactive
      hin.idle)
  | publish version event =>
    rcases recordEvent_cases (c := c) i event { w with state := { w.state with version } } with
      heq | ⟨env, credits, revisions, hfollows, heq⟩ <;> rw [heq] at hsame ⊢
    · exact hsame _ rfl rfl rfl rfl (.refl _)
    · exact hsame { w.slots i with credits, revisions } rfl rfl rfl (Function.update_self ..) hfollows
  | @pass _ field now o hpassed =>
    refine .inl ⟨.refl _, hactive, by simpa [skip] using hactive, hin.idle,
      by simpa [skip] using hin.idle, fun f hf => ?_⟩
    rw [Slot.settled, setSlot_slots, Function.update_self, skip]
    dsimp only
    by_cases hfield : f = field
    · rw [hfield, Function.update_self]
      rcases hpassed.status with hs | hs <;> simp [hs]
    · rw [Function.update_of_ne hfield]
      exact hf
  | @block _ field _ =>
    rcases blockField_cases i field w with heq | heq <;> rw [heq] at hsame ⊢
    · exact hsame _ rfl rfl rfl rfl (.refl _)
    · exact hsame (blockedSlot (w.slots i) field) rfl rfl rfl (Function.update_self ..) (.refl _)
  | @start _ field now _ hbegun => exact .inr ⟨now, field, rfl, rfl, hbegun, rfl⟩
  | finish now =>
    obtain ⟨s, env, hs, hfollows, heq⟩ := finish_spec (c := c) i now w
    rw [heq] at hsame ⊢
    refine hsame { s with complete := true } ?_ ?_ ?_ (Function.update_self ..) hfollows <;> rw [hs]
  | _ => exact absurd rfl hp

/-- A published ticket is that of the running field. -/
theorem Ports.ready_current (h : Ports c w) {t : ℕ} (hready : (w.env.port.tickets t).state = .ready) :
    ∃ j, w.effectOwner = some j ∧ (w.slots j).running ∧
      (capability j (w.slots j) (w.slots j).runningField).publisher =
        ⟨t, (w.env.port.tickets t).generation⟩ := by
  obtain ⟨a, ha, hpub⟩ := h.port.busy t (.inr hready)
  obtain ⟨j, howner, hrunning, rfl⟩ := current_eq_some.mp ha
  exact ⟨j, howner, hrunning, hpub⟩

/-- A completion belongs to the running field. -/
theorem Ports.consumed_running (h : Ports c w) (hb : Base c p w) {t : ℕ} {record : CompletionRecord}
    {port : Port} (htake : w.env.port.consume (c.transactions * 4) t = (some record, port)) :
    ∃ j, findRunning c w record.operation = some j ∧ (w.slots j).active ∧ (w.slots j).running ∧
      (capability j (w.slots j) (w.slots j).runningField).publisher =
        ⟨t, (w.env.port.tickets t).generation⟩ := by
  obtain ⟨-, hready, hoperation, -⟩ := Port.consume_takes htake
  obtain ⟨j, howner, hrunning, hpub⟩ := h.ready_current hready
  have hactive := hb.owner j howner
  have htoken := h.running_token hb hactive hrunning
  rw [hpub] at htoken
  have hop : (w.env.port.tickets t).operation =
      (w.slots j).ticketOperations (w.slots j).runningField := by
    rcases (h.token j _ _ htoken).state with ⟨-, hop⟩ | ⟨hdead, -⟩
    · exact hop
    · exact absurd ⟨rfl, by simp [CompletionSlot.pending, hready]⟩ hdead.not_live
  obtain ⟨i, hi⟩ : ∃ i, findRunning c w record.operation = some i := by
    rw [← Option.isSome_iff_exists]
    unfold findRunning
    rw [List.find?_isSome]
    refine ⟨j, List.mem_range.mpr (hb.slot j hactive).lt, ?_⟩
    simp only [decide_eq_true_eq]
    exact ⟨hactive, hrunning, by rw [hoperation, ← hop]⟩
  -- at most one field is running
  obtain ⟨-, hactive', hrunning', -⟩ := findRunning_eq_some hi
  have hown := ((hb.slot i hactive').running hrunning').owner
  obtain rfl := Option.some.inj (howner.symm.trans hown)
  exact ⟨j, hi, hactive, hrunning, hpub⟩

/-- The capabilities in use after a move that makes none. -/
theorem Ports.cells (h : Ports c w) {held : List AsyncResult} (hheld : ∀ a ∈ held, a ∈ w.env.port.held)
    {slots : ℕ → Slot} (htokens : ∀ a ∈ held, ∀ j f q, a.index = j * 4 + f → f < 4 →
      (slots j).tokens f = some q → (w.slots j).tokens f = some q) :
    ∀ a ∈ held, ∃ j f, f < 4 ∧ a.index = j * 4 + f ∧ ∀ q, (slots j).tokens f = some q → q = a.publisher := by
  intro a ha
  obtain ⟨j, f, hf, hindex, hq⟩ := h.cell a (hheld a ha)
  exact ⟨j, f, hf, hindex, fun q hq' => hq q (htokens a ha j f q hindex hf hq')⟩

/-- The ticket of the running field is consumed; no capability is left that can be completed. -/
theorem Ports.consumed {i t : ℕ} (h : Ports c w) (hb : Base c p w) {record : CompletionRecord} {port : Port}
    (htake : w.env.port.consume (c.transactions * 4) t = (some record, port))
    (hfind : findRunning c w record.operation = some i) :
    (w.slots i).active ∧ (w.slots i).running ∧ Port.Inv none port ∧
      Port.Takes (capability i (w.slots i) (w.slots i).runningField).publisher w.env.port port := by
  obtain ⟨j, hj, hactive, hrunning, hpub⟩ := h.consumed_running hb htake
  obtain rfl := Option.some.inj (hfind.symm.trans hj)
  obtain ⟨-, hready, -, -, htakes, hheld, hwriters, -⟩ := Port.consume_takes htake
  have hinv := h.port
  rw [current_of_running hb hactive hrunning] at hinv
  rw [← hpub] at htakes
  have hslot : (capability i (w.slots i) (w.slots i).runningField).publisher.slot = t := by rw [hpub]
  exact ⟨hactive, hrunning, hinv.consumed htakes (by rw [hslot]; exact hready) hheld hwriters, htakes⟩

/-- The running field gets the outcome that was published for it. -/
theorem Ports.settle {i t : ℕ} (h : Ports c w) (hb : Base c .idle w) {record : CompletionRecord}
    {port : Port} (htake : w.env.port.consume (c.transactions * 4) t = (some record, port))
    (hfind : findRunning c w record.operation = some i)
    (hact : Act c i .idle w .idle (consume c record (w.setPort port))) :
    Ports c (consume c record (w.setPort port)) := by
  obtain ⟨hactive, hrunning, hinv', htakes⟩ := h.consumed hb htake hfind
  obtain ⟨-, -, -, -, -, hheld, -⟩ := Port.consume_takes htake
  have htoken := h.running_token hb hactive hrunning
  have htenure := hact.tenure hb hactive
  have hframe := hact.frame hb
  obtain ⟨reported, heq, -⟩ := consume_applied port hfind
  have happlied := applyOutcome_applied (c := c) true i (w.slots i).runningField reported (w.setPort port)
  rw [← heq] at happlied
  have hpending := settledOutcome_ne_pending c (w.setPort port).quiescing ((w.setPort port).slots i)
    (((w.setPort port).slots i).execution.fields (w.slots i).runningField) reported
  generalize settledOutcome c _ _ _ _ = o at happlied hpending
  generalize consume c record (w.setPort port) = w' at htenure hframe happlied
  obtain ⟨hypothetical, credits, revisions, hs⟩ := happlied.slots
  have hs' : w'.slots i = recordOutcome { w.slots i with hypothetical, credits, revisions }
      (w.slots i).runningField o := by
    rw [hs, Function.update_self]
    rfl
  rw [recordOutcome_eq] at hs'
  have hactive' : (w'.slots i).active := by
    rw [hs']
    exact hactive
  have htenure := htenure hactive'
  have hnone : current w' = none := by
    have howner : w'.effectOwner = some i :=
      happlied.owner.trans ((hb.slot i hactive).running hrunning).owner
    have hidle : (w'.slots i).running = false := by rw [hs']
    simp [current, howner, hidle]
  obtain ⟨actions, hactions⟩ := happlied.env
  have hstep : Port.Step none port w'.env.port := by
    rw [hactions]
    exact hinv'.actAll actions
  have htokens : ∀ k, (w'.slots k).tokens = (w.slots k).tokens := by
    intro k
    by_cases hk : k = i
    · rw [hk]
      exact htenure.tokens
    · rw [hframe.slots k hk]
  refine ⟨?_, fun k hk => ?_, fun k f q hq => ?_, fun k f k' f' q hq hq' => ?_, fun k hk f hf => ?_, ?_⟩
  · rw [hnone]
    exact hstep.inv
  · by_cases hki : k = i
    · rw [hki, hactive'] at hk
      cases hk
    · rw [hframe.slots k hki] at hk ⊢
      exact h.idle k hk
  · rw [htokens k] at hq
    have hown := h.token k f q hq
    by_cases hself : q = (capability i (w.slots i) (w.slots i).runningField).publisher
    · -- the token of the field that was running
      subst hself
      obtain ⟨rfl, rfl⟩ := h.unique k f i _ _ hq htoken
      refine ⟨hown.lt, hown.slot_lt, .inr ⟨hstep.evolves.dead htakes.dead, hactive', ?_⟩⟩
      rw [Slot.settled, hs']
      dsimp only
      rw [Function.update_self]
      exact hpending
    · -- the tokens of other fields
      have hsettled : ∀ f, Slot.settled (w.slots k) f → Slot.settled (w'.slots k) f := by
        intro f hf
        by_cases hk : k = i
        · subst hk
          rw [Slot.settled, hs']
          dsimp only
          by_cases hfield : f = (w.slots k).runningField
          · rw [hfield, Function.update_self]
            exact hpending
          · rw [Function.update_of_ne hfield]
            exact hf
        · rw [hframe.slots k hk]
          exact hf
      have hops : (w'.slots k).ticketOperations = (w.slots k).ticketOperations := by
        by_cases hk : k = i
        · rw [hk]
          exact htenure.operations
        · rw [hframe.slots k hk]
      have hactk : (w.slots k).active → (w'.slots k).active := by
        intro hk'
        by_cases hk : k = i
        · rw [hk]
          exact hactive'
        · rw [hframe.slots k hk]
          exact hk'
      rcases hown.state with ⟨hlive, hop⟩ | ⟨hdead, hact', hset⟩
      · obtain ⟨hslot', hlive'⟩ := htakes.live_other hlive hself
        refine ⟨hown.lt, hown.slot_lt, .inl ⟨hstep.evolves.live.mpr hlive', ?_⟩⟩
        rw [hstep.evolves.operation, htakes.other hslot', hops]
        exact hop
      · exact ⟨hown.lt, hown.slot_lt, .inr ⟨hstep.evolves.dead (htakes.dead_other hdead), hactk hact',
          hsettled f hset⟩⟩
  · rw [htokens k] at hq
    rw [htokens k'] at hq'
    exact h.unique k f k' f' q hq hq'
  · rw [htokens k]
    by_cases hki : k = i
    · rw [hki]
      exact h.full i hactive f hf
    · rw [hframe.slots k hki] at hk
      exact h.full k hk f hf
  · refine h.cells (fun a ha => ?_) fun a _ k f q _ _ hq => ?_
    · have := follows_held happlied.env ha
      rw [← hheld]
      exact this
    · rw [← htokens k]
      exact hq

theorem current_of_eq (howner : w'.effectOwner = w.effectOwner)
    (hslots : ∀ j, w.effectOwner = some j → (w'.slots j).running = (w.slots j).running ∧
      (w'.slots j).runningField = (w.slots j).runningField ∧ (w'.slots j).tokens = (w.slots j).tokens) :
    current w' = current w := by
  unfold current
  rw [howner]
  rcases ho : w.effectOwner with _ | j
  · rfl
  · obtain ⟨hrunning, hfield, htokens⟩ := hslots j ho
    simp [capability, hrunning, hfield, htokens]

/-- A slot without a transaction is not running. -/
theorem current_of_inactive {i : ℕ} (hb : Base c p w) (hidle : (w.slots i).active = false)
    (howner : w'.effectOwner = w.effectOwner) (hslots : ∀ j, j ≠ i → w'.slots j = w.slots j) :
    current w' = current w := by
  refine current_of_eq howner fun j hj => ?_
  have hne : j ≠ i := by
    rintro rfl
    rw [hb.owner j hj] at hidle
    cases hidle
  rw [hslots j hne]
  exact ⟨rfl, rfl, rfl⟩

/-- The tokens of a slot are given up. -/
theorem Ports.dropped {i : ℕ} (h : Ports c w) {port : Port} (hcur : current w' = current w)
    (hsheds : Port.Sheds (fun q => ∃ f, (w.slots i).tokens f = some q) w.env.port port)
    (htickets : w'.env.port.tickets = port.tickets) (hheld : w'.env.port.held = port.held)
    (hwriters : w'.env.port.writers = port.writers)
    (hresults : ∀ r, (w'.env.port.results r).outcome = (port.results r).outcome)
    (hslots : ∀ j, j ≠ i → w'.slots j = w.slots j) (htokens : ∀ f, (w'.slots i).tokens f = none)
    (hactive : (w'.slots i).active = false) (hidle : (w'.slots i).running = false) : Ports c w' := by
  have hinv := hsheds.inv _ h.port
  have hstep : Port.Step (current w) port w'.env.port := by
    refine hinv.guard htickets (fun a ha => .inr (hheld ▸ ha)) (fun wr hw => ?_) hwriters hresults
    rw [hheld]
    exact (hinv.writer wr hw).2.1
  have hne : ∀ j f q, (w'.slots j).tokens f = some q → j ≠ i := by
    rintro j f q hq rfl
    rw [htokens f] at hq
    cases hq
  refine ⟨?_, fun j hj => ?_, fun j f q hq => ?_, fun j f j' f' q hq hq' => ?_, fun j hj f hf => ?_, ?_⟩
  · rw [hcur]
    exact hstep.inv
  · by_cases hji : j = i
    · rw [hji]
      exact hidle
    · rw [hslots j hji] at hj ⊢
      exact h.idle j hj
  · have hji := hne j f q hq
    rw [hslots j hji] at hq ⊢
    have hown := h.token j f q hq
    refine ⟨hown.lt, hown.slot_lt, ?_⟩
    rcases hown.state with ⟨hlive, hop⟩ | ⟨hdead, hrest⟩
    · have hnot : ¬∃ f', (w.slots i).tokens f' = some q := by
        rintro ⟨f', hf'⟩
        exact hji (h.unique j f i f' q hq hf').1
      obtain ⟨hlive', hop'⟩ := hsheds.live q hnot hlive
      refine .inl ⟨hstep.evolves.live.mpr hlive', ?_⟩
      rw [hstep.evolves.operation, hop']
      exact hop
    · exact .inr ⟨hstep.evolves.dead (hsheds.dead q hdead), hrest⟩
  · have hji := hne j f q hq
    have hji' := hne j' f' q hq'
    rw [hslots j hji] at hq
    rw [hslots j' hji'] at hq'
    exact h.unique j f j' f' q hq hq'
  · have hji : j ≠ i := by
      rintro rfl
      rw [hactive] at hj
      cases hj
    rw [hslots j hji] at hj ⊢
    exact h.full j hj f hf
  · refine h.cells (fun a ha => ?_) fun a _ j f q _ _ hq => ?_
    · rw [hheld, hsheds.held] at ha
      exact ha
    · rw [hslots j (hne j f q hq)] at hq
      exact hq

/-- The slot with a token for a field. -/
def ticketed (s : Slot) (f : ℕ) (q : Publisher) (operation : ℕ) : Slot :=
  { s with tokens := Function.update s.tokens f (some q)
           ticketOperations := Function.update s.ticketOperations f operation }

/-- A token of the slots is the new one or an old one. -/
theorem ticketed_cases {i f j f' operation : ℕ} {q q' : Publisher} {slots : ℕ → Slot}
    (h : (Function.update slots i (ticketed (slots i) f q operation) j).tokens f' = some q') :
    j = i ∧ f' = f ∧ q' = q ∨ (slots j).tokens f' = some q' ∧
      (Function.update slots i (ticketed (slots i) f q operation) j).ticketOperations f' =
        (slots j).ticketOperations f' := by
  by_cases hj : j = i
  · subst hj
    rw [Function.update_self] at h ⊢
    by_cases hf : f' = f
    · subst hf
      simp only [ticketed, Function.update_self, Option.some.injEq] at h
      exact .inl ⟨rfl, rfl, h.symm⟩
    · simp only [ticketed, Function.update_of_ne hf] at h ⊢
      exact .inr ⟨h, trivial⟩
  · rw [Function.update_of_ne hj] at h ⊢
    exact .inr ⟨h, rfl⟩

/-- A free ticket becomes the token of a field. -/
theorem Ports.reserve {i f : ℕ} {now : OperationContext} {u : Unit} (h : Ports c w) (hb : Base c p w)
    (hidle : (w.slots i).active = false) (hf : f < 4)
    (hheld : ∀ a ∈ w.env.port.held, a.index ≠ i * 4 + f)
    (hreserve : reserveTicket c i f now w = (.ok u, w')) : Ports c w' := by
  obtain ⟨q, port, field, hport, hw'⟩ := reserveTicket_spec hreserve
  obtain ⟨hlt, hfree, hgeneration, htickets, hheld', hwriters, -⟩ := Port.reserve_spec hport
  have hinv := Port.Inv.reserve hfree hgeneration htickets h.port hheld' hwriters
  have hslots : w'.slots =
      Function.update w.slots i (ticketed (w.slots i) f q w.nextTicketOperation) := by
    rw [hw']
    rfl
  have hstep : Port.Step (current w) port w'.env.port := by
    rw [hw']
    refine hinv.guard rfl (fun a ha => .inr ha) (fun wr hw => (hinv.writer wr hw).2.1) rfl fun r => ?_
    by_cases hr : r = i * 4 + f
    · subst hr
      simp [Port.setResult]
    · simp [Port.setResult, Function.update_of_ne hr]
  have hheld'' : w'.env.port.held = w.env.port.held := by
    rw [hw']
    exact hheld'
  have hother : ∀ j f' q', (w.slots j).tokens f' = some q' → q' ≠ q := by
    intro j f' q' hq'
    refine (Port.reserve_other hfree hgeneration htickets ?_).1
    rcases (h.token j f' q' hq').state with ⟨hlive, -⟩ | ⟨hdead, -⟩
    · exact .inl hlive
    · exact .inr hdead
  have hcur : current w' = current w := by
    refine current_of_inactive hb hidle (by rw [hw']) fun j hj => ?_
    rw [hslots, Function.update_of_ne hj]
  refine ⟨?_, fun j hj => ?_, fun j f' q' hq' => ?_, fun j f' j' f'' q' hq' hq'' => ?_,
    fun j hj f' hf' => ?_, ?_⟩
  · rw [hcur]
    exact hstep.inv
  · by_cases hji : j = i
    · rw [hji, hslots, Function.update_self]
      exact h.idle i hidle
    · rw [hslots, Function.update_of_ne hji] at hj ⊢
      exact h.idle j hj
  · rw [hslots] at hq' ⊢
    rcases ticketed_cases hq' with ⟨rfl, rfl, rfl⟩ | ⟨hold, hops⟩
    · obtain ⟨hlive, hop⟩ := Port.reserve_live hgeneration htickets
      refine ⟨hf, hlt, .inl ⟨hstep.evolves.live.mpr hlive, ?_⟩⟩
      rw [hstep.evolves.operation, hop, Function.update_self]
      simp [ticketed]
    · have hown := h.token j f' q' hold
      refine ⟨hown.lt, hown.slot_lt, ?_⟩
      rcases hown.state with ⟨hlive, hop⟩ | ⟨hdead, hactive, hsettled⟩
      · obtain ⟨hlive', hop'⟩ :=
          (Port.reserve_other hfree hgeneration htickets (.inl hlive)).2.1 hlive
        refine .inl ⟨hstep.evolves.live.mpr hlive', ?_⟩
        rw [hstep.evolves.operation, hops, hop', hop]
      · have hj : j ≠ i := by
          rintro rfl
          rw [hidle] at hactive
          cases hactive
        rw [Function.update_of_ne hj]
        exact .inr ⟨hstep.evolves.dead ((Port.reserve_other hfree hgeneration htickets
          (.inr hdead)).2.2 hdead), hactive, hsettled⟩
  · rw [hslots] at hq' hq''
    rcases ticketed_cases hq' with ⟨rfl, rfl, rfl⟩ | ⟨h₁, -⟩ <;>
      rcases ticketed_cases hq'' with ⟨rfl, rfl, heq⟩ | ⟨h₂, -⟩
    · exact ⟨rfl, rfl⟩
    · exact absurd rfl (hother _ _ _ h₂)
    · exact absurd heq (hother _ _ _ h₁)
    · exact h.unique j f' j' f'' q' h₁ h₂
  · have hji : j ≠ i := by
      rintro rfl
      rw [hslots, Function.update_self] at hj
      rw [show (ticketed (w.slots j) f q w.nextTicketOperation).active = (w.slots j).active from rfl,
        hidle] at hj
      cases hj
    rw [hslots, Function.update_of_ne hji] at hj ⊢
    exact h.full j hj f' hf'
  · refine h.cells (fun a ha => ?_) fun a ha j f' q' hindex _ hq' => ?_
    · rw [← hheld'']
      exact ha
    · rw [hslots] at hq'
      rcases ticketed_cases hq' with ⟨rfl, rfl, -⟩ | ⟨hold, -⟩
      · exact absurd hindex (hheld a (by rw [← hheld'']; exact ha))
      · exact hold

/-- A slot that is prepared for a transaction. -/
theorem Ports.scratch {i : ℕ} {s : Slot} (h : Ports c w) (hb : Base c p w)
    (hidle : (w.slots i).active = false) (hactive : s.active = false) (htokens : ∀ f q,
      s.tokens f = some q → (w.slots i).tokens f = some q ∧
        s.ticketOperations f = (w.slots i).ticketOperations f) (hrunning : s.running = false) :
    Ports c (w.setSlot i s) := by
  have hcur : current (w.setSlot i s) = current w :=
    current_of_inactive hb hidle rfl fun j hj => Function.update_of_ne hj _ _
  have hold : ∀ j f q, ((w.setSlot i s).slots j).tokens f = some q → (w.slots j).tokens f = some q := by
    intro j f q hq
    by_cases hj : j = i
    · rw [hj, setSlot_slots, Function.update_self] at hq
      rw [hj]
      exact (htokens f q hq).1
    · rw [setSlot_slots, Function.update_of_ne hj] at hq
      exact hq
  refine ⟨?_, fun j hj => ?_, fun j f q hq => ?_, fun j f j' f' q hq hq' => ?_, fun j hj f hf => ?_, ?_⟩
  · rw [hcur]
    exact h.port
  · by_cases hji : j = i
    · rw [hji, setSlot_slots, Function.update_self]
      exact hrunning
    · rw [setSlot_slots, Function.update_of_ne hji] at hj ⊢
      exact h.idle j hj
  · have hown := h.token j f q (hold j f q hq)
    by_cases hji : j = i
    · subst hji
      rw [setSlot_slots, Function.update_self] at hq ⊢
      rcases hown.state with ⟨hlive, hop⟩ | ⟨-, hact, -⟩
      · exact ⟨hown.lt, hown.slot_lt, .inl ⟨hlive, by rw [(htokens f q hq).2]; exact hop⟩⟩
      · rw [hidle] at hact
        cases hact
    · rw [setSlot_slots, Function.update_of_ne hji]
      exact hown
  · exact h.unique j f j' f' q (hold j f q hq) (hold j' f' q hq')
  · have hji : j ≠ i := by
      rintro rfl
      rw [setSlot_slots, Function.update_self, hactive] at hj
      cases hj
    rw [setSlot_slots, Function.update_of_ne hji] at hj ⊢
    exact h.full j hj f hf
  · exact h.cells (fun a ha => ha) fun a _ j f q _ _ hq => hold j f q hq

/-- The tickets of a transaction that is admitted. -/
theorem Ports.activated {i : ℕ} {now : OperationContext} (h : Ports c w) (hb : Base c p w)
    (hidle : (w.slots i).active = false) (hslots : ∀ j, j ≠ i → w'.slots j = w.slots j)
    (howner : w'.effectOwner = w.effectOwner) (hnow : Activated c i now w w') : Ports c w' := by
  obtain ⟨credits, hs⟩ := hnow.slot
  have hcur : current w' = current w := current_of_inactive hb hidle howner hslots
  have htokens : ∀ j, (w'.slots j).tokens = (w.slots j).tokens := by
    intro j
    by_cases hj : j = i
    · rw [hj, hs]
    · rw [hslots j hj]
  refine ⟨?_, fun j hj => ?_, fun j f q hq => ?_, fun j f j' f' q hq hq' => ?_, fun j hj f hf => ?_, ?_⟩
  · rw [hcur, hnow.env]
    exact h.port
  · have hji : j ≠ i := by
      rintro rfl
      rw [hs] at hj
      cases hj
    rw [hslots j hji] at hj ⊢
    exact h.idle j hj
  · rw [htokens j] at hq
    have hown := h.token j f q hq
    rw [hnow.env]
    by_cases hji : j = i
    · subst hji
      rcases hown.state with hlive | ⟨-, hact, -⟩
      · exact ⟨hown.lt, hown.slot_lt, .inl (by rw [hs]; exact hlive)⟩
      · rw [hidle] at hact
        cases hact
    · rw [hslots j hji]
      exact hown
  · rw [htokens j] at hq
    rw [htokens j'] at hq'
    exact h.unique j f j' f' q hq hq'
  · rw [htokens j]
    by_cases hji : j = i
    · rw [hji]
      exact hnow.tokens f hf
    · rw [hslots j hji] at hj
      exact h.full j hj f hf
  · refine h.cells (fun a ha => ?_) fun a _ j f q _ _ hq => ?_
    · rw [hnow.env] at ha
      exact ha
    · rw [← htokens j]
      exact hq

/-- A field is begun with a ticket of its own. -/
theorem Ports.start {i field : ℕ} {now : OperationContext} (h : Ports c w) (hb : Base c (.walking i now) w)
    (hbegun : Begun w i field) : Ports c (dispatchField c now i field w) ∧ current w = none := by
  obtain ⟨hactive, hs, hin⟩ := hb.turn rfl
  have haction : (w.slots i).action = 2 := by
    have h0 := (hin.action (by simp [Phase.isClosing])).1
    have h1 := hbegun.action
    have h2 := hs.action_le
    omega
  have howner := (hin.action (by simp [Phase.isClosing])).2 haction
  have hnone : current w = none := by simp [current, howner, hin.idle]
  have hinv := h.port
  rw [hnone] at hinv
  have hkeeps : ∀ j, Slot.Keeps (w.slots j) ((dispatchField c now i field w).slots j) := by
    intro j
    simp only [dispatchField, emit_slots, setSlot_slots]
    by_cases hj : j = i
    · subst hj
      rw [Function.update_self]
      refine ⟨rfl, rfl, rfl, fun hidle => ?_, fun _ hf => hf⟩
      rw [hactive] at hidle
      cases hidle
    · rw [Function.update_of_ne hj]
      exact .refl _
  refine ⟨⟨?_, fun j hj => ?_, fun j f q hq => ?_, fun j f j' f' q hq hq' => ?_, fun j hj f hf => ?_, ?_⟩,
    hnone⟩
  · rcases hcur : current (dispatchField c now i field w) with _ | cap
    · exact hinv
    · exact hinv.start cap
  · rw [(hkeeps j).active] at hj
    rw [(hkeeps j).running hj]
    exact h.idle j hj
  · rw [(hkeeps j).tokens] at hq
    exact (h.token j f q hq).keeps (.refl _) (hkeeps j)
  · rw [(hkeeps j).tokens] at hq
    rw [(hkeeps j').tokens] at hq'
    exact h.unique j f j' f' q hq hq'
  · rw [(hkeeps j).active] at hj
    rw [(hkeeps j).tokens]
    exact h.full j hj f hf
  · refine h.cells (fun a ha => ha) fun a _ j f q _ _ hq => ?_
    rw [← (hkeeps j).tokens]
    exact hq

/-- A release gives the tokens up and frees the results. -/
theorem releasedPort_spec (i : ℕ) (w : Engine σ) :
    (releasedPort c i w).tickets = (droppedPort c i w).tickets ∧
      (releasedPort c i w).held = (droppedPort c i w).held ∧
      (releasedPort c i w).writers = (droppedPort c i w).writers ∧
      ∀ r, ((releasedPort c i w).results r).outcome = ((droppedPort c i w).results r).outcome := by
  unfold releasedPort
  generalize droppedPort c i w = port
  induction List.range 4 generalizing port with
  | nil => exact ⟨rfl, rfl, rfl, fun _ => rfl⟩
  | cons f l ih =>
    obtain ⟨h1, h2, h3, h4⟩ := ih (port.setResult (i * 4 + f) fun r => { r with busy := false })
    refine ⟨h1, h2, h3, fun r => (h4 r).trans ?_⟩
    by_cases hr : r = i * 4 + f
    · subst hr
      simp [Port.setResult]
    · simp [Port.setResult, Function.update_of_ne hr]

theorem droppedPort_sheds (h : Ports c w) (i : ℕ) :
    Port.Sheds (fun q => ∃ f, (w.slots i).tokens f = some q) w.env.port (droppedPort c i w) :=
  Port.dropTokens_sheds _ fun f q hq => ⟨⟨f, hq⟩, (h.token i f q hq).slot_lt⟩

/-- Every act keeps the port and the slots together. -/
theorem Ports.act {i : ℕ} (h : Ports c w) (hb : Base c p w) (hact : Act c i p w p' w') : Ports c w' := by
  have hframe := hact.frame hb
  have hsame : w'.slots = w.slots → w'.effectOwner = w.effectOwner → w'.env = w.env → Ports c w' := by
    intro hslots howner henv
    refine h.keeps hb (current_of_eq howner fun j _ => ?_) (by rw [henv]; exact .refl h.port)
      (fun a ha => .inl (henv ▸ ha)) fun j => ?_
    · rw [hslots]
      exact ⟨rfl, rfl, rfl⟩
    · rw [hslots]
      exact .refl _
  by_cases hp : p = .idle
  · subst hp
    have hself := hact
    cases hact with
    | settle htake hfind => exact h.settle hb htake hfind (.settle htake hfind)
    | own hnone hlive haction =>
      have hactive := (live_iff.mp hlive).1
      have hidle : ¬(w.slots i).running := by
        intro hrunning
        have howner := ((hb.slot i hactive).running hrunning).owner
        rw [hnone] at howner
        cases howner
      exact (h.plain hb (.own hnone hlive haction) ⟨.refl _, hactive, hactive, hidle, hidle,
        fun _ hf => hf⟩).1
    | enter | query => exact h
    | drain hlive hrunning =>
      have hactive := (live_iff.mp hlive).1
      refine (h.plain hb (.drain hlive hrunning) ⟨.refl _, hactive, by simpa [cancelPending] using hactive,
        hrunning, by simpa [cancelPending] using hrunning, fun f hf => ?_⟩).1
      rw [Slot.settled, cancelPending, setSlot_slots, Function.update_self]
      dsimp only
      split
      · simp
      · exact hf
    | scratch hidle hactive htokens hrunning => exact h.scratch hb hidle hactive htokens hrunning
    | reserve hidle hf hheld _ hreserve => exact h.reserve hb hidle hf hheld hreserve
    | drop hidle =>
      refine h.dropped (i := i) (current_of_inactive hb hidle rfl hframe.slots)
        (droppedPort_sheds h i) rfl rfl rfl
        (fun _ => rfl) hframe.slots (fun f => ?_) ?_ ?_
      · simp [dropTokens]
      · simpa [dropTokens] using hidle
      · simpa [dropTokens] using h.idle i hidle
    | activate _ hidle =>
      obtain ⟨now, hnow⟩ := hself.activated hb hidle (by simp)
      exact h.activated hb hidle hframe.slots rfl hnow
    | disarm | confirm => exact hsame rfl rfl rfl
    | release hrelease =>
      obtain ⟨hactive, hcomplete, hw'⟩ := release_spec hrelease
      have hs := hb.slot i hactive
      have hrunning : ¬(w.slots i).running := fun hr => (hs.running hr).live hcomplete
      have howner : w.effectOwner ≠ some i := fun ho => (hs.lane ho).1 hcomplete
      obtain ⟨h1, h2, h3, h4⟩ := releasedPort_spec (c := c) i w
      subst hw'
      refine h.dropped (i := i) (current_of_eq rfl fun j hj => ?_)
        (droppedPort_sheds h i) h1 h2 h3 h4 hframe.slots (fun f => ?_) ?_ ?_
      · have hji : j ≠ i := fun heq => howner (heq ▸ hj)
        rw [hframe.slots j hji]
        exact ⟨rfl, rfl, rfl⟩
      · simp
      · simp
      · simpa using hrunning
  · rcases hact.turn_cases hb hp with hplain | ⟨now, field, rfl, -, hbegun, rfl⟩
    · exact (h.plain hb hact hplain).1
    · exact (h.start hb hbegun).1

/-! ## Completions -/

/-- The running field of a slot gets the outcome that was claimed for it. -/
structure Settles (c : Config σ) (i : ℕ) (w w' : Engine σ) : Prop where
  active : (w.slots i).active
  running : (w.slots i).running
  applied : ∃ o port,
    Port.Claimed w.env.port (capability i (w.slots i) (w.slots i).runningField) o ∧
    w' = applyOutcome c true i (w.slots i).runningField
      (o.getD (unknownOutcome ((w.slots i).execution.fields (w.slots i).runningField).id)) (w.setPort port)

/-- A completion gives the running field the outcome that was claimed for it. -/
theorem Ports.settles {i t : ℕ} (h : Ports c w) (hb : Base c p w) {record : CompletionRecord} {port : Port}
    (htake : w.env.port.consume (c.transactions * 4) t = (some record, port))
    (hfind : findRunning c w record.operation = some i) :
    Settles c i w (consume c record (w.setPort port)) := by
  obtain ⟨j, hj, hactive, hrunning, hpub⟩ := h.consumed_running hb htake
  obtain rfl := Option.some.inj (hfind.symm.trans hj)
  obtain ⟨-, hready, -, hresult, -, -, -, hresults⟩ := Port.consume_takes htake
  have hcur := current_of_running hb hactive hrunning
  have hpayload := h.port.payload _ hcur
  refine ⟨hactive, hrunning, ?_⟩
  rw [consume_eq port hfind, hresult, hresults]
  have hslot : (capability i (w.slots i) (w.slots i).runningField).publisher.slot = t := by rw [hpub]
  have hgeneration : (w.env.port.tickets t).generation =
      (capability i (w.slots i) (w.slots i).runningField).publisher.generation := by rw [hpub]
  rw [hslot] at hpayload
  by_cases hstatus : (w.env.port.tickets t).payload.status = .succeeded
  · have hvalue := hpayload hready hstatus
    rw [if_pos ⟨hstatus, hvalue⟩]
    refine ⟨_, port, .succeeded ?_ ?_ ?_, rfl⟩
    · rw [hslot, hgeneration]
    · rw [hslot, hready]
    · rw [hslot, ← hvalue, ← hstatus]
  · rw [if_neg fun hs => hstatus hs.1]
    refine ⟨none, port, .failed ?_ ?_ ?_, rfl⟩
    · rw [hslot, hgeneration]
    · rw [hslot, hready]
    · rw [hslot]
      exact hstatus

/-- The capability of the running field and what was claimed with it stay, until a field is begun or the
running one gets its outcome. -/
theorem Act.current_cases {i : ℕ} (h : Ports c w) (hb : Base c p w) (hact : Act c i p w p' w') :
    (current w' = current w ∧ ∀ cap o, current w = some cap → Port.Claimed w.env.port cap o →
      Port.Claimed w'.env.port cap o) ∨
    (current w = none ∧ ∃ now field, p = .walking i now ∧ p' = .idle ∧ Begun w i field ∧
      w' = dispatchField c now i field w) ∨
    p = .idle ∧ p' = .idle ∧ Settles c i w w' := by
  have hframe := hact.frame hb
  have hsame : current w' = current w → w'.env = w.env →
      current w' = current w ∧ ∀ cap o, current w = some cap → Port.Claimed w.env.port cap o →
        Port.Claimed w'.env.port cap o := by
    intro hcur henv
    rw [henv]
    exact ⟨hcur, fun _ _ _ hc => hc⟩
  by_cases hp : p = .idle
  · subst hp
    cases hact with
    | settle htake hfind => exact .inr (.inr ⟨rfl, rfl, h.settles hb htake hfind⟩)
    | own hnone hlive haction =>
      refine .inl (hsame ?_ rfl)
      have hidle : ¬(w.slots i).running := by
        intro hrunning
        have howner := ((hb.slot i (live_iff.mp hlive).1).running hrunning).owner
        rw [hnone] at howner
        cases howner
      exact current_of_act hb (.own hnone hlive haction) hidle hidle
    | enter | query | disarm | confirm => exact .inl (hsame (current_of_eq rfl fun _ _ => ⟨rfl, rfl, rfl⟩) rfl)
    | drain hlive hrunning =>
      exact .inl (hsame (current_of_act hb (.drain hlive hrunning) hrunning
        (by simpa [cancelPending] using hrunning)) rfl)
    | scratch hidle | activate _ hidle =>
      exact .inl (hsame (current_of_inactive hb hidle rfl hframe.slots) rfl)
    | @reserve _ _ f now u hidle _ _ _ hreserve =>
      obtain ⟨q, port, field, hport, hw'⟩ := reserveTicket_spec hreserve
      obtain ⟨-, hfree, -, htickets, -, hwriters, hresults⟩ := Port.reserve_spec hport
      refine .inl ⟨current_of_inactive hb hidle (by rw [hw']) hframe.slots, fun cap o hcur hc => ?_⟩
      have hinv := h.port
      rw [hcur] at hinv
      -- a claimed ticket is not free
      have hslot : cap.publisher.slot ≠ q.slot := by
        intro heq
        have hbusy := hinv.claimed_busy hc
        rw [heq, hfree] at hbusy
        rcases hbusy with hbusy | hbusy <;> cases hbusy
      rw [hw']
      refine hc.of_tickets ?_ hwriters fun r => ?_
      · exact (congrFun htickets _).trans (Function.update_of_ne hslot _ _)
      · by_cases hr : r = i * 4 + f
        · rw [hr]
          simp [Port.setResult, hresults]
        · simp [Port.setResult, Function.update_of_ne hr, hresults]
    | drop hidle =>
      refine .inl ⟨current_of_inactive hb hidle rfl hframe.slots, fun cap o hcur hc => ?_⟩
      have hinv := h.port
      rw [hcur] at hinv
      exact (droppedPort_sheds h i).claimed cap o hinv hc
    | release hrelease =>
      obtain ⟨hactive, hcomplete, hw'⟩ := release_spec hrelease
      have hs := hb.slot i hactive
      have howner : w.effectOwner ≠ some i := fun ho => (hs.lane ho).1 hcomplete
      obtain ⟨h1, h2, h3, h4⟩ := releasedPort_spec (c := c) i w
      refine .inl ⟨current_of_eq (by rw [hw']) fun j hj => ?_, fun cap o hcur hc => ?_⟩
      · rw [hframe.slots j fun heq => howner (heq ▸ hj)]
        exact ⟨rfl, rfl, rfl⟩
      · have hinv := h.port
        rw [hcur] at hinv
        have hdropped := (droppedPort_sheds h i).claimed cap o hinv hc
        rw [hw']
        exact hdropped.of_tickets (congrFun h1 _) h3 h4
  · rcases hact.turn_cases hb hp with hplain | ⟨now, field, rfl, rfl, hbegun, rfl⟩
    · obtain ⟨-, hcur, hstep⟩ := h.plain hb hact hplain
      exact .inl ⟨hcur, fun cap o hcap hc => hstep.claimed cap hcap o hc⟩
    · exact .inr (.inl ⟨(h.start hb hbegun).2, now, field, rfl, rfl, hbegun, rfl⟩)

/-! ## Other moves -/

/-- A move for no transaction in particular, with what it does to the tickets. -/
structure Rest (p : Phase) (w w' : Engine σ) : Prop where
  still : Still p w w'
  current : current w' = current w
  port : Port.Step (Engine.current w) w.env.port w'.env.port
  held : ∀ a ∈ w'.env.port.held, a ∈ w.env.port.held ∨ Engine.current w = some a

theorem Still.current_eq (h : Still p w w') : current w' = current w := by
  refine current_of_eq h.owner fun j _ => ?_
  rw [h.slots j]
  exact ⟨rfl, rfl, rfl⟩

theorem Rest.of_guard (h : Ports c w) (hstill : Still p w w')
    (htickets : w'.env.port.tickets = w.env.port.tickets) (hheld : w'.env.port.held = w.env.port.held)
    (hwriters : w'.env.port.writers = w.env.port.writers)
    (hresults : ∀ r, (w'.env.port.results r).outcome = (w.env.port.results r).outcome) : Rest p w w' := by
  refine ⟨hstill, hstill.current_eq, ?_, fun a ha => .inl (hheld ▸ ha)⟩
  refine h.port.guard htickets (fun a ha => .inr (hheld ▸ ha)) (fun wr hw => ?_) hwriters hresults
  rw [hheld]
  exact (h.port.writer wr hw).2.1

/-- What happens to the port in a quiet move. -/
theorem PortStep.step {port : Port} (h : Ports c w) (hb : Base c p w) (hstep : PortStep c w port) :
    Port.Step (current w) w.env.port port ∧
      ∀ a ∈ port.held, a ∈ w.env.port.held ∨ current w = some a := by
  cases hstep with
  | act actions =>
    refine ⟨h.port.actAll actions, fun a ha => .inl ?_⟩
    have hfollows : w.env.Follows { w.env with port := w.env.port.actAll actions } := ⟨actions, rfl⟩
    exact follows_held hfollows ha
  | guard htickets hheld hwriters hresults =>
    refine ⟨h.port.guard htickets (fun a ha => .inr (hheld ▸ ha)) (fun wr hw => ?_) hwriters hresults,
      fun a ha => .inl (hheld ▸ ha)⟩
    rw [hheld]
    exact (h.port.writer wr hw).2.1
  | @hold i hrunning =>
    have hcur := current_of_running hb (h.active_of_running hrunning) hrunning
    have hinv := h.port
    rw [hcur] at hinv ⊢
    refine ⟨hinv.hold, fun a ha => ?_⟩
    rcases List.mem_cons.mp ha with rfl | ha
    · exact .inr rfl
    · exact .inl ha
  | @complete i hrunning o ho =>
    have hcur := current_of_running hb (h.active_of_running hrunning) hrunning
    have hinv := h.port
    rw [hcur] at hinv ⊢
    refine ⟨hinv.complete o, fun a ha => .inl ?_⟩
    rw [Port.complete_held] at ha
    exact ha
  | consume htake hnone =>
    obtain ⟨j, hj, -⟩ := h.consumed_running hb htake
    rw [hnone] at hj
    cases hj

/-- A fault leaves the tickets and the outcomes. -/
theorem observeFault_port (w : Engine σ) (r : ℕ) :
    (observeFault w r).env.port.tickets = w.env.port.tickets ∧
      (observeFault w r).env.port.held = w.env.port.held ∧
      (observeFault w r).env.port.writers = w.env.port.writers ∧
      ∀ k, ((observeFault w r).env.port.results k).outcome = (w.env.port.results k).outcome := by
  have hguard : ∀ k, ((w.env.port.setGuard r fun g => { g with contradiction := false }).results
      k).outcome = (w.env.port.results k).outcome := Port.setGuard_outcome w.env.port r _
  unfold observeFault
  dsimp only
  split
  · split
    · split
      · exact ⟨rfl, rfl, rfl, hguard⟩
      · split <;> exact ⟨rfl, rfl, rfl, hguard⟩
    · exact ⟨rfl, rfl, rfl, hguard⟩
  · exact ⟨rfl, rfl, rfl, fun _ => rfl⟩

/-- A move is for one transaction, or leaves all of them and their tickets alone. -/
theorem Move.rest (h : Ports c w) (hb : Base c p w) (hmove : Move c p w p' w') :
    (∃ i, Act c i p w p' w') ∨ p' = p ∧ Rest p w w' := by
  cases hmove with
  | quiet hquiet =>
    obtain ⟨hstep, hheld⟩ := hquiet.port.step h hb
    have hstill : Still p w w' := hquiet.still
    exact .inr ⟨rfl, hstill, hstill.current_eq, hstep, hheld⟩
  | fault r =>
    obtain ⟨h1, h2, h3, h4⟩ := observeFault_port w r
    exact .inr ⟨rfl, .of_guard h (observeFault_still r w) h1 h2 h3 h4⟩
  | act i hact => exact .inl ⟨i, hact⟩
  | mark hmarked => exact .inr ⟨rfl, .of_guard h (mark_still hmarked) rfl rfl rfl fun _ => rfl⟩
  | reset state generation hidle htickets hheld hwriters hresults =>
    exact .inr ⟨rfl, .of_guard h (reset_still hb state generation hidle) htickets hheld hwriters hresults⟩

theorem Ports.rest (h : Ports c w) (hb : Base c p w) (hrest : Rest p w w') : Ports c w' := by
  refine h.keeps hb hrest.current hrest.port hrest.held fun j => ?_
  rw [hrest.still.slots j]
  exact ⟨rfl, rfl, rfl, fun _ => rfl, fun _ hf => hf⟩

theorem ports_initial (ext : σ) (pool : AdmissionPool) (state : StateSnapshot)
    (timeline : Option SampleTimeline) : Ports c (initial ext pool state timeline) := by
  refine ⟨⟨fun _ => le_rfl, ?_, ?_, ?_, Nat.zero_le _, ?_, ?_⟩, fun _ _ => rfl, ?_, ?_, ?_, ?_⟩
  all_goals simp [initial, current]

/-- What holds of a new engine and is kept by every move, given the invariants, holds in every state of
every run. -/
theorem ports_invariant {P : Phase → Engine σ → Prop}
    (hinitial : ∀ ext pool state timeline, P .idle (initial ext pool state timeline))
    (hact : ∀ p w i p' w', Base c p w → Ports c w → P p w → Act c i p w p' w' → P p' w')
    (hrest : ∀ p w w', Base c p w → Ports c w → P p w → Rest p w w' → P p w') (h : Reachable c w) :
    Base c .idle w ∧ Ports c w ∧ P .idle w := by
  refine reachable_invariant (P := fun p w => Base c p w ∧ Ports c w ∧ P p w)
    (fun ext pool state timeline => ?_) (fun p w p' w' ⟨hb, hp, hP⟩ hmove => ?_) h
  · refine ⟨?_, ports_initial ext pool state timeline, hinitial ext pool state timeline⟩
    exact (base_invariant (P := fun _ _ => True) (fun _ _ _ _ => trivial) (fun _ _ _ _ _ _ _ _ => trivial)
      (fun _ _ _ _ _ _ => trivial) ⟨ext, pool, state, timeline, [], rfl⟩).1
  · refine ⟨hb.move hmove, ?_⟩
    rcases hmove.rest hp hb with ⟨i, h⟩ | ⟨rfl, h⟩
    · exact ⟨hp.act hb h, hact p w i p' w' hb hp hP h⟩
    · exact ⟨hp.rest hb h, hrest p' w w' hb hp hP h⟩

end Vita.Transaction.Engine
