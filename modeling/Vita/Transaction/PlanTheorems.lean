import Vita.Transaction.Plan
import Mathlib.Data.Finset.Card
import Mathlib.Data.Finset.Range
import Mathlib.Logic.Function.Basic

/-!
# Facts about plans

What validation and the checks after it do to a plan. A successful validation orders all fields of the
request; where partial execution is not allowed, it leaves all fields eligible or none. Every later
check only takes eligibility away.

Main lemmas:
- `sortFields_permuted`: an order that was found lists every field once;
- `validatePlan_planned`: the plan of a validation;
- `validateBoundaryState_narrows`, `validateBoundaryState_uniform`: the check of the boundary.
-/

namespace Vita.Transaction

open Checked Timing State

/-! ## Orders -/

/-- Every field has a position in the order of the plan. -/
def Permuted (p : ExecutionPlan) : Prop := ∀ f < p.count, ∃ q < p.count, p.order q = f

namespace Permuted

variable {p : ExecutionPlan}

theorem image_eq (h : Permuted p) :
    (Finset.range p.count).image p.order = Finset.range p.count := by
  refine (Finset.eq_of_subset_of_card_le (fun f hf => ?_) ?_).symm
  · obtain ⟨q, hq, rfl⟩ := h f (Finset.mem_range.mp hf)
    exact Finset.mem_image_of_mem _ (Finset.mem_range.mpr hq)
  · exact Finset.card_image_le

theorem lt (h : Permuted p) {q : ℕ} (hq : q < p.count) : p.order q < p.count := by
  have hmem := Finset.mem_image_of_mem p.order (Finset.mem_range.mpr hq)
  rw [h.image_eq] at hmem
  exact Finset.mem_range.mp hmem

theorem injective (h : Permuted p) {q r : ℕ} (hq : q < p.count) (hr : r < p.count)
    (heq : p.order q = p.order r) : q = r := by
  have hinj := Finset.injOn_of_card_image_eq (congrArg Finset.card h.image_eq)
  exact hinj (by simpa using hq) (by simpa using hr) heq

/-- An order without repetitions lists every field. -/
theorem of_injective (hlt : ∀ q < p.count, p.order q < p.count)
    (hinj : ∀ q < p.count, ∀ r < p.count, p.order q = p.order r → q = r) : Permuted p := by
  have himage : (Finset.range p.count).image p.order = Finset.range p.count := by
    refine Finset.eq_of_subset_of_card_le (fun f hf => ?_) ?_
    · obtain ⟨q, hq, rfl⟩ := Finset.mem_image.mp hf
      exact Finset.mem_range.mpr (hlt q (Finset.mem_range.mp hq))
    · rw [Finset.card_image_of_injOn]
      intro q hq r hr
      exact hinj q (by simpa using hq) r (by simpa using hr)
  intro f hf
  rw [← Finset.mem_range, ← himage] at hf
  obtain ⟨q, hq, rfl⟩ := Finset.mem_image.mp hf
  exact ⟨q, Finset.mem_range.mp hq, rfl⟩

end Permuted

/-- The part of an order before `position` has no repetitions and is marked as visited. -/
structure Placed (count position : ℕ) (visited : BitVec 8) (order : ℕ → ℕ) : Prop where
  lt : ∀ q < position, order q < count
  visited : ∀ q < position, visited.getLsbD (order q)
  injective : ∀ q < position, ∀ r < position, order q = order r → q = r

section Order

variable {fields : ℕ → PlannedField} {count : ℕ}

theorem nextField_eq_some {visited : BitVec 8} {i : ℕ} (h : nextField fields count visited = some i) :
    i < count ∧ ¬visited.getLsbD i := by
  have hmem := List.mem_of_find?_eq_some h
  have hp := List.find?_some h
  simp only [decide_eq_true_eq] at hp
  exact ⟨List.mem_range.mp hmem, hp.1⟩

/-- One more field has its position. -/
theorem Placed.next {position i : ℕ} {visited : BitVec 8} {order : ℕ → ℕ}
    (h : Placed count position visited order) (hi : i < count) (hcount : count ≤ 8)
    (hnew : ¬visited.getLsbD i) :
    Placed count (position + 1) (visited ||| BitVec.ofNat 8 (2 ^ i))
      (Function.update order position i) := by
  have hbit : (BitVec.ofNat 8 (2 ^ i)).getLsbD i = true := by
    rw [BitVec.getLsbD_ofNat, Nat.testBit_two_pow_self]
    simp only [Bool.and_true, decide_eq_true_eq]
    omega
  have hold : ∀ q < position, Function.update order position i q = order q := by
    intro q hq
    exact Function.update_of_ne (by omega) _ _
  have hfresh : ∀ q < position, order q ≠ i := by
    rintro q hq rfl
    exact hnew (h.visited q hq)
  refine ⟨fun q hq => ?_, fun q hq => ?_, fun q hq r hr heq => ?_⟩
  · rcases Nat.lt_succ_iff_lt_or_eq.mp hq with hq | rfl
    · rw [hold q hq]
      exact h.lt q hq
    · rw [Function.update_self]
      exact hi
  · rw [BitVec.getLsbD_or, Bool.or_eq_true]
    rcases Nat.lt_succ_iff_lt_or_eq.mp hq with hq | rfl
    · rw [hold q hq]
      exact .inl (h.visited q hq)
    · rw [Function.update_self]
      exact .inr hbit
  · rcases Nat.lt_succ_iff_lt_or_eq.mp hq with hq | rfl <;>
      rcases Nat.lt_succ_iff_lt_or_eq.mp hr with hr | rfl
    · rw [hold q hq, hold r hr] at heq
      exact h.injective q hq r hr heq
    · rw [hold q hq, Function.update_self] at heq
      exact absurd heq (hfresh q hq)
    · rw [hold r hr, Function.update_self] at heq
      exact absurd heq.symm (hfresh r hr)
    · rfl

/-- An order that was found has no repetitions. -/
theorem sortFields_placed (hcount : count ≤ 8) {n position : ℕ} {visited : BitVec 8}
    {order order' : ℕ → ℕ} (h : Placed count position visited order)
    (hsort : sortFields fields count n position visited order = (true, order')) :
    ∃ visited', Placed count (position + n) visited' order' := by
  induction n generalizing position visited order with
  | zero =>
    simp only [sortFields, Prod.mk.injEq, true_and] at hsort
    exact ⟨visited, hsort ▸ h⟩
  | succ n ih =>
    simp only [sortFields] at hsort
    split at hsort
    · simp at hsort
    · next i hnext =>
      obtain ⟨hi, hnew⟩ := nextField_eq_some hnext
      rw [Nat.add_comm n, ← Nat.add_assoc]
      exact ih (h.next hi hcount hnew) hsort

theorem sortFields_permuted {p : ExecutionPlan} {order : ℕ → ℕ} (hcount : p.count ≤ 8)
    (hsort : sortFields p.fields p.count p.count 0 0 order = (true, p.order)) : Permuted p := by
  have hstart : Placed p.count 0 0 order := by
    constructor <;> simp
  obtain ⟨visited, hplaced⟩ := sortFields_placed hcount hstart hsort
  rw [Nat.zero_add] at hplaced
  exact .of_injective hplaced.lt hplaced.injective

end Order

/-! ## Eligibility -/

/-- Only fields of the plan are eligible, and then the order lists all fields. -/
def Sound (p : ExecutionPlan) : Prop := ∀ f, (p.fields f).eligible → f < p.count ∧ Permuted p

/-- All fields are eligible or none is. -/
def Uniform (p : ExecutionPlan) : Prop :=
  (∀ f < p.count, (p.fields f).eligible) ∨ ∀ f < p.count, ¬(p.fields f).eligible

/-- The second plan differs from the first by fewer eligible fields, by diagnostics, and by its
boundary. -/
structure Narrows (p p' : ExecutionPlan) : Prop where
  count : p'.count = p.count
  order : p'.order = p.order
  expected : p'.expectedStateVersion = p.expectedStateVersion
  id : ∀ f, (p'.fields f).id = (p.fields f).id
  eligible : ∀ f, (p'.fields f).eligible → (p.fields f).eligible

namespace Narrows

variable {p p' p'' : ExecutionPlan}

theorem refl (p : ExecutionPlan) : Narrows p p := ⟨rfl, rfl, rfl, fun _ => rfl, fun _ h => h⟩

theorem trans (h : Narrows p p') (h' : Narrows p' p'') : Narrows p p'' where
  count := h'.count.trans h.count
  order := h'.order.trans h.order
  expected := h'.expected.trans h.expected
  id f := (h'.id f).trans (h.id f)
  eligible f hf := h.eligible f (h'.eligible f hf)

theorem permuted (h : Narrows p p') : Permuted p' ↔ Permuted p := by
  unfold Permuted
  rw [h.count, h.order]

theorem sound (h : Narrows p p') (hp : Sound p) : Sound p' := by
  intro f hf
  obtain ⟨hlt, hperm⟩ := hp f (h.eligible f hf)
  exact ⟨h.count ▸ hlt, h.permuted.mpr hperm⟩

end Narrows

theorem narrows_ite {p q r : ExecutionPlan} {b : Prop} [Decidable b] (hq : Narrows p q)
    (hr : Narrows p r) : Narrows p (if b then q else r) := by
  split
  · exact hq
  · exact hr

/-- A plan narrows if its fields keep their ids and none becomes eligible. -/
theorem mapFields_narrows (p : ExecutionPlan) {g : ℕ → PlannedField → PlannedField}
    (hid : ∀ i f, (g i f).id = f.id) (heligible : ∀ i f, (g i f).eligible → f.eligible) :
    Narrows p (mapFields p g) := by
  refine ⟨rfl, rfl, rfl, fun f => ?_, fun f hf => ?_⟩
  · simp only [mapFields]
    split
    · exact hid _ _
    · rfl
  · simp only [mapFields] at hf
    split at hf
    · exact heligible _ _ hf
    · exact hf

/-- A loop that makes all fields ineligible. -/
theorem mapFields_narrows_none (p : ExecutionPlan) {g : ℕ → PlannedField → PlannedField}
    (hid : ∀ i f, (g i f).id = f.id) (h : ∀ i f, (g i f).eligible = false) :
    Narrows p (mapFields p g) :=
  mapFields_narrows p hid fun i f hf => absurd ((h i f).symm.trans hf) Bool.false_ne_true

theorem withdrawAll_narrows (p : ExecutionPlan) (errors : UInt32) :
    Narrows p (withdrawAll p errors) :=
  mapFields_narrows_none p (fun _ _ => rfl) fun _ _ => rfl

theorem mapFields_uniform (p : ExecutionPlan) {g : ℕ → PlannedField → PlannedField}
    (h : ∀ i f, (g i f).eligible = false) : Uniform (mapFields p g) := by
  refine .inr fun f hf => ?_
  have hf' : f < p.count := hf
  simp only [mapFields, if_pos hf', h, Bool.false_eq_true, not_false_eq_true]

theorem withdrawAll_uniform (p : ExecutionPlan) (errors : UInt32) : Uniform (withdrawAll p errors) :=
  mapFields_uniform p fun _ _ => rfl

/-- A propagated error makes no field eligible. -/
theorem propagateStep_narrows (errors : UInt32) (count : ℕ) (fields : ℕ → PlannedField) (f i : ℕ) :
    (propagateStep errors count fields f i).id = (fields i).id ∧
      ((propagateStep errors count fields f i).eligible → (fields i).eligible) := by
  unfold propagateStep
  split
  · by_cases hi : i = f
    · subst hi
      rw [Function.update_self]
      exact ⟨rfl, fun h => absurd h Bool.false_ne_true⟩
    · rw [Function.update_of_ne hi]
      exact ⟨rfl, id⟩
  · exact ⟨rfl, id⟩

/-- The propagation of the errors narrows a plan. -/
theorem propagate_narrows (p : ExecutionPlan) (errors : UInt32) : Narrows p (propagate p errors) := by
  have h : ∀ (l : List ℕ) (fields : ℕ → PlannedField) (i : ℕ),
      (l.foldl (propagateStep errors p.count) fields i).id = (fields i).id ∧
        ((l.foldl (propagateStep errors p.count) fields i).eligible → (fields i).eligible) := by
    intro l
    induction l with
    | nil => exact fun _ _ => ⟨rfl, fun h => h⟩
    | cons f l ih =>
      intro fields i
      obtain ⟨hid, heligible⟩ := ih (propagateStep errors p.count fields f) i
      obtain ⟨hid', heligible'⟩ := propagateStep_narrows errors p.count fields f i
      exact ⟨hid.trans hid', fun h => heligible' (heligible h)⟩
  exact ⟨rfl, rfl, rfl, fun f => (h _ _ f).1, fun f => (h _ _ f).2⟩

theorem allEligible_iff {p : ExecutionPlan} (hp : Permuted p) :
    allEligible p ↔ ∀ f < p.count, (p.fields f).eligible := by
  simp only [allEligible, List.mem_range, decide_eq_true_eq]
  constructor
  · intro h f hf
    obtain ⟨q, hq, rfl⟩ := hp f hf
    exact h q hq
  · intro h q hq
    exact h _ (hp.lt hq)

/-! ## Validation -/

/-- The second environment comes from the first by what the callbacks did. -/
def Env.Follows {σ : Type} (e e' : Env σ) : Prop := ∃ actions, e'.port = e.port.actAll actions

namespace Env.Follows

variable {σ : Type} {e e' e'' : Env σ}

theorem refl (e : Env σ) : e.Follows e := ⟨[], rfl⟩

theorem trans (h : e.Follows e') (h' : e'.Follows e'') : e.Follows e'' := by
  obtain ⟨a, ha⟩ := h
  obtain ⟨b, hb⟩ := h'
  exact ⟨a ++ b, by rw [hb, ha, Port.actAll, Port.actAll, Port.actAll, List.foldl_append]⟩

theorem call {α : Type} (e : Env σ) (f : σ → Reply σ α) : e.Follows (e.call f).2 := ⟨_, rfl⟩

end Env.Follows

section Validation

variable {σ : Type} {c : Config σ}

theorem backendValidate_follows (state : StateSnapshot) (f : RequestField) (v : Validation)
    (e : Env σ) : e.Follows (backendValidate c state f v e).2 := by
  unfold backendValidate
  split
  · exact .refl e
  · split
    · exact .call e _
    · exact .refl e

theorem validateField_follows (state : StateSnapshot) (action : ℕ) (f : RequestField) (e : Env σ) :
    e.Follows (validateField c state action f e).2 := by
  unfold validateField
  split
  · exact .refl e
  · split
    · exact backendValidate_follows _ _ _ e
    · exact .refl e

theorem plannedField_id (s : Slot) (state : StateSnapshot) (f : RequestField) (v : Validation) :
    (plannedField s state f v).id = f.id := by
  unfold plannedField
  split <;> rfl

theorem validateFields_spec (s : Slot) (state : StateSnapshot) (armed : Bool)
    (fields : List RequestField) (e : Env σ) :
    (validateFields c s state armed fields e).1.map PlannedField.id = fields.map RequestField.id ∧
      e.Follows (validateFields c s state armed fields e).2 := by
  induction fields generalizing e with
  | nil => exact ⟨rfl, .refl e⟩
  | cons f rest ih =>
    obtain ⟨hids, hfollows⟩ := ih (validateField c state s.action f e).2
    simp only [validateFields, List.map_cons, plannedField_id, hids]
    exact ⟨trivial, (validateField_follows state s.action f e).trans hfollows⟩

theorem validateWhole_follows (s : Slot) (p : ExecutionPlan) (state : StateSnapshot) (e : Env σ) :
    e.Follows (validateWhole c s p state e).2 := by
  unfold validateWhole
  split
  · exact .refl e
  · split
    · exact .call e _
    · exact .refl e

/-- What a validation does to the plan of a slot. -/
structure Planned (s s' : Slot) (version : ℕ) (ok : Bool) : Prop where
  slot : s' = { s with execution := s'.execution }
  count : s'.execution.count = s.request.count
  expected : s'.execution.expectedStateVersion = version
  id : ∀ f < s.request.count, (s'.execution.fields f).id = (s.request.field f).id
  outside : ∀ f, s.request.count ≤ f → s'.eligible f → s.eligible f
  permuted : ok → Permuted s'.execution
  uniform : ok → ¬s.request.cam.partialAllowed → Uniform s'.execution
  boundary : s'.execution.boundary = s.execution.boundary

theorem getD_map_id {planned : List PlannedField} {r : Request}
    (h : planned.map PlannedField.id = r.fields.map RequestField.id) {f : ℕ} (hf : f < r.count) :
    (planned.getD f {}).id = (r.field f).id := by
  have hlen : planned.length = r.fields.length := by
    simpa only [List.length_map] using congrArg List.length h
  have hget := congrArg (fun l => l[f]?) h
  simp only [List.getElem?_map] at hget
  rw [List.getD_eq_getElem?_getD, Request.field, List.getD_eq_getElem?_getD]
  rw [List.getElem?_eq_getElem hf, List.getElem?_eq_getElem (hlen ▸ hf)] at hget ⊢
  simpa using hget

/-- The plan before its fields are ordered. -/
def rawPlan (s : Slot) (version : ℕ) (planned : List PlannedField) : ExecutionPlan :=
  { s.execution with
    count := s.request.count, expectedStateVersion := version
    fields := fun i => if i < s.request.count then planned.getD i {} else s.execution.fields i }

/-- The plan after the backend's check of the whole. -/
def wholePlan (p : ExecutionPlan) (whole : Bool) : ExecutionPlan :=
  if whole then p
  else { p with fields := fun i => PlannedField.withdraw (p.fields i) invalidValue }

/-- The plan after the decision on partial execution. -/
def blockedPlan (c : Config σ) (s : Slot) (p : ExecutionPlan) (whole : Bool) : ExecutionPlan :=
  if blocksAll c s (allEligible p && whole) then
    mapFields (wholePlan p whole) fun _ f => { f with eligible := false }
  else wholePlan p whole

/-- The plan with its diagnostics. -/
def markPlan (p : ExecutionPlan) : ExecutionPlan :=
  mapFields p fun _ f =>
    if f.eligible then f else { f with diagnostics := markNotExecuted f.diagnostics }

/-- The last part of a validation. -/
def settlePlan (c : Config σ) (s : Slot) (p : ExecutionPlan) (whole : Bool) : ExecutionPlan :=
  markPlan (blockedPlan c s p whole)

/-- `validatePlan` in terms of its parts. -/
theorem validatePlan_eq (s : Slot) (state : StateSnapshot) (armed : Bool) (e : Env σ) :
    validatePlan c s state armed e =
      let planned := validateFields c s state armed s.request.fields e
      let p := rawPlan s state.version planned.1
      match sortFields p.fields p.count p.count 0 0 p.order with
      | (false, order) => (false, { s with execution := { p with order } }, planned.2)
      | (true, order) =>
        let p := propagate { p with order } dependencyBlocked
        let whole := validateWhole c s p state planned.2
        (true, { s with execution := settlePlan c s p whole.1 }, whole.2) := rfl

theorem wholePlan_narrows (p : ExecutionPlan) (whole : Bool) : Narrows p (wholePlan p whole) :=
  narrows_ite (.refl p) ⟨rfl, rfl, rfl, fun _ => rfl, fun _ h => absurd h Bool.false_ne_true⟩

theorem blockedPlan_narrows (s : Slot) (p : ExecutionPlan) (whole : Bool) :
    Narrows p (blockedPlan c s p whole) := by
  have hwhole := wholePlan_narrows p whole
  exact narrows_ite (hwhole.trans (mapFields_narrows_none _ (fun _ _ => rfl) fun _ _ => rfl)) hwhole

theorem markPlan_eligible (p : ExecutionPlan) (f : ℕ) :
    ((markPlan p).fields f).eligible = (p.fields f).eligible := by
  simp only [markPlan, mapFields]
  split
  · split <;> rfl
  · rfl

theorem markPlan_narrows (p : ExecutionPlan) : Narrows p (markPlan p) := by
  refine ⟨rfl, rfl, rfl, fun f => ?_, fun f h => ?_⟩
  · simp only [markPlan, mapFields]
    split
    · split <;> rfl
    · rfl
  · rwa [markPlan_eligible] at h

theorem settlePlan_narrows (s : Slot) (p : ExecutionPlan) (whole : Bool) :
    Narrows p (settlePlan c s p whole) :=
  (blockedPlan_narrows s p whole).trans (markPlan_narrows _)

theorem settlePlan_boundary (s : Slot) (p : ExecutionPlan) (whole : Bool) :
    (settlePlan c s p whole).boundary = p.boundary := by
  simp only [settlePlan, markPlan, mapFields, blockedPlan, wholePlan]
  split <;> split <;> rfl

/-- A command that is executed as a whole has a plan that is all or nothing. -/
theorem settlePlan_uniform (s : Slot) {p : ExecutionPlan} (whole : Bool) (hp : Permuted p)
    (hwhole : ¬s.request.cam.partialAllowed) : Uniform (settlePlan c s p whole) := by
  suffices h : Uniform (blockedPlan c s p whole) by
    rcases h with h | h
    · exact .inl fun f hf => by rw [settlePlan, markPlan_eligible]; exact h f hf
    · exact .inr fun f hf => by rw [settlePlan, markPlan_eligible]; exact h f hf
  by_cases hall : (allEligible p && whole) = true
  · -- nothing is blocked: every field is eligible
    have hblock : blocksAll c s (allEligible p && whole) = false := by
      simp [blocksAll, hall]
    obtain ⟨hall', rfl⟩ := Bool.and_eq_true_iff.mp hall
    rw [blockedPlan, hblock]
    exact .inl ((allEligible_iff hp).mp hall')
  · have hblock : blocksAll c s (allEligible p && whole) = true := by
      simp only [blocksAll, hall, decide_eq_true_eq]
      exact ⟨.inl hwhole, Bool.false_ne_true⟩
    rw [blockedPlan, hblock, if_pos rfl]
    exact mapFields_uniform _ fun _ _ => rfl

/-- A validation plans the fields of the request. -/
theorem validatePlan_planned {s : Slot} (hcount : s.request.count ≤ 8) (state : StateSnapshot)
    (armed : Bool) (e : Env σ) :
    Planned s (validatePlan c s state armed e).2.1 state.version (validatePlan c s state armed e).1 ∧
      e.Follows (validatePlan c s state armed e).2.2 := by
  rw [validatePlan_eq]
  obtain ⟨hids, hfollows⟩ := validateFields_spec (c := c) s state armed s.request.fields e
  have hid : ∀ f < s.request.count,
      ((rawPlan s state.version (validateFields c s state armed s.request.fields e).1).fields f).id =
        (s.request.field f).id := by
    intro f hf
    simp only [rawPlan, if_pos hf]
    exact getD_map_id hids hf
  have houtside : ∀ f, s.request.count ≤ f →
      (rawPlan s state.version (validateFields c s state armed s.request.fields e).1).fields f =
        s.execution.fields f := by
    intro f hf
    simp only [rawPlan, if_neg (Nat.not_lt.mpr hf)]
  generalize hp : rawPlan s state.version (validateFields c s state armed s.request.fields e).1 = p
    at hid houtside
  have hpc : p.count = s.request.count := hp ▸ rfl
  have hpv : p.expectedStateVersion = state.version := hp ▸ rfl
  have hpb : p.boundary = s.execution.boundary := hp ▸ rfl
  simp only [hp]
  split
  · next order _ =>
    refine ⟨⟨rfl, hpc, hpv, hid, fun f hf h => ?_, fun h => ?_, fun h => ?_, hpb⟩, hfollows⟩
    · rw [Slot.eligible] at h ⊢
      rwa [← houtside f hf]
    · exact absurd h Bool.false_ne_true
    · exact absurd h Bool.false_ne_true
  · next order hsort =>
    have hperm : Permuted { p with order } := sortFields_permuted (by rw [hpc]; exact hcount) hsort
    have hprop := propagate_narrows { p with order } dependencyBlocked
    have hsettle := settlePlan_narrows (c := c) s (propagate { p with order } dependencyBlocked)
      (validateWhole c s (propagate { p with order } dependencyBlocked) state
        (validateFields c s state armed s.request.fields e).2).1
    have hnarrow := hprop.trans hsettle
    refine ⟨⟨rfl, ?_, ?_, fun f hf => ?_, fun f hf h => ?_, fun _ => ?_, fun _ hwhole => ?_, ?_⟩, ?_⟩
    · rw [hnarrow.count]
      exact hpc
    · rw [hnarrow.expected]
      exact hpv
    · rw [hnarrow.id]
      exact hid f hf
    · have := hnarrow.eligible f h
      rw [Slot.eligible]
      rwa [← houtside f hf]
    · exact hnarrow.permuted.mpr hperm
    · exact settlePlan_uniform s _ (hprop.permuted.mpr hperm) hwhole
    · rw [settlePlan_boundary]
      exact hpb
    · exact hfollows.trans (validateWhole_follows _ _ _ _)

/-! ## Reasons against a field -/

theorem refuseIf_resolvable {b : Bool} {errors : UInt32} {v : Validation}
    (h : (refuseIf b errors v).resolvable) : ¬b ∧ v.resolvable := by
  unfold refuseIf at h
  split at h
  · simp [Validation.refuse] at h
  · next hb => exact ⟨hb, h⟩

/-- What the checks of the whole request have found for a field that may be executed. -/
structure Accepted (c : Config σ) (s : Slot) (state : StateSnapshot) (armed : Bool)
    (f : RequestField) : Prop where
  complete : ¬incompleteSdr c s armed
  lifecycle : c.profile = .sdrRadio → s.action ≠ 0 → f.id = Field.discreteIO32 →
    ¬badLifecycle s state armed f
  narrow : f.id = Field.bandwidth → ∀ q ∈ s.request.hertz Field.sampleRate,
    ∀ b ∈ s.request.hertz Field.bandwidth, b ≤ q

/-- A field that passes the checks of the engine meets the conditions. -/
theorem checkRequest_accepted {s : Slot} {state : StateSnapshot} {armed : Bool} {f : RequestField}
    {v : Validation} (h : (checkRequest c s state armed f v).resolvable) :
    Accepted c s state armed f := by
  unfold checkRequest at h
  obtain ⟨-, h⟩ := refuseIf_resolvable h
  obtain ⟨hwide, h⟩ := refuseIf_resolvable h
  obtain ⟨hlife, h⟩ := refuseIf_resolvable h
  obtain ⟨hcomplete, -⟩ := refuseIf_resolvable h
  refine ⟨hcomplete, fun hsdr haction hid hbad => hlife ?_, fun hid q hq b hb => ?_⟩
  · simpa [hsdr, hid, hbad, Slot.action] using haction
  · by_contra hlt
    refine hwide ?_
    simp only [decide_eq_true_eq]
    exact ⟨⟨q, hq, b, hb, lt_of_not_ge hlt⟩, hid⟩

theorem plannedField_eligible {s : Slot} {state : StateSnapshot} {f : RequestField} {v : Validation}
    (h : (plannedField s state f v).eligible) : v.resolvable := by
  unfold plannedField at h
  split at h
  · simp [PlannedField.withdraw] at h
  · simp only [Transaction.eligible, decide_eq_true_eq] at h
    exact h.1

/-- An eligible field was accepted by its checks. -/
theorem validateFields_accepted (s : Slot) (state : StateSnapshot) (armed : Bool)
    (fields : List RequestField) (e : Env σ) {i : ℕ}
    (h : ((validateFields c s state armed fields e).1.getD i {}).eligible) (hi : i < fields.length) :
    Accepted c s state armed (fields.getD i { id := ⟨0, 0⟩ }) := by
  induction fields generalizing e i with
  | nil => exact absurd hi (Nat.not_lt_zero i)
  | cons f rest ih =>
    simp only [validateFields] at h
    cases i with
    | zero => exact checkRequest_accepted (plannedField_eligible h)
    | succ i => exact ih _ h (Nat.lt_of_succ_lt_succ hi)

/-- A field that a validation leaves eligible has passed the checks. -/
theorem validatePlan_accepted {s : Slot} {state : StateSnapshot} {armed : Bool} {e : Env σ} {f : ℕ}
    (hf : f < s.request.count) (h : (validatePlan c s state armed e).2.1.eligible f) :
    Accepted c s state armed (s.request.field f) := by
  refine validateFields_accepted s state armed s.request.fields e ?_ hf
  rw [validatePlan_eq] at h
  dsimp only at h
  split at h
  · simpa [Slot.eligible, rawPlan, if_pos hf] using h
  · next order _ =>
    have hprop := propagate_narrows { rawPlan s state.version
      (validateFields c s state armed s.request.fields e).1 with order } dependencyBlocked
    have hsettle := (hprop.trans (settlePlan_narrows (c := c) s _ _)).eligible f h
    simpa [rawPlan, if_pos hf] using hsettle

/-! ## The boundary -/

/-- The plan after the check of the boundary. -/
theorem validateBoundaryState_eq (timeline : Option SampleTimeline) (s : Slot) :
    validateBoundaryState c timeline s =
      { s with execution := (validateBoundaryState c timeline s).execution } := by
  unfold validateBoundaryState
  split
  · rfl
  · split <;> rfl

/-- A check at the boundary withdraws fields, and adds none. -/
theorem validateBoundaryState_narrows (timeline : Option SampleTimeline) (s : Slot) :
    Narrows s.execution (validateBoundaryState c timeline s).execution := by
  unfold validateBoundaryState
  split
  · exact .refl _
  · next timeline =>
    split
    · exact .refl _
    · have hmap : Narrows s.execution (mapFields s.execution fun _ f =>
          if f.eligible ∧ f.id = Field.sampleRate ∧ ¬boundaryValid s timeline f then
            PlannedField.withdraw f (resourceExhausted ||| notExecuted)
          else f) := by
        refine mapFields_narrows s.execution (fun _ f => ?_) fun _ f h => ?_
        · split <;> rfl
        · split at h
          · exact absurd h Bool.false_ne_true
          · exact h
      have hprop := hmap.trans (propagate_narrows _ (dependencyBlocked ||| notExecuted))
      exact narrows_ite (hprop.trans (mapFields_narrows_none _ (fun _ _ => rfl) fun _ _ => rfl)) hprop

/-- Narrowing to no eligible field. -/
theorem Narrows.uniform_of_none {p p' : ExecutionPlan} (h : Narrows p p')
    (hp : ∀ f < p.count, ¬(p.fields f).eligible) : Uniform p' :=
  .inr fun f hf hel => hp f (h.count ▸ hf) (h.eligible f hel)

/-- It withdraws all of a command that is executed as a whole. -/
theorem validateBoundaryState_uniform (timeline : Option SampleTimeline) {s : Slot}
    (hwhole : ¬s.request.cam.partialAllowed) (hsound : Sound s.execution)
    (h : Uniform s.execution) : Uniform (validateBoundaryState c timeline s).execution := by
  rcases Nat.eq_zero_or_pos s.execution.count with hzero | hpos
  · refine .inr fun f hf => ?_
    rw [(validateBoundaryState_narrows timeline s).count, hzero] at hf
    exact absurd hf (Nat.not_lt_zero f)
  rcases h with hall | hnone
  · have hperm : Permuted s.execution := (hsound 0 (hall 0 hpos)).2
    unfold validateBoundaryState
    split
    · exact .inl hall
    · split
      · exact .inl hall
      · -- what is left after the propagation is all or is withdrawn
        dsimp only
        split
        · exact mapFields_uniform _ fun _ _ => rfl
        · next hblock =>
          simp only [blocksAll, decide_eq_true_eq, not_and, Decidable.not_not] at hblock
          refine .inl ((allEligible_iff ?_).mp (hblock (.inl hwhole)))
          exact (propagate_narrows _ _).permuted.mpr hperm
  · exact (validateBoundaryState_narrows timeline s).uniform_of_none hnone

end Validation

end Vita.Transaction
