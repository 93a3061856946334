import Vita.Common.DependencyOrder
import Vita.Transaction.PlanTheorems
import Mathlib.Tactic.IntervalCases

/-!
# The order of a plan

`validatePlan` finds an order exactly when the dependencies among the requested fields have no cycle. In
that order every field comes after the fields it depends on, and a field stays eligible only as long as
everything it depends on is.

Main results:
- `sortFields_spec`: what the sort has found when it ends;
- `propagate_fold_closed`: eligibility after the walk along the order;
- `validatePlan_orders`.
-/

namespace Vita.Transaction

open Checked Timing State DependencyOrder

/-! ## The sort -/

section Sorting

variable {fields : ℕ → PlannedField} {count : ℕ}

/-- One field of a plan depends on another. -/
def fieldDepends (fields : ℕ → PlannedField) (count : ℕ) (i j : ℕ) : Prop :=
  i < count ∧ PlannedField.dependsOn (fields i) j

/-- The bits are those of the fields that have a place. -/
def Marks (visited : BitVec 8) (position : ℕ) (order : ℕ → ℕ) : Prop :=
  ∀ i, visited.getLsbD i ↔ ∃ q < position, order q = i

/-- A mask has no bit outside another one. -/
theorem mask_subset {mask visited : BitVec 8} :
    mask &&& ~~~visited = 0 ↔ ∀ j, mask.getLsbD j → visited.getLsbD j := by
  constructor
  · intro h j hj
    have hbit := congrArg (fun b => b.getLsbD j) h
    have hlt := BitVec.lt_of_getLsbD hj
    simpa [hj, hlt] using hbit
  · intro h
    refine BitVec.eq_of_getLsbD_eq fun j hlt => ?_
    by_cases hj : mask.getLsbD j
    · simp [hj, h j hj]
    · simp [hj]

/-- The condition of the inner loop: the field is not placed, and all its dependencies are. -/
theorem ready_iff {visited : BitVec 8} {position : ℕ} {order : ℕ → ℕ}
    (hmarks : Marks visited position order) {i : ℕ} (hi : i < count) :
    (¬visited.getLsbD i ∧ (fields i).dependencyMask &&& ~~~visited = 0) ↔
      Ready (fieldDepends fields count) order position i := by
  rw [mask_subset]
  unfold Ready
  refine and_congr ?_ ⟨fun h j hj => ?_, fun h j hj => ?_⟩
  · rw [hmarks i]
    push Not
    exact Iff.rfl
  · exact (hmarks j).mp (h j hj.2)
  · exact (hmarks j).mpr (h j ⟨hi, hj⟩)

/-- The inner loop takes the first field that is ready. -/
theorem nextField_spec (fields : ℕ → PlannedField) (count : ℕ) {visited : BitVec 8} {position : ℕ}
    {order : ℕ → ℕ} (hmarks : Marks visited position order) :
    (∀ i, nextField fields count visited = some i →
      IsLeast {j | j < count ∧ Ready (fieldDepends fields count) order position j} i) ∧
    (nextField fields count visited = none →
      ∀ i < count, ¬Ready (fieldDepends fields count) order position i) := by
  constructor
  · intro i hnext
    have hmem := List.mem_range.mp (List.mem_of_find?_eq_some hnext)
    have hp := List.find?_some hnext
    simp only [decide_eq_true_eq] at hp
    refine ⟨⟨hmem, (ready_iff hmarks hmem).mp hp⟩, fun j hj => ?_⟩
    -- everything before the field was passed over
    by_contra hlt
    rw [not_le] at hlt
    have hready := (ready_iff hmarks hj.1).mpr hj.2
    obtain ⟨-, before, after, hsplit, hbefore⟩ := List.find?_eq_some_iff_append.mp hnext
    have hj' : j ∈ before := by
      have hrange : j ∈ before ++ i :: after := hsplit ▸ List.mem_range.mpr hj.1
      have hsorted : (before ++ i :: after).Pairwise (· < ·) := hsplit ▸ List.pairwise_lt_range
      rcases List.mem_append.mp hrange with hmem | hmem
      · exact hmem
      · rcases List.mem_cons.mp hmem with rfl | hmem
        · exact absurd hlt (lt_irrefl _)
        · have hrel := (List.pairwise_cons.mp (List.pairwise_append.mp hsorted).2.1).1 j hmem
          exact absurd hlt (lt_asymm hrel)
    have hnot := hbefore j hj'
    simp only [Bool.not_eq_true', decide_eq_false_iff_not] at hnot
    exact hnot hready
  · intro hnone i hi hready
    have hnot := List.find?_eq_none.mp hnone i (List.mem_range.mpr hi)
    simp only [decide_eq_true_eq] at hnot
    exact hnot ((ready_iff hmarks hi).mpr hready)

/-- One more field is marked and put in its position. -/
theorem Marks.next {visited : BitVec 8} {position i : ℕ} {order : ℕ → ℕ}
    (h : Marks visited position order) (hi : i < 8) :
    Marks (visited ||| BitVec.ofNat 8 (2 ^ i)) (position + 1) (Function.update order position i) := by
  intro j
  have hold : ∀ q < position, Function.update order position i q = order q := by
    intro q hq
    exact Function.update_of_ne (by omega) _ _
  have hbit : (BitVec.ofNat 8 (2 ^ i)).getLsbD j ↔ j = i := by
    rw [BitVec.getLsbD_ofNat, Nat.testBit_two_pow]
    simp only [Bool.and_eq_true, decide_eq_true_eq]
    omega
  rw [BitVec.getLsbD_or, Bool.or_eq_true, h j, hbit]
  constructor
  · rintro (⟨q, hq, rfl⟩ | rfl)
    · exact ⟨q, by omega, hold q hq⟩
    · exact ⟨position, by omega, Function.update_self ..⟩
  · rintro ⟨q, hq, rfl⟩
    rcases Nat.lt_succ_iff_lt_or_eq.mp hq with hq | rfl
    · exact .inl ⟨q, hq, (hold q hq).symm⟩
    · exact .inr (Function.update_self ..)

/-- The fields before a position are the first ones that were ready in turn. -/
def Chosen (fields : ℕ → PlannedField) (count position : ℕ) (order : ℕ → ℕ) : Prop :=
  ∀ q < position, IsLeast {j | j < count ∧ Ready (fieldDepends fields count) order q j} (order q)

/-- The next field is the least one that is ready. -/
theorem Chosen.next {position i : ℕ} {order : ℕ → ℕ} (h : Chosen fields count position order)
    (hi : IsLeast {j | j < count ∧ Ready (fieldDepends fields count) order position j} i) :
    Chosen fields count (position + 1) (Function.update order position i) := by
  intro q hq
  have hold : ∀ r < q, Function.update order position i r = order r := by
    intro r hr
    exact Function.update_of_ne (by omega) _ _
  have hset : {j | j < count ∧
      Ready (fieldDepends fields count) (Function.update order position i) q j} =
      {j | j < count ∧ Ready (fieldDepends fields count) order q j} := by
    ext j
    exact and_congr_right fun _ => Ready.congr hold
  rw [hset]
  rcases Nat.lt_succ_iff_lt_or_eq.mp hq with hq | rfl
  · rw [Function.update_of_ne (Nat.ne_of_lt hq)]
    exact h q hq
  · rw [Function.update_self]
    exact hi

/-- When the sort ends, it has placed all fields, or no other one can be placed. -/
theorem sortFields_spec (hcount : count ≤ 8) {n position : ℕ} {visited : BitVec 8} {order : ℕ → ℕ}
    (hmarks : Marks visited position order) (hchosen : Chosen fields count position order) :
    ((sortFields fields count n position visited order).1 = true ∧
      Chosen fields count (position + n) (sortFields fields count n position visited order).2) ∨
    (sortFields fields count n position visited order).1 = false ∧
      ∃ q < position + n,
        Chosen fields count q (sortFields fields count n position visited order).2 ∧
        ∀ i < count, ¬Ready (fieldDepends fields count)
          (sortFields fields count n position visited order).2 q i := by
  induction n generalizing position visited order with
  | zero => exact .inl ⟨rfl, hchosen⟩
  | succ n ih =>
    obtain ⟨hsome, hnone⟩ := nextField_spec fields count hmarks
    simp only [sortFields]
    cases hnext : nextField fields count visited with
    | none => exact .inr ⟨rfl, position, by omega, hchosen, hnone hnext⟩
    | some i =>
      have hleast := hsome i hnext
      have hrest := ih (hmarks.next (hleast.1.1.trans_le hcount)) (hchosen.next hleast)
      rw [Nat.add_right_comm, Nat.add_assoc] at hrest
      exact hrest

theorem Chosen.lt {position : ℕ} {order : ℕ → ℕ} (h : Chosen fields count position order) :
    ∀ q < position, order q < count := fun q hq => (h q hq).1.1

theorem Chosen.injective {position : ℕ} {order : ℕ → ℕ} (h : Chosen fields count position order) :
    ∀ q < position, ∀ r < position, order q = order r → q = r := by
  have hlt : ∀ q < position, ∀ r < q, order r ≠ order q := fun q hq => (h q hq).1.2.1
  intro q hq r hr heq
  rcases lt_trichotomy q r with hqr | rfl | hqr
  · exact absurd heq (hlt r hr q hqr)
  · rfl
  · exact absurd heq.symm (hlt q hq r hqr)

/-- The sort succeeds exactly when the dependencies among the fields have no cycle. -/
theorem sortFields_iff (hcount : count ≤ 8)
    (hinside : ∀ i j, fieldDepends fields count i j → j < count) (order : ℕ → ℕ) :
    (sortFields fields count count 0 0 order).1 = true ↔ Acyclic (fieldDepends fields count) := by
  have hmarks : Marks 0 0 order := fun i => by simp
  have hchosen : Chosen fields count 0 order := fun q hq => absurd hq (Nat.not_lt_zero q)
  rcases sortFields_spec (n := count) hcount hmarks hchosen with ⟨hok, hall⟩ | ⟨hok, q, hq, hsome, hstuck⟩
  · rw [Nat.zero_add] at hall
    refine iff_of_true hok (acyclic_of_ready (n := count) (fun i j hij => ?_) fun q hq => (hall q hq).1.2)
    exact Permuted.of_injective (p := { count, order := (sortFields fields count count 0 0 order).2 })
      hall.lt hall.injective i hij.1
  · rw [Nat.zero_add] at hq
    refine iff_of_false (by rw [hok]; exact Bool.false_ne_true) fun hacyclic => ?_
    -- fewer fields have a place than there are, so one is left
    have hleft : ∃ i ∈ Finset.range count, ∀ r < q, (sortFields fields count count 0 0 order).2 r ≠ i := by
      by_contra hnone
      push Not at hnone
      have hsub : Finset.range count ⊆
          (Finset.range q).image (sortFields fields count count 0 0 order).2 := by
        intro i hi
        obtain ⟨r, hr, hri⟩ := hnone i hi
        exact Finset.mem_image.mpr ⟨r, Finset.mem_range.mpr hr, hri⟩
      have hcard := (Finset.card_le_card hsub).trans Finset.card_image_le
      simp only [Finset.card_range] at hcard
      omega
    obtain ⟨i, hi, hready⟩ := hacyclic.exists_ready
      (fun i _ j hij => Finset.mem_range.mpr (hinside i j hij)) hleft
    exact hstuck i (Finset.mem_range.mp hi) hready

end Sorting

/-! ## Eligibility -/

section Eligibility

variable {fields : ℕ → PlannedField} {count : ℕ}

theorem propagateStep_mask (errors : UInt32) (f i : ℕ) :
    (propagateStep errors count fields f i).dependencyMask = (fields i).dependencyMask := by
  unfold propagateStep
  split
  · by_cases hi : i = f
    · subst hi
      rw [Function.update_self]
      rfl
    · rw [Function.update_of_ne hi]
  · rfl

theorem propagateStep_of_ne (errors : UInt32) {f i : ℕ} (hi : i ≠ f) :
    propagateStep errors count fields f i = fields i := by
  unfold propagateStep
  split
  · exact Function.update_of_ne hi _ _
  · rfl

/-- A field that stays eligible depends on eligible fields only. -/
theorem propagateStep_eligible {errors : UInt32} {f : ℕ}
    (h : (propagateStep errors count fields f f).eligible) {j : ℕ} (hj : j < count)
    (hdep : PlannedField.dependsOn (fields f) j) : (fields j).eligible := by
  unfold propagateStep at h
  split at h
  · rw [Function.update_self] at h
    exact absurd h Bool.false_ne_true
  · next hnone =>
    by_contra hnot
    exact hnone ⟨j, List.mem_range.mpr hj, hdep, hnot⟩

/-- The walk over a part of the order. -/
theorem propagate_fold_mask (errors : UInt32) (l : List ℕ) (i : ℕ) :
    (l.foldl (propagateStep errors count) fields i).dependencyMask = (fields i).dependencyMask := by
  induction l generalizing fields with
  | nil => rfl
  | cons f l ih => rw [List.foldl_cons, ih, propagateStep_mask]

/-- When the walk along the order ends, eligibility passes from a field to what it depends on. -/
theorem propagate_fold_closed {order : ℕ → ℕ} (errors : UInt32) (hchosen : Chosen fields count count order)
    (hinside : ∀ i j, fieldDepends fields count i j → j < count) {n : ℕ} (hn : n ≤ count) :
    ∀ q < n, (((List.range n).map order).foldl (propagateStep errors count) fields (order q)).eligible →
      ∀ j, PlannedField.dependsOn (fields (order q)) j →
        (((List.range n).map order).foldl (propagateStep errors count) fields j).eligible := by
  induction n with
  | zero => exact fun q hq => absurd hq (Nat.not_lt_zero q)
  | succ n ih =>
    have hlast : n < count := hn
    have hprev := ih (le_of_lt hlast)
    rw [List.range_succ, List.map_append, List.foldl_append]
    generalize hw : ((List.range n).map order).foldl (propagateStep errors count) fields = walked at hprev
    have hmask : ∀ i, (walked i).dependencyMask = (fields i).dependencyMask := fun i => by
      rw [← hw]
      exact propagate_fold_mask errors _ i
    simp only [List.map_cons, List.map_nil, List.foldl_cons, List.foldl_nil]
    intro q hq heligible j hj
    -- what the field depends on comes before it, so the last step does not touch it
    have hbefore : ∃ r < q, order r = j :=
      (hchosen q (by omega)).1.2.2 j ⟨hchosen.lt q (by omega), hj⟩
    obtain ⟨r, hr, rfl⟩ := hbefore
    have hne : order r ≠ order n := by
      intro heq
      have hsame := hchosen.injective r (by omega) n hlast heq
      omega
    rw [propagateStep_of_ne errors hne]
    rcases Nat.lt_succ_iff_lt_or_eq.mp hq with hq | rfl
    · have hqn : order q ≠ order n := by
        intro heq
        have hsame := hchosen.injective q (by omega) n hlast heq
        omega
      rw [propagateStep_of_ne errors hqn] at heligible
      exact hprev q hq heligible _ hj
    · have hdep : PlannedField.dependsOn (walked (order q)) (order r) := by
        rw [PlannedField.dependsOn, hmask]
        exact hj
      exact propagateStep_eligible heligible (hinside _ _ ⟨hchosen.lt q hlast, hj⟩) hdep

end Eligibility

/-! ## Validations -/

section Validation

variable {σ : Type} {c : Config σ}

/-- What the profile and the backend have found for every field of a request. -/
def validations (c : Config σ) (state : StateSnapshot) (action : ℕ) :
    List RequestField → Env σ → List Validation
  | [], _ => []
  | f :: rest, e =>
    (validateField c state action f e).1 ::
      validations c state action rest (validateField c state action f e).2

/-- The `i`-th requested field depends on the `j`-th. -/
def requestedDepends (r : Request) (found : List Validation) (i j : ℕ) : Prop :=
  i < r.count ∧ j < r.count ∧ requestDepends r (found.getD i {}) j

theorem refuseIf_dependencies (b : Bool) (errors : UInt32) (v : Validation) :
    (refuseIf b errors v).dependencies = v.dependencies := by
  unfold refuseIf
  split <;> rfl

theorem checkRequest_dependencies (s : Slot) (state : StateSnapshot) (armed : Bool) (f : RequestField)
    (v : Validation) : (checkRequest c s state armed f v).dependencies = v.dependencies := by
  simp only [checkRequest, refuseIf_dependencies]

/-- The mask of a planned field has the bits of the requested fields it depends on. -/
theorem getLsbD_mask {p : ℕ → Bool} {n : ℕ} (hn : n ≤ 8) (j : ℕ) :
    ((List.range n).foldl (fun m j => if p j then m ||| BitVec.ofNat 8 (2 ^ j) else m)
      (0 : BitVec 8)).getLsbD j = (decide (j < n) && p j) := by
  induction n with
  | zero => simp
  | succ n ih =>
    have hbit : (BitVec.ofNat 8 (2 ^ n)).getLsbD j = decide (j = n) := by
      rw [BitVec.getLsbD_ofNat, Nat.testBit_two_pow]
      by_cases hj : j = n
      · simp [hj]
        omega
      · simp [hj, Ne.symm hj]
    rw [List.range_succ, List.foldl_append]
    simp only [List.foldl_cons, List.foldl_nil]
    have hlt : decide (j < n + 1) = (decide (j < n) || decide (j = n)) := by
      rw [← Bool.decide_or, decide_eq_decide]
      omega
    split
    · next hp =>
      rw [BitVec.getLsbD_or, ih (by omega), hbit, hlt]
      by_cases hj : j = n
      · subst hj
        simp [hp]
      · simp [hj]
    · next hp =>
      rw [ih (by omega), hlt]
      by_cases hj : j = n
      · subst hj
        simp [hp]
      · simp [hj]

theorem plannedField_dependsOn {s : Slot} (hcount : s.request.count ≤ 8) (state : StateSnapshot)
    (f : RequestField) (v : Validation) (j : ℕ) :
    PlannedField.dependsOn (plannedField s state f v) j ↔ j < s.request.count ∧ requestDepends s.request v j := by
  have hmask : (plannedField s state f v).dependencyMask = (List.range s.request.count).foldl
      (fun m j => if requestDepends s.request v j then m ||| BitVec.ofNat 8 (2 ^ j) else m) 0 := by
    unfold plannedField
    split <;> rfl
  rw [PlannedField.dependsOn, hmask, getLsbD_mask hcount]
  simp

theorem plannedField_known {s : Slot} {state : StateSnapshot} {f : RequestField} {v : Validation}
    (h : (plannedField s state f v).eligible) : ¬missingDependency s.request v state := by
  unfold plannedField at h
  split at h
  · exact absurd h Bool.false_ne_true
  · assumption

/-- Each planned field is that of its validation. -/
theorem validateFields_validations (s : Slot) (state : StateSnapshot) (armed : Bool)
    (fields : List RequestField) (e : Env σ) {i : ℕ} (hi : i < fields.length) :
    ∃ f v, v.dependencies = ((validations c state s.action fields e).getD i {}).dependencies ∧
      (validateFields c s state armed fields e).1.getD i {} = plannedField s state f v := by
  induction fields generalizing e i with
  | nil => exact absurd hi (Nat.not_lt_zero i)
  | cons f rest ih =>
    cases i with
    | zero => exact ⟨f, _, checkRequest_dependencies s state armed f _, rfl⟩
    | succ i => exact ih _ (Nat.lt_of_succ_lt_succ hi)

/-- The last part of a validation takes away the eligibility of all fields or of none. -/
theorem settlePlan_eligible (s : Slot) (p : ExecutionPlan) (whole : Bool) :
    ∃ stays : Bool, ∀ i < p.count,
      ((settlePlan c s p whole).fields i).eligible = (stays && (p.fields i).eligible) := by
  have hmark : ∀ i, ((settlePlan c s p whole).fields i).eligible =
      ((blockedPlan c s p whole).fields i).eligible := markPlan_eligible _
  have hcount : (wholePlan p whole).count = p.count := (wholePlan_narrows p whole).count
  by_cases hblock : blocksAll c s (allEligible p && whole)
  · refine ⟨false, fun i hi => ?_⟩
    rw [hmark, blockedPlan, if_pos hblock]
    simp [mapFields, hcount, hi]
  · refine ⟨whole, fun i _ => ?_⟩
    rw [hmark, blockedPlan, if_neg hblock, wholePlan]
    cases whole <;> simp [PlannedField.withdraw]

/-- A validation finds an order exactly when no requested field depends on itself, directly or through
others. Then the order lists every field once, always the first one whose dependencies are all before
it; and where a field stays eligible, so does everything it depends on, and what is not requested of
that is known. -/
theorem validatePlan_orders (c : Config σ) {s : Slot} (hcount : s.request.count ≤ 8)
    (state : StateSnapshot) (armed : Bool) (e : Env σ) :
    let found := validations c state s.action s.request.fields e
    let dep := requestedDepends s.request found
    let p := (validatePlan c s state armed e).2.1.execution
    ((validatePlan c s state armed e).1 = true ↔ Acyclic dep) ∧
    ((validatePlan c s state armed e).1 = true →
      p.count = s.request.count ∧ Permuted p ∧
      (∀ q < p.count, IsLeast {i | i < p.count ∧ Ready dep p.order q i} (p.order q)) ∧
      ∀ i < p.count, (p.fields i).eligible → ∀ j, Relation.ReflTransGen dep i j →
        (p.fields j).eligible ∧
        ∀ t : Fin 8, (found.getD j {}).dependencies.getLsbD t → ¬s.request.has (stateField t) →
          state.knows t) := by
  intro found dep
  rw [validatePlan_eq]
  dsimp only
  generalize hp : rawPlan s state.version (validateFields c s state armed s.request.fields e).1 = p
  have hpc : p.count = s.request.count := hp ▸ rfl
  -- the fields before they are ordered
  have hfield : ∀ i < p.count, ∃ f v, v.dependencies = (found.getD i {}).dependencies ∧
      p.fields i = plannedField s state f v := by
    intro i hi
    rw [hpc] at hi
    obtain ⟨f, v, hv, heq⟩ := validateFields_validations (c := c) s state armed s.request.fields e hi
    refine ⟨f, v, hv, ?_⟩
    rw [← heq, ← hp]
    exact if_pos hi
  have hdep : fieldDepends p.fields p.count = dep := by
    funext i j
    apply propext
    constructor
    · rintro ⟨hi, hij⟩
      obtain ⟨f, v, hv, heq⟩ := hfield i hi
      rw [heq, plannedField_dependsOn hcount, requestDepends, hv] at hij
      exact ⟨hpc ▸ hi, hij.1, hij.2⟩
    · rintro ⟨hi, hj, hij⟩
      rw [← hpc] at hi
      obtain ⟨f, v, hv, heq⟩ := hfield i hi
      refine ⟨hi, ?_⟩
      rw [heq, plannedField_dependsOn hcount, requestDepends, hv]
      exact ⟨hj, hij⟩
  have hinside : ∀ i j, fieldDepends p.fields p.count i j → j < p.count := by
    intro i j hij
    rw [hdep] at hij
    exact hpc ▸ hij.2.1
  have hcount' : p.count ≤ 8 := hpc ▸ hcount
  have hiff := sortFields_iff hcount' hinside p.order
  have hspec := sortFields_spec (n := p.count) hcount' (fun i => by simp : Marks 0 0 p.order)
    (fun q hq => absurd hq (Nat.not_lt_zero q) : Chosen p.fields p.count 0 p.order)
  rw [hdep] at hiff
  cases hsort : sortFields p.fields p.count p.count 0 0 p.order with
  | mk ok order =>
    rw [hsort] at hiff hspec
    cases ok with
    | false => exact ⟨hiff, fun h => absurd h Bool.false_ne_true⟩
    | true =>
      refine ⟨hiff, fun _ => ?_⟩
      have hchosen : Chosen p.fields p.count p.count order := by
        rcases hspec with ⟨-, hall⟩ | ⟨hbad, -⟩
        · simpa only [Nat.zero_add] using hall
        · exact absurd hbad Bool.noConfusion
      have hprop := propagate_narrows { p with order } dependencyBlocked
      dsimp only
      generalize (validateWhole c s (propagate { p with order } dependencyBlocked) state
        (validateFields c s state armed s.request.fields e).2).1 = whole
      have hnarrow := hprop.trans (settlePlan_narrows (c := c) s (propagate { p with order } dependencyBlocked) whole)
      obtain ⟨stays, hstays⟩ :=
        settlePlan_eligible (c := c) s (propagate { p with order } dependencyBlocked) whole
      generalize settlePlan c s (propagate { p with order } dependencyBlocked) whole = final
        at hnarrow hstays
      have hfc : final.count = p.count := hnarrow.count
      have hfo : final.order = order := hnarrow.order
      have hperm : Permuted { p with order } := .of_injective hchosen.lt hchosen.injective
      refine ⟨hfc.trans hpc, hnarrow.permuted.mpr hperm, fun q hq => ?_, fun i hi heligible j hij => ?_⟩
      · rw [hfc] at hq ⊢
        rw [hfo, ← hdep]
        exact hchosen q hq
      · -- eligibility passes along a dependency
        have hclosed : ∀ a b, a < p.count ∧ (final.fields a).eligible → dep a b →
            b < p.count ∧ (final.fields b).eligible := by
          rintro a b ⟨ha, haeligible⟩ hab
          rw [← hdep] at hab
          have hb := hinside a b hab
          refine ⟨hb, ?_⟩
          rw [hstays a ha, Bool.and_eq_true] at haeligible
          rw [hstays b hb, haeligible.1, Bool.true_and]
          obtain ⟨q, hq, rfl⟩ := hperm a ha
          exact propagate_fold_closed dependencyBlocked hchosen hinside le_rfl q hq haeligible.2 b hab.2
        obtain ⟨hj, hjeligible⟩ := reflTransGen_closed hclosed ⟨hfc ▸ hi, heligible⟩ hij
        refine ⟨hjeligible, fun t ht hhas => ?_⟩
        obtain ⟨f, v, hv, heq⟩ := hfield j hj
        have hraw : (p.fields j).eligible := hnarrow.eligible j hjeligible
        rw [heq] at hraw
        have hmissing := plannedField_known hraw
        by_contra hunknown
        refine hmissing ?_
        simp only [missingDependency, decide_eq_true_eq]
        exact ⟨t, List.mem_finRange t, hv ▸ ht, hhas, hunknown⟩

end Validation

namespace PlanOrder.Bench

/-- A backend for which a bandwidth depends on the sample rate. -/
def config : Config Unit where
  transactions := 1
  backend := { validate := some fun id value _ _ =>
    { value := { adjusted := value, dependencies := if id = Field.bandwidth then 2 else 0 }
      next := () } }

/-- A bandwidth and a sample rate are requested together. -/
def slot : Slot where
  request := { cam := { action := 2 }
               fields := [{ id := Field.bandwidth, value := .hertz 1048576 },
                 { id := Field.sampleRate, value := .hertz 1048576 }] }

end PlanOrder.Bench

open PlanOrder.Bench in
/-- The sample rate is placed first, then the bandwidth. -/
theorem validatePlan_orders_bandwidth :
    (validatePlan config slot {} false { ext := () }).1 = true :=
  (validatePlan_orders config (by decide) {} false { ext := () }).1.mpr <| by
    refine acyclic_of_rank (fun i => 1 - i) ?_
    rintro i j ⟨hi, hj, hij⟩
    have hi' : i < 2 := hi
    have hj' : j < 2 := hj
    interval_cases i <;> interval_cases j <;> revert hij <;> decide

end Vita.Transaction
