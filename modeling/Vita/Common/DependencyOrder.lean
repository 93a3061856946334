import Mathlib.Data.Finset.Basic
import Mathlib.Data.Fintype.EquivFin
import Mathlib.Logic.Relation
import Mathlib.Order.Bounds.Basic
import Mathlib.Order.WellFounded
import Mathlib.Data.Fintype.Order

/-!
# Orders that follow dependencies

The elements of a finite set are placed one after the other, each after the elements it depends on. This
gets stuck exactly when something depends on itself, directly or through others.

Main lemmas:
- `acyclic_of_rank`: what can be ranked has no cycle;
- `Acyclic.exists_free`: without a cycle every set that is not empty has an element to start with;
- `acyclic_of_ready`, `Acyclic.exists_ready`: all elements find a place in turn when there is no cycle,
  and only then;
- `reflTransGen_closed`: a property that passes from an element to what it depends on.
-/

namespace Vita.DependencyOrder

variable {α : Type*} {dep : α → α → Prop}

/-- Nothing depends on itself, directly or through others. -/
def Acyclic (dep : α → α → Prop) : Prop := ∀ a, ¬Relation.TransGen dep a a

theorem acyclic_of_rank (rank : α → ℕ) (h : ∀ a b, dep a b → rank b < rank a) : Acyclic dep := by
  have hrank : ∀ a b, Relation.TransGen dep a b → rank b < rank a := by
    intro a b hab
    induction hab with
    | single hab => exact h _ _ hab
    | tail _ hbc ih => exact (h _ _ hbc).trans ih
  intro a ha
  exact lt_irrefl _ (hrank a a ha)

/-- A set in which every element depends on another one has a cycle. -/
theorem Acyclic.exists_free (h : Acyclic dep) {s : Finset α} (hne : s.Nonempty) :
    ∃ a ∈ s, ∀ b ∈ s, ¬dep a b := by
  let below (a b : s) : Prop := Relation.TransGen dep b.val a.val
  have htrans : IsTrans s below := ⟨fun _ _ _ hab hbc => hbc.trans hab⟩
  have hirrefl : Std.Irrefl below := ⟨fun a => h a.val⟩
  have hwf : WellFounded below := Finite.wellFounded_of_trans_of_irrefl below
  obtain ⟨a, ha⟩ := hne
  obtain ⟨m, -, hm⟩ := hwf.has_min Set.univ ⟨⟨a, ha⟩, Set.mem_univ _⟩
  refine ⟨m.val, m.property, fun b hb hdep => ?_⟩
  exact hm ⟨b, hb⟩ (Set.mem_univ _) (Relation.TransGen.single hdep)

/-- What passes to every direct dependency passes to all dependencies. -/
theorem reflTransGen_closed {p : α → Prop} (h : ∀ a b, p a → dep a b → p b) {a b : α} (ha : p a)
    (hab : Relation.ReflTransGen dep a b) : p b := by
  induction hab with
  | refl => exact ha
  | tail _ hbc ih => exact h _ _ ih hbc

/-! ## Placing one element after the other -/

variable {order : ℕ → α} {position : ℕ}

/-- The element can be placed next: it is new, and what it depends on has its place. -/
def Ready (dep : α → α → Prop) (order : ℕ → α) (position : ℕ) (a : α) : Prop :=
  (∀ q < position, order q ≠ a) ∧ ∀ b, dep a b → ∃ q < position, order q = b

theorem Ready.congr {order' : ℕ → α} (h : ∀ q < position, order' q = order q) {a : α} :
    Ready dep order' position a ↔ Ready dep order position a := by
  unfold Ready
  refine and_congr (forall₂_congr fun q hq => by rw [h q hq]) (forall₂_congr fun b _ => ?_)
  exact exists_congr fun q => and_congr_right fun hq => by rw [h q hq]

/-- Where all elements have found a place in turn, there is no cycle. -/
theorem acyclic_of_ready {n : ℕ} (hall : ∀ a b, dep a b → ∃ q < n, order q = a)
    (hready : ∀ q < n, Ready dep order q (order q)) : Acyclic dep := by
  classical
  let rank (a : α) : ℕ := if h : ∃ q < n, order q = a then Nat.find h else n
  refine acyclic_of_rank rank fun a b hab => ?_
  have ha := hall a b hab
  have hspec := Nat.find_spec ha
  -- the dependency has a place before the first one of the element
  obtain ⟨r, hr, hb⟩ := (hready _ hspec.1).2 b (hspec.2.symm ▸ hab)
  have hlt : r < n := hr.trans hspec.1
  have hexists : ∃ q < n, order q = b := ⟨r, hlt, hb⟩
  have hle : Nat.find hexists ≤ r := Nat.find_min' hexists ⟨hlt, hb⟩
  simp only [rank, dif_pos ha, dif_pos hexists]
  exact hle.trans_lt hr

/-- Without a cycle something can be placed as long as not all elements have a place. -/
theorem Acyclic.exists_ready (h : Acyclic dep) {s : Finset α} (hs : ∀ a ∈ s, ∀ b, dep a b → b ∈ s)
    (hleft : ∃ a ∈ s, ∀ q < position, order q ≠ a) : ∃ a ∈ s, Ready dep order position a := by
  classical
  obtain ⟨a, ha, hnew⟩ := hleft
  obtain ⟨m, hm, hfree⟩ := h.exists_free (s := s.filter fun a => ∀ q < position, order q ≠ a)
    ⟨a, Finset.mem_filter.mpr ⟨ha, hnew⟩⟩
  obtain ⟨hms, hmnew⟩ := Finset.mem_filter.mp hm
  refine ⟨m, hms, hmnew, fun b hb => ?_⟩
  by_contra hnone
  push Not at hnone
  exact hfree b (Finset.mem_filter.mpr ⟨hs m hms b hb, hnone⟩) hb

end Vita.DependencyOrder
