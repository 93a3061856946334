import Mathlib.Tactic.Common
import Mathlib.Data.List.Basic

/-!
# Tilings of an interval

Pieces with a start and a size that stand one after the other and cover an interval of positions
without gap or overlap.
-/

namespace Tiling

variable {α : Type} (start size : α → ℕ)

/-- The pieces tile the positions from `lo` up to `hi`, in their order. -/
def Tiles : ℕ → List α → ℕ → Prop
  | lo, [], hi => lo = hi
  | lo, a :: l, hi => start a = lo ∧ Tiles (lo + size a) l hi

variable {start size} {lo mid hi : ℕ} {l l' : List α}

theorem Tiles.append (h : Tiles start size lo l mid) (h' : Tiles start size mid l' hi) :
    Tiles start size lo (l ++ l') hi := by
  induction l generalizing lo with
  | nil =>
    obtain rfl := h
    exact h'
  | cons a l ih => exact ⟨h.1, ih h.2⟩

theorem Tiles.singleton {a : α} (h : start a = lo) : Tiles start size lo [a] (lo + size a) :=
  ⟨h, rfl⟩

theorem Tiles.le_start (h : Tiles start size lo l hi) : ∀ a ∈ l, lo ≤ start a := by
  induction l generalizing lo with
  | nil => simp
  | cons a l ih =>
    intro b hb
    obtain rfl | hb := List.mem_cons.mp hb
    · exact Nat.le_of_eq h.1.symm
    · have := ih h.2 b hb
      omega

/-- A piece of a tiling ends before the later ones start. -/
theorem Tiles.pairwise (h : Tiles start size lo l hi) :
    l.Pairwise fun a b => start a + size a ≤ start b := by
  induction l generalizing lo with
  | nil => exact .nil
  | cons a l ih =>
    refine List.pairwise_cons.mpr ⟨fun b hb => ?_, ih h.2⟩
    rw [h.1]
    exact h.2.le_start b hb

end Tiling
