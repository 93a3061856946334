import Mathlib.Tactic.Common
import Mathlib.Order.Basic
import Mathlib.Algebra.Order.Ring.Nat

/-!
# Bisection

The search for the last number with a property that holds up to some number only. Each round halves
the interval in which that number lies, so `n` rounds close an interval of fewer than `2 ^ n` steps.
-/

namespace Bisection

/-- The middle of an interval, rounded up. -/
def middle (lo hi : ℕ) : ℕ := lo + (hi - lo) / 2 + (hi - lo) % 2

/-- The interval that is left after some rounds. -/
def search (p : ℕ → Bool) : ℕ → ℕ → ℕ → ℕ × ℕ
  | 0, lo, hi => (lo, hi)
  | n + 1, lo, hi =>
    if lo < hi then
      if p (middle lo hi) then search p n (middle lo hi) hi else search p n lo (middle lo hi - 1)
    else (lo, hi)

variable {p : ℕ → Bool} {n lo hi : ℕ}

theorem lt_middle (h : lo < hi) : lo < middle lo hi := by
  unfold middle
  omega

theorem middle_le (h : lo < hi) : middle lo hi ≤ hi := by
  unfold middle
  omega

/-- Enough rounds close the interval. -/
theorem search_closed (h : lo ≤ hi) (hn : hi - lo < 2 ^ n) :
    (search p n lo hi).1 = (search p n lo hi).2 := by
  induction n generalizing lo hi with
  | zero =>
    simp only [search]
    omega
  | succ n ih =>
    unfold search
    rw [Nat.pow_succ] at hn
    split
    next hlt =>
      split
      · refine ih (middle_le hlt) ?_
        unfold middle
        omega
      · have hmid := lt_middle hlt
        refine ih (by omega) ?_
        unfold middle
        omega
    next hge =>
      show lo = hi
      omega

/-- The property holds up to a number only. -/
def DownClosed (p : ℕ → Bool) (lo : ℕ) : Prop := ∀ a b, lo < a → a ≤ b → p b → p a

/-- What is left of the interval still has the last number with the property, or no number has it. -/
theorem search_spec (h : lo ≤ hi) (hp : DownClosed p lo) :
    (lo ≤ (search p n lo hi).1 ∧ (search p n lo hi).1 ≤ (search p n lo hi).2 ∧
      (search p n lo hi).2 ≤ hi) ∧
    ((search p n lo hi).1 = lo ∨ p (search p n lo hi).1) ∧
    ∀ k, (search p n lo hi).2 < k → k ≤ hi → ¬p k := by
  induction n generalizing lo hi with
  | zero => exact ⟨⟨le_rfl, h, le_rfl⟩, .inl rfl, fun k hk hk' => by simp only [search] at hk; omega⟩
  | succ n ih =>
    unfold search
    split
    next hlt =>
      have hlo := lt_middle hlt
      have hhi := middle_le hlt
      split
      next hmid =>
        -- the last number is not below the middle
        obtain ⟨⟨hlo', hle, hhi'⟩, hfound, hlast⟩ := ih hhi fun a b ha => hp a b (hlo.trans ha)
        refine ⟨⟨hlo.le.trans hlo', hle, hhi'⟩, .inr ?_, hlast⟩
        rcases hfound with hfound | hfound
        · rwa [hfound]
        · exact hfound
      next hmid =>
        -- the last number is below the middle
        obtain ⟨⟨hlo', hle, hhi'⟩, hfound, hlast⟩ := @ih lo (middle lo hi - 1) (by omega) hp
        refine ⟨⟨hlo', hle, by omega⟩, hfound, fun k hk hk' hpk => ?_⟩
        by_cases hbelow : k ≤ middle lo hi - 1
        · exact hlast k hk hbelow hpk
        · exact hmid (hp _ k hlo (by omega) hpk)
    next hge => exact ⟨⟨le_rfl, h, le_rfl⟩, .inl rfl, fun k hk hk' => by omega⟩

end Bisection
