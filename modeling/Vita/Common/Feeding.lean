import Mathlib.Data.List.Basic

/-!
# Machines that are fed until they fail

A machine takes one item at a time. A step returns a number or fails; the numbers are added up, and
nothing is fed after a failure. What a machine does with a list does not depend on how the list is cut
into pieces.
-/

namespace Vita.Feeding

variable {α ε σ : Type}

/-- A second part that is done unless the first failed. -/
def andThen (r : Except ε ℕ × σ) (f : σ → Except ε ℕ × σ) : Except ε ℕ × σ :=
  match r with
  | (.error e, s) => (.error e, s)
  | (.ok n, s) =>
    match f s with
    | (.error e, s) => (.error e, s)
    | (.ok m, s) => (.ok (n + m), s)

/-- Items are fed one after the other. -/
def pump (step : σ → α → Except ε ℕ × σ) : List α → σ → Except ε ℕ × σ
  | [], s => (.ok 0, s)
  | a :: rest, s => andThen (step s a) (pump step rest)

@[simp] theorem andThen_error (e : ε) (s : σ) (f : σ → Except ε ℕ × σ) :
    andThen (.error e, s) f = (.error e, s) := rfl

@[simp] theorem andThen_zero (s : σ) (f : σ → Except ε ℕ × σ) : andThen (.ok 0, s) f = f s := by
  unfold andThen
  dsimp only
  rcases f s with ⟨e | m, s'⟩
  · rfl
  · simp

@[simp] theorem andThen_done (r : Except ε ℕ × σ) : andThen r (fun s => (.ok 0, s)) = r := by
  rcases r with ⟨e | n, s⟩ <;> rfl

/-- Sequences are associative. -/
theorem andThen_assoc (r : Except ε ℕ × σ) (f g : σ → Except ε ℕ × σ) :
    andThen (andThen r f) g = andThen r fun s => andThen (f s) g := by
  rcases r with ⟨e | n, s⟩
  · rfl
  · simp only [andThen]
    rcases f s with ⟨e | m, s⟩
    · rfl
    · dsimp only
      rcases g s with ⟨e | k, s⟩
      · rfl
      · simp [Nat.add_assoc]

theorem pump_append (step : σ → α → Except ε ℕ × σ) (l l' : List α) (s : σ) :
    pump step (l ++ l') s = andThen (pump step l s) (pump step l') := by
  induction l generalizing s with
  | nil => simp [pump]
  | cons a l ih =>
    rw [List.cons_append, pump, pump, andThen_assoc]
    congr 1
    funext s
    exact ih s

end Vita.Feeding
