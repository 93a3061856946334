import Vita.Common.Checked
import Mathlib.Data.List.Basic

/-!
# Writing into a buffer

A writer is a computation over a buffer that may fail and keeps what it has written when it does. Its
checks come from plain computations (`check`), its effects are stores of consecutive elements
(`store`).

* `overwrite_append`: consecutive stores are one store.
* `overwrite_cover`: a store covers earlier ones.
* `foldlM_follows`: a fold of writers follows a fold of plain computations.
-/

namespace Buffer

open Checked

variable {ε α β γ σ τ : Type}

/-- The elements from `offset` on replaced by `piece`. -/
def overwrite (buffer : List α) (offset : ℕ) (piece : List α) : List α :=
  buffer.take offset ++ (piece ++ buffer.drop (offset + piece.length))

theorem length_overwrite {buffer piece : List α} {offset : ℕ}
    (h : offset + piece.length ≤ buffer.length) :
    (overwrite buffer offset piece).length = buffer.length := by
  simp only [overwrite, List.length_append, List.length_take, List.length_drop]
  omega

@[simp] theorem overwrite_nil (buffer : List α) (offset : ℕ) : overwrite buffer offset [] = buffer := by
  simp [overwrite]

/-- Nothing after the written elements changes. -/
theorem drop_overwrite {buffer piece : List α} {offset n : ℕ}
    (h : offset + piece.length ≤ buffer.length) (hn : offset + piece.length ≤ n) :
    (overwrite buffer offset piece).drop n = buffer.drop n := by
  have hstart : (buffer.take offset ++ piece).length = offset + piece.length := by
    rw [List.length_append, List.length_take]
    omega
  rw [overwrite, ← List.append_assoc, List.drop_append, hstart,
    List.drop_eq_nil_of_le (by omega), List.nil_append, List.drop_drop]
  congr 1
  omega

/-- The written elements are there. -/
theorem slice_overwrite {buffer piece : List α} {offset : ℕ}
    (h : offset + piece.length ≤ buffer.length) :
    ((overwrite buffer offset piece).drop offset).take piece.length = piece := by
  rw [overwrite, List.drop_left' (by rw [List.length_take]; omega)]
  exact List.take_left

/-- Consecutive stores are one store. -/
theorem overwrite_append {buffer a b : List α} {offset : ℕ} (h : offset ≤ buffer.length) :
    overwrite (overwrite buffer offset a) (offset + a.length) b = overwrite buffer offset (a ++ b) := by
  have hstart : (buffer.take offset ++ a).length = offset + a.length := by
    rw [List.length_append, List.length_take]
    omega
  have htake : (overwrite buffer offset a).take (offset + a.length) = buffer.take offset ++ a := by
    rw [overwrite, ← List.append_assoc]
    exact List.take_left' hstart
  have hdrop : (overwrite buffer offset a).drop (offset + a.length + b.length) =
      buffer.drop (offset + (a ++ b).length) := by
    rw [overwrite, ← List.append_assoc, ← List.drop_drop, List.drop_left' hstart, List.drop_drop,
      List.length_append, Nat.add_assoc]
  conv_lhs => rw [overwrite]
  rw [htake, hdrop, overwrite, List.append_assoc, List.append_assoc]

/-- A store in front of another one. -/
theorem overwrite_before {buffer a b : List α} (h : a.length + b.length ≤ buffer.length) :
    overwrite (overwrite buffer a.length b) 0 a = overwrite buffer 0 (a ++ b) := by
  have hdrop : (overwrite buffer a.length b).drop a.length =
      b ++ buffer.drop (a.length + b.length) := by
    rw [overwrite, List.drop_left' (by rw [List.length_take]; omega)]
  conv_lhs => rw [overwrite]
  rw [Nat.zero_add, hdrop]
  simp [overwrite]

/-- A store that covers an earlier one. -/
theorem overwrite_cover {buffer a b : List α} {offset : ℕ} (ha : offset + a.length ≤ b.length)
    (hb : b.length ≤ buffer.length) : overwrite (overwrite buffer offset a) 0 b = overwrite buffer 0 b := by
  have hdrop : (overwrite buffer offset a).drop b.length = buffer.drop b.length :=
    drop_overwrite (by omega) ha
  simp only [overwrite, List.take_zero, List.nil_append, Nat.zero_add]
  rw [← hdrop]
  rfl

/-! ## Writers -/

/-- Computations that write into a buffer and may fail. -/
abbrev Writer (ε α β : Type) := EStateM ε (List α) β

/-- A computation that writes nothing. -/
def check (x : Except ε β) : Writer ε α β := fun buffer =>
  match x with
  | .ok b => .ok b buffer
  | .error e => .error e buffer

/-- Store `piece` from `offset` on; a store that does not fit is the error `outside`. -/
def store (outside : ε) (offset : ℕ) (piece : List α) : Writer ε α Unit := fun buffer =>
  if offset + piece.length ≤ buffer.length then .ok () (overwrite buffer offset piece)
  else .error outside buffer

@[simp] theorem run_check (x : Except ε β) (buffer : List α) :
    (check x : Writer ε α β).run buffer =
      match x with
      | .ok b => .ok b buffer
      | .error e => .error e buffer := rfl

theorem run_check_ok {x : Except ε β} {b : β} (h : x = .ok b) (f : β → Writer ε α γ)
    (buffer : List α) : (check x >>= f).run buffer = (f b).run buffer := by
  rw [h]
  rfl

theorem run_store {outside : ε} {offset : ℕ} {piece buffer : List α}
    (h : offset + piece.length ≤ buffer.length) :
    (store outside offset piece).run buffer = .ok () (overwrite buffer offset piece) :=
  if_pos h

theorem run_bind_ok {x : Writer ε α β} {b : β} {buffer buffer' : List α}
    (h : x.run buffer = .ok b buffer') (f : β → Writer ε α γ) :
    (x >>= f).run buffer = (f b).run buffer' := by
  rw [EStateM.run_bind, h]

/-! ## Folds -/

/-- What goes back over a step goes back over a fold. -/
theorem foldlM_back {f : σ → α → Except ε σ} {l : List α} {s s' : σ} (P : σ → Prop)
    (hback : ∀ a ∈ l, ∀ s s', f s a = .ok s' → P s' → P s) (h : l.foldlM f s = .ok s')
    (hlast : P s') : P s := by
  induction l generalizing s with
  | nil =>
    obtain rfl := Except.ok.inj h
    exact hlast
  | cons a l ih =>
    rw [List.foldlM_cons, bind_eq_ok] at h
    obtain ⟨mid, hmid, hrest⟩ := h
    exact hback a (List.mem_cons_self ..) s mid hmid
      (ih (fun b hb => hback b (List.mem_cons_of_mem _ hb)) hrest)

/-- A fold of writers follows a fold of plain computations. `P` holds of every state before the last
one as soon as it holds of the last, and `R` relates the states and the buffer. -/
theorem foldlM_follows {f : σ → α → Except ε σ} {g : τ → α → Writer ε β τ} {l : List α} {s s' : σ}
    {t : τ} {buffer : List β} (R : σ → τ → List β → Prop) (P : σ → Prop)
    (hback : ∀ a ∈ l, ∀ s s', f s a = .ok s' → P s' → P s)
    (hstep : ∀ a ∈ l, ∀ s s' t buffer, R s t buffer → P s' → f s a = .ok s' →
      ∃ t' buffer', (g t a).run buffer = .ok t' buffer' ∧ R s' t' buffer')
    (h : l.foldlM f s = .ok s') (hlast : P s') (hfirst : R s t buffer) :
    ∃ t' buffer', (l.foldlM g t).run buffer = .ok t' buffer' ∧ R s' t' buffer' := by
  induction l generalizing s t buffer with
  | nil =>
    obtain rfl := Except.ok.inj h
    exact ⟨t, buffer, rfl, hfirst⟩
  | cons a l ih =>
    rw [List.foldlM_cons, bind_eq_ok] at h
    obtain ⟨mid, hmid, hrest⟩ := h
    have hback' : ∀ b ∈ l, ∀ s s', f s b = .ok s' → P s' → P s :=
      fun b hb => hback b (List.mem_cons_of_mem _ hb)
    obtain ⟨t₁, buffer₁, hrun₁, hR₁⟩ := hstep a (List.mem_cons_self ..) s mid t buffer hfirst
      (foldlM_back P hback' hrest hlast) hmid
    obtain ⟨t₂, buffer₂, hrun₂, hR₂⟩ :=
      ih hback' (fun b hb => hstep b (List.mem_cons_of_mem _ hb)) hrest hR₁
    refine ⟨t₂, buffer₂, ?_, hR₂⟩
    rw [List.foldlM_cons, run_bind_ok hrun₁]
    exact hrun₂

end Buffer
