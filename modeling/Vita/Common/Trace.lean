import Mathlib.Data.List.Basic
import Mathlib.Data.List.Induction

/-!
# Logs

`Traced P log` says that every entry of a log satisfies `P` together with the entries before it. It is
the form of a safety property of a run: it can be extended entry by entry, and it holds of every prefix.
-/

namespace Vita.Trace

variable {α : Type}

/-- Every entry satisfies `P` with the entries before it. -/
def Traced (P : List α → α → Prop) (log : List α) : Prop :=
  ∀ pre a post, log = pre ++ a :: post → P pre a

@[simp] theorem traced_nil (P : List α → α → Prop) : Traced P [] := by
  intro pre a post h
  cases pre <;> cases h

/-- A property of traces is checked at the last event. -/
theorem traced_concat {P : List α → α → Prop} {log : List α} {a : α} :
    Traced P (log ++ [a]) ↔ Traced P log ∧ P log a := by
  constructor
  · intro h
    refine ⟨fun pre b post hsplit => ?_, h log a [] rfl⟩
    exact h pre b (post ++ [a]) (by rw [hsplit, List.append_assoc, List.cons_append])
  · rintro ⟨h, ha⟩ pre b post hsplit
    -- the entry is the last one, or one of the old log
    rcases List.eq_nil_or_concat post with rfl | ⟨post', x, rfl⟩
    · have := List.append_inj' hsplit rfl
      obtain ⟨rfl, hb⟩ := this
      cases hb
      exact ha
    · have hlast : log ++ [a] = (pre ++ b :: post') ++ [x] := by simpa using hsplit
      exact h pre b post' (List.append_inj' hlast rfl).1

/-- A property of a log holds of its prefixes. -/
theorem Traced.of_append {P : List α → α → Prop} {log more : List α} (h : Traced P (log ++ more)) :
    Traced P log := by
  intro pre a post hsplit
  exact h pre a (post ++ more) (by rw [hsplit, List.append_assoc, List.cons_append])

/-- The entry at a position, with the entries before it. -/
theorem Traced.get {P : List α → α → Prop} {log : List α} (h : Traced P log) {k : ℕ} {a : α}
    (hk : log[k]? = some a) : P (log.take k) a := by
  obtain ⟨hlt, rfl⟩ := List.getElem?_eq_some_iff.mp hk
  exact h _ _ (log.drop (k + 1)) (by rw [← List.drop_eq_getElem_cons, List.take_append_drop])

/-- A log is extended by entries that satisfy `P` with all that is before them. -/
theorem Traced.extend {P : List α → α → Prop} {log more : List α} (h : Traced P log)
    (hmore : ∀ pre a post, more = pre ++ a :: post → P (log ++ pre) a) : Traced P (log ++ more) := by
  induction more using List.reverseRecOn with
  | nil => simpa using h
  | append_singleton more a ih =>
    rw [← List.append_assoc, traced_concat]
    refine ⟨ih fun pre b post hsplit => hmore pre b (post ++ [a]) ?_, hmore more a [] rfl⟩
    rw [hsplit, List.append_assoc, List.cons_append]

/-- Entries of which `P` holds in any case can be added. -/
theorem Traced.append {P : List α → α → Prop} {log more : List α} (h : Traced P log)
    (hmore : ∀ pre, ∀ a ∈ more, P pre a) : Traced P (log ++ more) :=
  h.extend fun pre a post hsplit => hmore _ a (by rw [hsplit]; simp)

end Vita.Trace
