import Mathlib.Tactic.Common
import Mathlib.Data.List.Basic

/-!
# First-fit placement

Extents of a linear store are listed in the order of their offsets. `place` walks the list and stops at
the first gap that is large enough.

Main lemmas:
- `place_split`: where the new extent lies among the others;
- `Ordered.insert`: the list with the new extent is in order;
- `place_le`: no free interval starts before the one that is found.
-/

namespace Vita.FirstFit

variable {α : Type} (offset size : α → ℕ)

/-- Every extent ends before the next ones begin. -/
def Ordered (l : List α) : Prop := l.Pairwise fun a b => offset a + size a ≤ offset b

/-- The start of the first gap from `start` on, and the number of extents before it. -/
def place (required : ℕ) : List α → ℕ → ℕ × ℕ
  | [], start => (start, 0)
  | a :: l, start =>
    if required ≤ offset a - start then (start, 0)
    else
      let (found, before) := place required l (offset a + size a)
      (found, before + 1)

/-- The interval does not meet an extent. -/
def Free (l : List α) (start required : ℕ) : Prop :=
  ∀ a ∈ l, start + required ≤ offset a ∨ offset a + size a ≤ start

variable {offset size} {required : ℕ} {l : List α} {start : ℕ}

/-- The extents before the gap end at its start, and those behind begin after its end. -/
theorem place_split (hord : Ordered offset size l) (hstart : ∀ a ∈ l, start ≤ offset a) :
    start ≤ (place offset size required l start).1 ∧
      (∀ a ∈ l.take (place offset size required l start).2,
        offset a + size a ≤ (place offset size required l start).1) ∧
      ∀ a ∈ l.drop (place offset size required l start).2,
        (place offset size required l start).1 + required ≤ offset a := by
  induction l generalizing start with
  | nil => simp [place]
  | cons b l ih =>
    obtain ⟨hb, hord⟩ := List.pairwise_cons.mp hord
    have hsb := hstart b List.mem_cons_self
    unfold place
    split
    · next hfits =>
      refine ⟨Nat.le_refl _, by simp, fun a ha => ?_⟩
      rcases List.mem_cons.mp ha with rfl | ha
      · simp only
        omega
      · have hba := hb a ha
        simp only
        omega
    · obtain ⟨hle, hbefore, hafter⟩ := ih hord hb
      refine ⟨by simp only; omega, fun a ha => ?_, hafter⟩
      rcases List.mem_cons.mp ha with rfl | ha
      · exact hle
      · exact hbefore a ha

/-- Only the extents of the list matter. -/
theorem place_congr {offset' size' : α → ℕ} (h : ∀ a ∈ l, offset a = offset' a ∧ size a = size' a) :
    place offset size required l start = place offset' size' required l start := by
  induction l generalizing start with
  | nil => rfl
  | cons b l ih =>
    obtain ⟨ho, hs⟩ := h b List.mem_cons_self
    simp only [place, ho, hs]
    rw [ih fun a ha => h a (List.mem_cons_of_mem _ ha)]

/-- A new extent in the gap that is found keeps the order. -/
theorem Ordered.insert (hord : Ordered offset size l) {a : α}
    (hoffset : offset a = (place offset size required l 0).1) (hsize : size a = required) :
    Ordered offset size (l.take (place offset size required l 0).2 ++
      a :: l.drop (place offset size required l 0).2) := by
  obtain ⟨-, hbefore, hafter⟩ := place_split hord (fun a _ => Nat.zero_le _)
  unfold Ordered at hord ⊢
  rw [← List.take_append_drop (place offset size required l 0).2 l, List.pairwise_append] at hord
  obtain ⟨htake, hdrop, hcross⟩ := hord
  rw [List.pairwise_append, List.pairwise_cons]
  refine ⟨htake, ⟨fun b hb => ?_, hdrop⟩, fun b hb d hd => ?_⟩
  · rw [hoffset, hsize]
    exact hafter b hb
  · rcases List.mem_cons.mp hd with rfl | hd
    · rw [hoffset]
      exact hbefore b hb
    · exact hcross b hb d hd

/-- The gap that is found is the first: a free interval does not start before it. -/
theorem place_le {s : ℕ} (hs : start ≤ s) (hfree : Free offset size l s required) :
    (place offset size required l start).1 ≤ s := by
  induction l generalizing start with
  | nil => exact hs
  | cons b l ih =>
    unfold place
    split
    · exact hs
    · next hsmall =>
      have hb := hfree b List.mem_cons_self
      exact ih (by omega) fun a ha => hfree a (List.mem_cons_of_mem _ ha)

end Vita.FirstFit
