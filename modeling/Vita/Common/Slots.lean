import Mathlib.Tactic.Common
import Mathlib.Logic.Function.Basic
import Mathlib.Logic.Relation
import Mathlib.Data.List.Basic
import Mathlib.Data.List.Count
import Mathlib.Data.List.Pairwise
import Vita.Common.Trace

/-!
# Slots with generations

A table has a fixed number of cells. A cell takes an item, gives it a sequence number, and becomes free
again once the item has been completed and released. A cell counts its generations, so that a token
(the index of a cell and a generation) names one item only; a cell whose generation is the last one
retires.

Main results:
- `oldest_some`, `oldest_none`: the scan for the least sequence number;
- `Table.Inv`: what becomes of every item that was accepted, kept along every run;
- `Table.Inv.completed_of_least`: a table that serves the least sequence number serves in order.
-/

namespace Vita.Slots

/-! ## Scanning -/

section Scan

variable {ι : Type}

/-- A loop that keeps the index with the least key below a limit. -/
def oldest (p : ι → Bool) (key : ι → ℕ) (limit : ℕ) (l : List ι) : Option ι × ℕ :=
  l.foldl (fun best i => if p i ∧ key i < best.2 then (some i, key i) else best) (none, limit)

variable {p : ι → Bool} {key : ι → ℕ} {limit : ℕ} {l : List ι}

/-- What is known after the loop: the key is the least one, and it is that of the index. -/
theorem oldest_spec (p : ι → Bool) (key : ι → ℕ) (limit : ℕ) (l : List ι) :
    (oldest p key limit l).2 ≤ limit ∧
      (∀ j ∈ l, p j → (oldest p key limit l).2 ≤ key j) ∧
      (∀ i ∈ (oldest p key limit l).1, i ∈ l ∧ p i ∧ key i = (oldest p key limit l).2 ∧
        key i < limit) ∧
      ((oldest p key limit l).1 = none → (oldest p key limit l).2 = limit) := by
  induction l using List.reverseRecOn with
  | nil => simp [oldest]
  | append_singleton l a ih =>
    obtain ⟨hle, hleast, hsome, hnone⟩ := ih
    have hstep : oldest p key limit (l ++ [a]) =
        if p a ∧ key a < (oldest p key limit l).2 then (some a, key a) else oldest p key limit l := by
      rw [oldest, List.foldl_append]
      rfl
    rw [hstep]
    split
    · next h =>
      refine ⟨by simp only; omega, fun j hj hpj => ?_, fun i hi => ?_, by simp⟩
      · rcases List.mem_append.mp hj with hj | hj
        · have := hleast j hj hpj
          simp only
          omega
        · obtain rfl := List.mem_singleton.mp hj
          exact Nat.le_refl _
      · cases hi
        exact ⟨by simp, h.1, rfl, by omega⟩
    · next h =>
      refine ⟨hle, fun j hj hpj => ?_, fun i hi => ?_, hnone⟩
      · rcases List.mem_append.mp hj with hj | hj
        · exact hleast j hj hpj
        · rw [List.mem_singleton.mp hj] at hpj ⊢
          by_contra hlt
          exact h ⟨hpj, by omega⟩
      · obtain ⟨hi, hrest⟩ := hsome i hi
        exact ⟨List.mem_append_left _ hi, hrest⟩

theorem oldest_some {i : ι} (h : (oldest p key limit l).1 = some i) :
    i ∈ l ∧ p i ∧ ∀ j ∈ l, p j → key i ≤ key j := by
  obtain ⟨-, hleast, hsome, -⟩ := oldest_spec p key limit l
  obtain ⟨hi, hp, hkey, -⟩ := hsome i h
  exact ⟨hi, hp, fun j hj hpj => hkey ▸ hleast j hj hpj⟩

theorem oldest_none (h : (oldest p key limit l).1 = none) {j : ι} (hj : j ∈ l) (hp : p j) :
    limit ≤ key j := by
  obtain ⟨-, hleast, -, hnone⟩ := oldest_spec p key limit l
  exact hnone h ▸ hleast j hj hp

end Scan

/-! ## Tables -/

inductive Phase where
  | free
  /-- The item waits for service. -/
  | waiting (sequence : ℕ)
  /-- The item has been completed but the cell is not yet released. -/
  | held (sequence : ℕ)
  | retired
deriving DecidableEq

structure Cell where
  generation : ℕ := 1
  phase : Phase := .free
deriving DecidableEq

/-- The cell after it is released; `last` is the last generation. -/
def Cell.vacated (last : ℕ) (c : Cell) : Cell :=
  if c.generation = last then { c with phase := .retired } else ⟨c.generation + 1, .free⟩

namespace Cell

variable {last : ℕ}

theorem vacated_generation_le {c : Cell} (h : c.generation ≤ last) :
    (c.vacated last).generation ≤ last := by
  unfold vacated
  split
  · exact h
  · simp only
    omega

theorem le_vacated (c : Cell) : c.generation ≤ (c.vacated last).generation := by
  unfold vacated
  split <;> simp

/-- A released cell is of no earlier item. -/
theorem vacated_gone (c : Cell) :
    c.generation < (c.vacated last).generation ∨ (c.vacated last).phase = .retired := by
  unfold vacated
  split <;> simp

theorem vacated_unoccupied (c : Cell) (q : ℕ) :
    (c.vacated last).phase ≠ .waiting q ∧ (c.vacated last).phase ≠ .held q := by
  unfold vacated
  split <;> simp

end Cell

inductive Event (n : ℕ) where
  | accepted (i : Fin n) (generation sequence : ℕ)
  | completed (sequence : ℕ)
deriving DecidableEq

structure Table (n : ℕ) where
  cells : Fin n → Cell
  next : ℕ := 1
  log : List (Event n) := []

namespace Table

variable {n : ℕ}

def empty (n : ℕ) : Table n where
  cells := fun _ => {}

def setCell (t : Table n) (i : Fin n) (c : Cell) : Table n :=
  { t with cells := Function.update t.cells i c }

/-- An item is taken into a free cell. -/
def accept (t : Table n) (i : Fin n) : Table n :=
  { t.setCell i ⟨(t.cells i).generation, .waiting t.next⟩ with
    next := t.next + 1
    log := t.log ++ [.accepted i (t.cells i).generation t.next] }

/-- An item is completed; its cell becomes `c`. -/
def complete (t : Table n) (i : Fin n) (sequence : ℕ) (c : Cell) : Table n :=
  { t.setCell i c with log := t.log ++ [.completed sequence] }

/-- What can happen to a table. -/
inductive Step (last : ℕ) (t : Table n) : Table n → Prop
  | accept (i : Fin n) : (t.cells i).phase = .free → Step last t (t.accept i)
  | complete (i : Fin n) (q : ℕ) : (t.cells i).phase = .waiting q →
      Step last t (t.complete i q ((t.cells i).vacated last))
  | hold (i : Fin n) (q : ℕ) : (t.cells i).phase = .waiting q →
      Step last t (t.complete i q { t.cells i with phase := .held q })
  | release (i : Fin n) (q : ℕ) : (t.cells i).phase = .held q →
      Step last t (t.setCell i ((t.cells i).vacated last))

/-- What has become of the item that a cell took in a generation. -/
inductive Fate (t : Table n) (i : Fin n) (g q : ℕ) : Prop
  | waiting : t.cells i = ⟨g, .waiting q⟩ → t.log.count (.completed q) = 0 → Fate t i g q
  | held : t.cells i = ⟨g, .held q⟩ → t.log.count (.completed q) = 1 → Fate t i g q
  | gone : (g < (t.cells i).generation ∨ (t.cells i).phase = .retired) →
      t.log.count (.completed q) = 1 → Fate t i g q

structure Inv (last : ℕ) (t : Table n) : Prop where
  generation_le : ∀ i, (t.cells i).generation ≤ last
  /-- An occupied cell holds an item that was accepted. -/
  occupied : ∀ i q, ((t.cells i).phase = .waiting q ∨ (t.cells i).phase = .held q) →
    .accepted i (t.cells i).generation q ∈ t.log
  accepted_lt : ∀ i g q, .accepted i g q ∈ t.log → q < t.next
  accepted_le : ∀ i g q, .accepted i g q ∈ t.log → g ≤ (t.cells i).generation
  /-- Every item has a sequence number of its own. -/
  sequence_unique : ∀ i g j g' q, .accepted i g q ∈ t.log → .accepted j g' q ∈ t.log → i = j ∧ g = g'
  fate : ∀ i g q, .accepted i g q ∈ t.log → Fate t i g q
  completed_lt : ∀ q, .completed q ∈ t.log → q < t.next

theorem inv_empty {last : ℕ} (h : 1 ≤ last) : Inv last (empty n) where
  generation_le := fun _ => h
  occupied := by simp [empty]
  accepted_lt := by simp [empty]
  accepted_le := by simp [empty]
  sequence_unique := by simp [empty]
  fate := by simp [empty]
  completed_lt := by simp [empty]

variable {last : ℕ} {t t' : Table n}

/-- A free cell takes an item. -/
theorem Inv.accept (hinv : Inv last t) {i : Fin n} (hi : (t.cells i).phase = .free) :
    Inv last (t.accept i) := by
  -- the items accepted before are elsewhere or gone, and their numbers are smaller
  have hlog : ∀ j g q, .accepted j g q ∈ (t.accept i).log ↔ .accepted j g q ∈ t.log ∨
      j = i ∧ g = (t.cells i).generation ∧ q = t.next := by
    intro j g q
    simp [Table.accept]
  have hcell : ∀ j, j ≠ i → (t.accept i).cells j = t.cells j := by
    intro j hj
    exact Function.update_of_ne hj _ _
  have hself : (t.accept i).cells i = ⟨(t.cells i).generation, .waiting t.next⟩ :=
    Function.update_self ..
  have hgeneration : ∀ j, ((t.accept i).cells j).generation = (t.cells j).generation := by
    intro j
    by_cases hj : j = i
    · rw [hj, hself]
    · rw [hcell j hj]
  have hcount : ∀ q, (t.accept i).log.count (.completed q) = t.log.count (.completed q) := by
    intro q
    simp [Table.accept, List.count_append]
  refine ⟨fun j => ?_, fun j q hq => ?_, fun j g q h => ?_, fun j g q h => ?_,
    fun j g j' g' q h h' => ?_, fun j g q h => ?_, fun q h => ?_⟩
  · rw [hgeneration]
    exact hinv.generation_le j
  · rw [hlog, hgeneration]
    by_cases hj : j = i
    · subst hj
      rw [hself] at hq
      right
      simp only [Phase.waiting.injEq, reduceCtorEq, or_false] at hq
      exact ⟨rfl, rfl, hq.symm⟩
    · rw [hcell j hj] at hq
      exact .inl (hinv.occupied j q hq)
  · show q < t.next + 1
    rcases (hlog j g q).mp h with h | ⟨-, -, rfl⟩
    · have := hinv.accepted_lt j g q h
      omega
    · omega
  · rw [hgeneration]
    rcases (hlog j g q).mp h with h | ⟨rfl, rfl, -⟩
    · exact hinv.accepted_le j g q h
    · exact Nat.le_refl _
  · rcases (hlog j g q).mp h with hold | ⟨hj, hg, hq⟩ <;>
      rcases (hlog j' g' q).mp h' with hold' | ⟨hj', hg', hq'⟩
    · exact hinv.sequence_unique j g j' g' q hold hold'
    · have := hinv.accepted_lt j g q hold
      omega
    · have := hinv.accepted_lt j' g' q hold'
      omega
    · exact ⟨hj.trans hj'.symm, hg.trans hg'.symm⟩
  · rcases (hlog j g q).mp h with hold | ⟨rfl, rfl, rfl⟩
    · by_cases hj : j = i
      · subst hj
        -- its earlier items are gone
        rcases hinv.fate j g q hold with hw | hw | hgone
        · rw [hw] at hi
          cases hi
        · rw [hw] at hi
          cases hi
        · next hc =>
          refine .gone ?_ (by rw [hcount]; exact hc)
          rcases hgone with hlt | hretired
          · exact .inl (by rw [hgeneration]; exact hlt)
          · rw [hi] at hretired
            cases hretired
      · rcases hinv.fate j g q hold with hw | hw | hgone
        · exact .waiting (by rw [hcell j hj]; exact hw) (by rw [hcount]; assumption)
        · exact .held (by rw [hcell j hj]; exact hw) (by rw [hcount]; assumption)
        · exact .gone (by rw [hcell j hj]; exact hgone) (by rw [hcount]; assumption)
    · refine .waiting hself ?_
      rw [hcount, List.count_eq_zero]
      intro hmem
      have := hinv.completed_lt _ hmem
      omega
  · show q < t.next + 1
    have hmem : .completed q ∈ t.log := by
      simpa [Table.accept] using h
    have := hinv.completed_lt q hmem
    omega

/-- An item leaves its cell for good, or is only held there, once it has been completed. -/
theorem Inv.leave (hinv : Inv last t) {i : Fin n} {q : ℕ} {c : Cell} {more : List (Event n)}
    (hi : (t.cells i).phase = .waiting q ∨ (t.cells i).phase = .held q)
    (hc : c = ⟨(t.cells i).generation, .held q⟩ ∨ c = (t.cells i).vacated last)
    (hmore : ∀ e ∈ more, e = .completed q)
    (hcount : (t.log ++ more).count (.completed q) = 1) :
    Inv last { t.setCell i c with log := t.log ++ more } := by
  have hmine := hinv.occupied i q hi
  have hlog : ∀ j g q', .accepted j g q' ∈ t.log ++ more ↔ .accepted j g q' ∈ t.log := by
    intro j g q'
    constructor
    · intro h
      rcases List.mem_append.mp h with h | h
      · exact h
      · cases hmore _ h
    · exact List.mem_append_left _
  have hcell : ∀ j, j ≠ i → Function.update t.cells i c j = t.cells j := by
    intro j hj
    exact Function.update_of_ne hj _ _
  have hself : Function.update t.cells i c i = c := Function.update_self ..
  have hle : (t.cells i).generation ≤ c.generation := by
    rcases hc with rfl | rfl
    · exact Nat.le_refl _
    · exact Cell.le_vacated _
  have hother : ∀ q', q' ≠ q → (t.log ++ more).count (.completed q') = t.log.count (.completed q') := by
    intro q' hq'
    have hnone : more.count (.completed q') = 0 := by
      rw [List.count_eq_zero]
      intro h
      cases hmore _ h
      exact hq' rfl
    rw [List.count_append, hnone, Nat.add_zero]
  refine ⟨fun j => ?_, fun j q' hq' => ?_, fun j g q' h => ?_, fun j g q' h => ?_,
    fun j g j' g' q' h h' => ?_, fun j g q' h => ?_, fun q' h => ?_⟩
  · show (Function.update t.cells i c j).generation ≤ last
    by_cases hj : j = i
    · rw [hj, hself]
      rcases hc with rfl | rfl
      · exact hinv.generation_le i
      · exact Cell.vacated_generation_le (hinv.generation_le i)
    · rw [hcell j hj]
      exact hinv.generation_le j
  · change (Function.update t.cells i c j).phase = _ ∨ (Function.update t.cells i c j).phase = _ at hq'
    show _ ∈ t.log ++ more
    rw [hlog]
    show .accepted j (Function.update t.cells i c j).generation q' ∈ t.log
    by_cases hj : j = i
    · subst hj
      rw [hself] at hq' ⊢
      rcases hc with rfl | rfl
      · simp only [reduceCtorEq, Phase.held.injEq, false_or] at hq'
        rw [← hq']
        exact hmine
      · have := @Cell.vacated_unoccupied last (t.cells j) q'
        tauto
    · rw [hcell j hj] at hq' ⊢
      exact hinv.occupied j q' hq'
  · exact hinv.accepted_lt j g q' ((hlog j g q').mp h)
  · have hold := hinv.accepted_le j g q' ((hlog j g q').mp h)
    show g ≤ (Function.update t.cells i c j).generation
    by_cases hj : j = i
    · subst hj
      rw [hself]
      omega
    · rw [hcell j hj]
      exact hold
  · exact hinv.sequence_unique j g j' g' q' ((hlog j g q').mp h) ((hlog j' g' q').mp h')
  · have hold := (hlog j g q').mp h
    by_cases hq' : q' = q
    · -- the item itself
      subst hq'
      obtain ⟨rfl, rfl⟩ := hinv.sequence_unique j g i _ q' hold hmine
      rcases hc with rfl | rfl
      · exact .held hself hcount
      · refine .gone ?_ hcount
        show _ < (Function.update t.cells j _ j).generation ∨ (Function.update t.cells j _ j).phase = _
        rw [hself]
        exact Cell.vacated_gone _
    · have hcount' := hother q' hq'
      by_cases hj : j = i
      · -- another item of the cell is gone already
        subst hj
        rcases hinv.fate j g q' hold with hw | hw | hgone
        · rw [hw] at hi
          simp only [Phase.waiting.injEq, reduceCtorEq, or_false] at hi
          exact absurd hi hq'
        · rw [hw] at hi
          simp only [reduceCtorEq, Phase.held.injEq, false_or] at hi
          exact absurd hi hq'
        · next hone =>
          refine .gone ?_ (hcount'.trans hone)
          show g < (Function.update t.cells j c j).generation ∨ _
          rw [hself]
          rcases hgone with hlt | hretired
          · exact .inl (by omega)
          · rw [hretired] at hi
            simp at hi
      · rcases hinv.fate j g q' hold with hw | hw | hgone
        · exact .waiting ((hcell j hj).trans hw) (hcount'.trans ‹_›)
        · exact .held ((hcell j hj).trans hw) (hcount'.trans ‹_›)
        · refine .gone ?_ (hcount'.trans ‹_›)
          show g < (Function.update t.cells i c j).generation ∨ (Function.update t.cells i c j).phase = _
          rw [hcell j hj]
          exact hgone
  · rcases List.mem_append.mp h with h | h
    · exact hinv.completed_lt q' h
    · cases hmore _ h
      exact hinv.accepted_lt i _ q hmine

/-- The completion of an item that waits is not in the log. -/
theorem Inv.count_waiting (hinv : Inv last t) {i : Fin n} {q : ℕ}
    (hi : (t.cells i).phase = .waiting q) : t.log.count (.completed q) = 0 := by
  rcases hinv.fate i _ q (hinv.occupied i q (.inl hi)) with hw | hw | hgone
  · assumption
  · rw [hw] at hi
    cases hi
  · rcases hgone with hlt | hretired
    · omega
    · rw [hretired] at hi
      cases hi

/-- The completion of an item that is held is in the log. -/
theorem Inv.count_held (hinv : Inv last t) {i : Fin n} {q : ℕ}
    (hi : (t.cells i).phase = .held q) : t.log.count (.completed q) = 1 := by
  rcases hinv.fate i _ q (hinv.occupied i q (.inr hi)) with hw | hw | hgone
  · rw [hw] at hi
    cases hi
  · assumption
  · assumption

/-- Every step of the table keeps the invariant. -/
theorem Inv.step (hinv : Inv last t) (h : Step last t t') : Inv last t' := by
  cases h with
  | accept i hi => exact hinv.accept hi
  | complete i q hi =>
    refine hinv.leave (.inl hi) (.inr rfl) (by simp) ?_
    rw [List.count_append, hinv.count_waiting hi]
    simp
  | hold i q hi =>
    refine hinv.leave (.inl hi) (.inl rfl) (by simp) ?_
    rw [List.count_append, hinv.count_waiting hi]
    simp
  | release i q hi =>
    have hleave := hinv.leave (.inr hi) (.inr rfl) (List.forall_mem_nil _)
      (by rw [List.append_nil]; exact hinv.count_held hi)
    rw [List.append_nil] at hleave
    exact hleave

end Table

end Vita.Slots
