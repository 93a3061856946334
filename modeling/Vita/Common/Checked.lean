import Mathlib.Tactic.Common
import Mathlib.Data.List.Forall2
import Mathlib.Algebra.Group.Int.Defs
import Mathlib.Algebra.Group.Nat.Defs

/-!
# Checked computations

Code that returns early with an error, as `Except` computations. `rejectIf c e` is the statement
`if (c) return e;`. The lemmas peel a successful computation apart into its checks and results.
-/

namespace Checked

variable {ε α β : Type}

/-- Stop with `e` when `c` holds. -/
def rejectIf (c : Prop) [Decidable c] (e : ε) : Except ε Unit :=
  if c then .error e else .ok ()

@[simp] theorem rejectIf_eq_ok {c : Prop} [Decidable c] {e : ε} {u : Unit} :
    rejectIf c e = .ok u ↔ ¬ c := by
  unfold rejectIf
  split <;> simp_all

theorem rejectIf_of {c : Prop} [Decidable c] {e : ε} (h : c) : rejectIf c e = .error e := if_pos h

theorem rejectIf_of_not {c : Prop} [Decidable c] {e : ε} (h : ¬ c) :
    rejectIf c e = .ok () := by
  simp [h]

@[simp] theorem rejectIf_eq_error {c : Prop} [Decidable c] {e e' : ε} :
    rejectIf c e = .error e' ↔ c ∧ e = e' := by
  unfold rejectIf
  split <;> simp_all

/-- A sequence succeeds exactly when its parts do, in order. -/
@[simp] theorem bind_eq_ok {x : Except ε α} {f : α → Except ε β} {r : β} :
    (x >>= f) = .ok r ↔ ∃ a, x = .ok a ∧ f a = .ok r := by
  cases x <;> simp [bind, Except.bind]

/-- A sequence fails where its first part fails, or its second after the first succeeded. -/
theorem bind_eq_error {x : Except ε α} {f : α → Except ε β} {e : ε} :
    (x >>= f) = .error e ↔ x = .error e ∨ ∃ a, x = .ok a ∧ f a = .error e := by
  cases x <;> simp [bind, Except.bind]

@[simp] theorem ok_bind (a : α) (f : α → Except ε β) : (Except.ok a >>= f) = f a := rfl

@[simp] theorem error_bind (e : ε) (f : α → Except ε β) : (Except.error e >>= f) = .error e := rfl

@[simp] theorem pure_eq_ok (a : α) : (pure a : Except ε α) = .ok a := rfl

@[simp] theorem throw_eq_error (e : ε) : (throw e : Except ε α) = .error e := rfl

/-! ## Loops -/

/-- A loop that maps a list succeeds exactly when every step does. -/
theorem mapM_eq_ok {f : α → Except ε β} {l : List α} {l' : List β} :
    l.mapM f = .ok l' ↔ List.Forall₂ (fun a b => f a = .ok b) l l' := by
  induction l generalizing l' with
  | nil =>
    simp only [List.mapM_nil, pure_eq_ok, Except.ok.injEq, List.forall₂_nil_left_iff]
    exact eq_comm
  | cons a l ih =>
    simp only [List.mapM_cons, bind_eq_ok, pure_eq_ok, Except.ok.injEq, List.forall₂_cons_left_iff, ih]
    constructor
    · rintro ⟨b, hb, bs, hbs, rfl⟩
      exact ⟨b, bs, hb, hbs, rfl⟩
    · rintro ⟨b, bs, hb, hbs, rfl⟩
      exact ⟨b, hb, bs, hbs, rfl⟩

/-- A member of one of two matching lists has a partner in the other. -/
theorem exists_of_forall₂ {R : α → β → Prop} {l : List α} {l' : List β} {a : α}
    (h : List.Forall₂ R l l') (ha : a ∈ l) : ∃ b ∈ l', R a b := by
  induction h with
  | nil => cases ha
  | cons hab _ ih =>
    obtain rfl | ha := List.mem_cons.mp ha
    · exact ⟨_, List.mem_cons_self .., hab⟩
    · obtain ⟨b, hb, hab⟩ := ih ha
      exact ⟨b, List.mem_cons_of_mem _ hb, hab⟩

/-- Every result of a mapping loop comes from an element. -/
theorem exists_of_mem_mapM {f : α → Except ε β} {l : List α} {l' : List β} {b : β}
    (h : l.mapM f = .ok l') (hb : b ∈ l') : ∃ a ∈ l, f a = .ok b :=
  exists_of_forall₂ (mapM_eq_ok.mp h).flip hb

/-- A loop that only checks succeeds exactly when every check does. -/
theorem forM_eq_ok {f : α → Except ε Unit} {l : List α} :
    l.forM f = .ok () ↔ ∀ a ∈ l, f a = .ok () := by
  induction l with
  | nil => simp
  | cons a l ih =>
    show (f a >>= fun _ => l.forM f) = .ok () ↔ _
    rw [bind_eq_ok, List.forall_mem_cons]
    constructor
    · rintro ⟨u, ha, hl⟩
      exact ⟨ha, ih.mp hl⟩
    · rintro ⟨ha, hl⟩
      exact ⟨(), ha, ih.mpr hl⟩

/-- The invariant rule of a loop with state: what holds of the consumed prefix and the state before a
step holds after it, so it holds of the whole list at the end. -/
theorem foldlM_induction {σ : Type} {f : σ → α → Except ε σ} (P : List α → σ → Prop)
    {l : List α} {s s' : σ} (hinit : P [] s)
    (hstep : ∀ done a t t', a ∈ l → P done t → f t a = .ok t' → P (done ++ [a]) t')
    (h : l.foldlM f s = .ok s') : P l s' := by
  have hgen : ∀ (rest done : List α) (t : σ), (∀ a ∈ rest, a ∈ l) → P done t →
      rest.foldlM f t = .ok s' → P (done ++ rest) s' := by
    intro rest
    induction rest with
    | nil =>
      intro done t _ hP ht
      simp only [List.foldlM_nil, pure_eq_ok, Except.ok.injEq] at ht
      rw [List.append_nil, ← ht]
      exact hP
    | cons a rest ih =>
      intro done t hmem hP ht
      simp only [List.foldlM_cons, bind_eq_ok] at ht
      obtain ⟨t', hat, ht⟩ := ht
      have hstep' := hstep done a t t' (hmem a (List.mem_cons_self ..)) hP hat
      have := ih (done ++ [a]) t' (fun b hb => hmem b (List.mem_cons_of_mem _ hb)) hstep' ht
      rwa [List.append_assoc, List.singleton_append] at this
  simpa using hgen l [] s (fun _ ha => ha) hinit h

/-- The simulation rule of loops: from related states, every successful step of the first loop is
matched by a successful step of the second, so the second loop succeeds when the first one does. `Q`
holds of the first loop's states as seen from its end. -/
theorem foldlM_simulation {ε' σ τ : Type} {f : σ → α → Except ε σ} {g : τ → α → Except ε' τ}
    (R : List α → σ → τ → Prop) (Q : σ → Prop) {l : List α} {s final : σ} {u : τ}
    (hinit : R [] s u) (hfinal : Q final) (hback : ∀ a t t', f t a = .ok t' → Q t' → Q t)
    (hstep : ∀ done a rest t t' u, l = done ++ a :: rest → R done t u → f t a = .ok t' → Q t' →
      ∃ u', g u a = .ok u' ∧ R (done ++ [a]) t' u')
    (h : l.foldlM f s = .ok final) : ∃ u', l.foldlM g u = .ok u' ∧ R l final u' := by
  have hQ : ∀ (rest : List α) (t : σ), rest.foldlM f t = .ok final → Q t := by
    intro rest
    induction rest with
    | nil =>
      intro t ht
      obtain rfl := Except.ok.inj ht
      exact hfinal
    | cons a rest ih =>
      intro t ht
      obtain ⟨t', hat, ht⟩ := bind_eq_ok.mp ht
      exact hback a t t' hat (ih t' ht)
  have hgen : ∀ (rest done : List α) (t : σ) (u : τ), l = done ++ rest → R done t u →
      rest.foldlM f t = .ok final → ∃ u', rest.foldlM g u = .ok u' ∧ R l final u' := by
    intro rest
    induction rest with
    | nil =>
      intro done t u hl hR ht
      obtain rfl := Except.ok.inj ht
      rw [List.append_nil] at hl
      exact ⟨u, rfl, hl ▸ hR⟩
    | cons a rest ih =>
      intro done t u hl hR ht
      obtain ⟨t', hat, ht⟩ := bind_eq_ok.mp ht
      obtain ⟨u', hau, hR'⟩ := hstep done a rest t t' u hl hR hat (hQ rest t' ht)
      obtain ⟨v, hv, hfin⟩ := ih (done ++ [a]) t' u' (by simp [hl]) hR' ht
      exact ⟨v, by rw [List.foldlM_cons, hau, ok_bind, hv], hfin⟩
  exact hgen l [] s u rfl hinit h

/-! ## Failures that do not happen -/

/-- The computation does not fail with `e`. -/
def Avoids (e : ε) (x : Except ε α) : Prop := x ≠ .error e

section Avoids

variable {e : ε}

@[simp] theorem avoids_ok (a : α) : Avoids e (.ok a : Except ε α) := by
  simp [Avoids]

@[simp] theorem avoids_error {e' : ε} : Avoids e (.error e' : Except ε α) ↔ e' ≠ e := by
  simp [Avoids]

/-- A sequence avoids an error when each part does, the second from the results of the first. -/
@[simp] theorem avoids_bind {x : Except ε α} {f : α → Except ε β} :
    Avoids e (x >>= f) ↔ Avoids e x ∧ ∀ a, x = .ok a → Avoids e (f a) := by
  cases x <;> simp [Avoids, bind, Except.bind]

@[simp] theorem avoids_rejectIf {c : Prop} [Decidable c] {e' : ε} :
    Avoids e (rejectIf c e') ↔ c → e' ≠ e := by
  simp [Avoids]

@[simp] theorem avoids_ite {c : Prop} [Decidable c] {x y : Except ε α} :
    Avoids e (if c then x else y) ↔ (c → Avoids e x) ∧ (¬c → Avoids e y) := by
  split <;> simp_all

theorem avoids_forM {f : α → Except ε Unit} {l : List α} (h : ∀ a ∈ l, Avoids e (f a)) :
    Avoids e (l.forM f) := by
  induction l with
  | nil => exact avoids_ok ()
  | cons a l ih =>
    show Avoids e (f a >>= fun _ => l.forM f)
    rw [avoids_bind]
    exact ⟨h a (List.mem_cons_self ..), fun _ _ => ih fun b hb => h b (List.mem_cons_of_mem _ hb)⟩

/-- A loop with an invariant avoids an error when each step from the invariant does. -/
theorem avoids_foldlM {σ : Type} {f : σ → α → Except ε σ} (P : σ → Prop) {l : List α} {s : σ}
    (hinit : P s) (hstep : ∀ a t t', a ∈ l → P t → f t a = .ok t' → P t')
    (hfail : ∀ a t, a ∈ l → P t → Avoids e (f t a)) : Avoids e (l.foldlM f s) := by
  induction l generalizing s with
  | nil => exact avoids_ok s
  | cons a l ih =>
    rw [List.foldlM_cons, avoids_bind]
    refine ⟨hfail a s (List.mem_cons_self ..) hinit, fun t ht => ?_⟩
    exact ih (hstep a s t (List.mem_cons_self ..) hinit ht)
      (fun b u u' hb => hstep b u u' (List.mem_cons_of_mem _ hb))
      (fun b u hb => hfail b u (List.mem_cons_of_mem _ hb))

end Avoids

section Decisions

variable {p : α → Prop} [DecidablePred p]

/-- A check of the elements of a list goes through the list, also where the element type is finite. -/
instance (priority := 2000) forallMemList (l : List α) : Decidable (∀ x, x ∈ l → p x) :=
  List.decidableBAll p l

instance (priority := 2000) forallMemOption (o : Option α) : Decidable (∀ x, x ∈ o → p x) :=
  Option.decidableForallMem o

instance (priority := 2000) neZeroFour : @NeZero ℕ (@Zero.ofOfNat0 ℕ (instOfNatNat 0)) 4 :=
  ⟨Nat.succ_ne_zero 3⟩

instance (priority := 2000) neZeroEight : @NeZero ℕ (@Zero.ofOfNat0 ℕ (instOfNatNat 0)) 8 :=
  ⟨Nat.succ_ne_zero 7⟩

instance (priority := 2000) lawfulBEqFinEight : LawfulBEq (Fin 8) := inferInstance

end Decisions

end Checked
