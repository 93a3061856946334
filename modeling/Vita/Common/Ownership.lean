import Mathlib.Data.Set.Card
import Mathlib.Tactic.Common

/-!
# Shared ownership

Owners hold references to objects, and every object has a count. The count is right if it is the number
of the owners that hold the object; an object that is being returned is held by none.

Main lemmas:
- `ncard_enter`, `ncard_leave`: how many elements a set has when one enters or leaves it;
- `Counted.add`, `Counted.drop`, `Counted.move`, `Counted.retire`, `Counted.release`: what an owner can do,
  and the return of an object, keep the counts right.
-/

namespace Vita.Ownership

variable {P B : Type*}

/-! ## Sets that agree but for one element -/

/-- Without that element their sizes are equal. -/
theorem ncard_of_agree {S T : Set P} {p : P} (hfin : S.Finite)
    (hagree : ∀ x, x ≠ p → (x ∈ T ↔ x ∈ S)) :
    T.Finite ∧ (T \ {p}).ncard = (S \ {p}).ncard := by
  have hdiff : T \ {p} = S \ {p} := by
    ext x
    simp only [Set.mem_sdiff, Set.mem_singleton_iff]
    exact and_congr_left fun hx => hagree x hx
  refine ⟨?_, by rw [hdiff]⟩
  refine Set.Finite.subset ((hdiff ▸ hfin.sdiff : (T \ {p}).Finite).insert p) fun x hx => ?_
  by_cases hxp : x = p
  · exact .inl hxp
  · exact .inr ⟨hx, hxp⟩

/-- An element enters a set. -/
theorem ncard_enter {S T : Set P} {p : P} (hfin : S.Finite)
    (hagree : ∀ x, x ≠ p → (x ∈ T ↔ x ∈ S)) (hp : p ∉ S) (hp' : p ∈ T) :
    T.Finite ∧ T.ncard = S.ncard + 1 := by
  obtain ⟨hfin', hcard⟩ := ncard_of_agree hfin hagree
  rw [Set.sdiff_singleton_eq_self hp] at hcard
  rw [← hcard, Set.ncard_sdiff_singleton_add_one hp' hfin']
  exact ⟨hfin', rfl⟩

/-- An element leaves a set. -/
theorem ncard_leave {S T : Set P} {p : P} (hfin : S.Finite)
    (hagree : ∀ x, x ≠ p → (x ∈ T ↔ x ∈ S)) (hp : p ∈ S) (hp' : p ∉ T) :
    T.Finite ∧ T.ncard + 1 = S.ncard := by
  obtain ⟨hfin', hcard⟩ := ncard_of_agree hfin hagree
  rw [Set.sdiff_singleton_eq_self hp'] at hcard
  rw [hcard, Set.ncard_sdiff_singleton_add_one hp hfin]
  exact ⟨hfin', rfl⟩

/-! ## Counts -/

/-- The owners of an object. -/
def holders (owner : P → Option B) (b : B) : Set P := {p | owner p = some b}

@[simp] theorem mem_holders {owner : P → Option B} {b : B} {p : P} :
    p ∈ holders owner b ↔ owner p = some b := Iff.rfl

/-- The counts are right. -/
structure Counted (owner : P → Option B) (count : B → ℕ) (returning : B → Prop) : Prop where
  finite : ∀ b, (holders owner b).Finite
  counted : ∀ b, ¬returning b → count b = (holders owner b).ncard
  idle : ∀ b, returning b → holders owner b = ∅

variable {owner : P → Option B} {count : B → ℕ} {returning : B → Prop}

namespace Counted

/-- An object that is held is not being returned. -/
theorem not_returning (h : Counted owner count returning) {p : P} {b : B} (hp : owner p = some b) :
    ¬returning b := by
  intro hb
  have hmem : p ∈ holders owner b := hp
  rw [h.idle b hb] at hmem
  exact hmem

theorem pos (h : Counted owner count returning) {p : P} {b : B} (hp : owner p = some b) :
    0 < count b := by
  rw [h.counted b (h.not_returning hp), Set.ncard_pos (h.finite b)]
  exact ⟨p, hp⟩

theorem holders_eq_empty (h : Counted owner count returning) {b : B} (hb : ¬returning b)
    (hzero : count b = 0) : holders owner b = ∅ := by
  rw [h.counted b hb, Set.ncard_eq_zero (h.finite b)] at hzero
  exact hzero

variable [DecidableEq P] [DecidableEq B]

/-- An owner without an object takes one up. -/
theorem add (h : Counted owner count returning) {p : P} {b : B} (hp : owner p = none)
    (hb : ¬returning b) : Counted (Function.update owner p (some b))
      (Function.update count b (count b + 1)) returning := by
  have hagree : ∀ c x, x ≠ p →
      (x ∈ holders (Function.update owner p (some b)) c ↔ x ∈ holders owner c) := by
    intro c x hx
    simp [hx]
  have hself : ∀ c, c ≠ b → holders (Function.update owner p (some b)) c = holders owner c := by
    intro c hc
    ext x
    by_cases hx : x = p
    · subst hx
      simp [hp, Ne.symm hc]
    · exact hagree c x hx
  have hb' := ncard_enter (h.finite b) (hagree b) (by simp [hp]) (by simp)
  refine ⟨fun c => ?_, fun c hc => ?_, fun c hc => ?_⟩
  · by_cases hcb : c = b
    · exact hcb ▸ hb'.1
    · exact hself c hcb ▸ h.finite c
  · by_cases hcb : c = b
    · subst hcb
      rw [Function.update_self, hb'.2, h.counted c hc]
    · rw [Function.update_of_ne hcb, hself c hcb, h.counted c hc]
  · have hcb : c ≠ b := fun hcb => hb (hcb ▸ hc)
    rw [hself c hcb, h.idle c hc]

/-- An owner drops its object. -/
theorem drop (h : Counted owner count returning) {p : P} {b : B} (hp : owner p = some b) :
    Counted (Function.update owner p none) (Function.update count b (count b - 1)) returning := by
  have hagree : ∀ c x, x ≠ p →
      (x ∈ holders (Function.update owner p none) c ↔ x ∈ holders owner c) := by
    intro c x hx
    simp [hx]
  have hself : ∀ c, c ≠ b → holders (Function.update owner p none) c = holders owner c := by
    intro c hc
    ext x
    by_cases hx : x = p
    · subst hx
      simp [hp, Ne.symm hc]
    · exact hagree c x hx
  have hb' := ncard_leave (h.finite b) (hagree b) hp (by simp)
  refine ⟨fun c => ?_, fun c hc => ?_, fun c hc => ?_⟩
  · by_cases hcb : c = b
    · exact hcb ▸ hb'.1
    · exact hself c hcb ▸ h.finite c
  · by_cases hcb : c = b
    · subst hcb
      rw [Function.update_self, h.counted c hc, ← hb'.2, Nat.add_sub_cancel]
    · rw [Function.update_of_ne hcb, hself c hcb, h.counted c hc]
  · have hcb : c ≠ b := fun hcb => h.not_returning hp (hcb ▸ hc)
    rw [hself c hcb, h.idle c hc]

/-- An owner hands its object to one that has none. -/
theorem move (h : Counted owner count returning) {dst src : P} (hdst : owner dst = none) :
    Counted (Function.update (Function.update owner dst (owner src)) src none) count returning := by
  rcases hsrc : owner src with _ | b
  · have hsame : Function.update (Function.update owner dst none) src none = owner := by
      funext x
      by_cases hx : x = src
      · rw [hx, Function.update_self, hsrc]
      · by_cases hx' : x = dst
        · rw [Function.update_of_ne hx, hx', Function.update_self, hdst]
        · rw [Function.update_of_ne hx, Function.update_of_ne hx']
    rwa [hsame]
  · have hne : dst ≠ src := by
      rintro rfl
      rw [hdst] at hsrc
      cases hsrc
    have hadd := (h.drop hsrc).add (p := dst) (b := b) (by rw [Function.update_of_ne hne, hdst])
      (h.not_returning hsrc)
    rw [Function.update_self, Function.update_idem, Nat.sub_add_cancel (h.pos hsrc),
      Function.update_eq_self] at hadd
    rwa [Function.update_comm hne.symm] at hadd

omit [DecidableEq P] in
/-- The last owner of an object is gone, and its return begins. -/
theorem retire (h : Counted owner count returning) {b : B} (hb : holders owner b = ∅) (n : ℕ) :
    Counted owner (Function.update count b n) fun c => c = b ∨ returning c := by
  refine ⟨h.finite, fun c hc => ?_, fun c hc => ?_⟩
  · rw [not_or] at hc
    rw [Function.update_of_ne hc.1, h.counted c hc.2]
  · rcases hc with rfl | hc
    · exact hb
    · exact h.idle c hc

omit [DecidableEq P] in
/-- The return of an object is over. -/
theorem release (h : Counted owner count returning) {b : B} (hb : returning b) :
    Counted owner (Function.update count b 0) fun c => c ≠ b ∧ returning c := by
  refine ⟨h.finite, fun c hc => ?_, fun c hc => h.idle c hc.2⟩
  by_cases hcb : c = b
  · subst hcb
    rw [Function.update_self, h.idle c hb, Set.ncard_empty]
  · rw [Function.update_of_ne hcb, h.counted c fun hret => hc ⟨hcb, hret⟩]

end Counted

end Vita.Ownership
