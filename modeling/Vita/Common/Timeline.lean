import Mathlib.Data.List.Basic
import Mathlib.Data.List.TakeWhile
import Mathlib.Data.List.Perm.Basic
import Mathlib.Order.Basic
import Mathlib.Order.Defs.LinearOrder
import Mathlib.Order.Lattice

/-!
# Bounded timelines

A timeline is a list in strictly increasing order of a key. An element is placed at its key; where
the key is taken, the old element stays and is merged with the new one. A bounded timeline keeps the
elements with the latest keys: when it is full, a new element displaces the earliest one or, if it is
itself the earliest, is refused.

Main lemmas:
- `place_ordered`: placing keeps the order;
- `mem_place`: what is in the timeline after a placement;
- `latest_place`: the bounded timeline is the tail of the unbounded one, so what it forgets never
  influences what it keeps;
- `place_perm`: elements with new keys only extend the timeline;
- `mem_latest`: an element is kept if fewer than `n` elements are later;
- `getLast?_upTo`: the last element up to a key.
-/

namespace Vita.Timeline

variable {α κ : Type} [LinearOrder κ] (key : α → κ)

/-- The keys are strictly increasing. -/
def Ordered (l : List α) : Prop := l.Pairwise fun a b => key a < key b

/-- The elements before a key. -/
def earlier (k : κ) (l : List α) : List α := l.takeWhile fun a => key a < k

/-- The elements from a key on. -/
def later (k : κ) (l : List α) : List α := l.dropWhile fun a => key a < k

/-- The last `n` elements. -/
def latest (n : ℕ) (l : List α) : List α := l.drop (l.length - n)

/-- Place an element at its key. -/
def place (merge : α → α → α) (x : α) (l : List α) : List α :=
  match later key (key x) l with
  | [] => earlier key (key x) l ++ [x]
  | y :: rest =>
    if key y = key x then earlier key (key x) l ++ merge y x :: rest
    else earlier key (key x) l ++ x :: y :: rest

/-- Place an element in a timeline of at most `n` elements; `none` if it is refused. -/
def placeBounded (n : ℕ) (merge : α → α → α) (x : α) (l : List α) : Option (List α) :=
  match later key (key x) l with
  | y :: rest =>
    if key y = key x then some (earlier key (key x) l ++ merge y x :: rest)
    else if l.length = n then
      match earlier key (key x) l with
      | [] => none
      | _ :: before => some (before ++ x :: y :: rest)
    else some (earlier key (key x) l ++ x :: y :: rest)
  | [] =>
    if l.length = n then
      match earlier key (key x) l with
      | [] => none
      | _ :: before => some (before ++ [x])
    else some (earlier key (key x) l ++ [x])

variable {key}

/-! ## The parts of a timeline -/

theorem earlier_append_later (key : α → κ) (k : κ) (l : List α) : earlier key k l ++ later key k l = l :=
  List.takeWhile_append_dropWhile

theorem of_mem_earlier {k : κ} {l : List α} {a : α} (h : a ∈ earlier key k l) : key a < k := by
  have := List.mem_takeWhile_imp h
  simpa using this

theorem Ordered.later {l : List α} (h : Ordered key l) (k : κ) :
    Ordered key (Timeline.later key k l) :=
  List.Pairwise.sublist (List.dropWhile_sublist _) h

/-- The entries from a key on are not below it. -/
theorem Ordered.le_of_mem_later {k : κ} {l : List α} (h : Ordered key l) {a : α}
    (ha : a ∈ Timeline.later key k l) : k ≤ key a := by
  have hl := h.later k
  revert ha
  rcases hsplit : Timeline.later key k l with _ | ⟨y, rest⟩
  · simp
  · have hy : ¬key y < k := by
      have := List.head?_dropWhile_not (fun a => decide (key a < k)) l
      rw [show l.dropWhile (fun a => decide (key a < k)) = y :: rest from hsplit] at this
      simpa using this
    intro ha
    rw [hsplit] at hl
    rcases List.mem_cons.mp ha with rfl | ha
    · exact not_lt.mp hy
    · exact (not_lt.mp hy).trans ((List.pairwise_cons.mp hl).1 a ha).le

theorem later_eq_self {k : κ} {l : List α} (h : ∀ a ∈ l, k ≤ key a) :
    Timeline.earlier key k l = [] ∧ Timeline.later key k l = l := by
  rcases l with _ | ⟨a, l⟩
  · exact ⟨rfl, rfl⟩
  · have ha : ¬key a < k := not_lt.mpr (h a List.mem_cons_self)
    simp [Timeline.earlier, Timeline.later, ha]

/-- A list that is split at a key is split there by `earlier` and `later`. -/
theorem split_append {k : κ} {before after : List α} (hbefore : ∀ a ∈ before, key a < k)
    (hafter : ∀ a ∈ after, k ≤ key a) :
    Timeline.earlier key k (before ++ after) = before ∧
      Timeline.later key k (before ++ after) = after := by
  induction before with
  | nil => exact later_eq_self hafter
  | cons a before ih =>
    have ha : key a < k := hbefore a List.mem_cons_self
    obtain ⟨hearlier, hlater⟩ := ih fun b hb => hbefore b (List.mem_cons_of_mem _ hb)
    simp only [Timeline.earlier, Timeline.later, List.cons_append, List.takeWhile_cons,
      List.dropWhile_cons, ha, decide_true, if_true] at hearlier hlater ⊢
    exact ⟨by rw [hearlier], hlater⟩

theorem Ordered.eq_of_key {l : List α} (h : Ordered key l) {a b : α} (ha : a ∈ l) (hb : b ∈ l)
    (hkey : key a = key b) : a = b := by
  by_contra hne
  exact List.Pairwise.forall_of_forall_of_flip (R := fun a b => a ≠ b → key a ≠ key b)
    (fun _ _ h => absurd rfl h) (h.imp fun hlt _ => hlt.ne) (h.imp fun hlt _ => hlt.ne') ha hb hne hkey

/-! ## Placing -/

section Place

variable (merge : α → α → α)

/-- How an element is placed: it is merged with the element at its key, or inserted. -/
theorem place_cases {l : List α} (h : Ordered key l) (x : α) :
    (∃ before y after, l = before ++ y :: after ∧ key y = key x ∧ (∀ a ∈ before, key a < key x) ∧
      (∀ a ∈ after, key x < key a) ∧ place key merge x l = before ++ merge y x :: after) ∨
    ∃ before after, l = before ++ after ∧ (∀ a ∈ before, key a < key x) ∧
      (∀ a ∈ after, key x < key a) ∧ place key merge x l = before ++ x :: after := by
  have happend := earlier_append_later key (key x) l
  have hbefore : ∀ a ∈ Timeline.earlier key (key x) l, key a < key x := fun a ha => of_mem_earlier ha
  have hlater := h.later (key x)
  have hle := fun a (ha : a ∈ Timeline.later key (key x) l) => h.le_of_mem_later ha
  rcases hsplit : Timeline.later key (key x) l with _ | ⟨y, after⟩
  · refine .inr ⟨Timeline.earlier key (key x) l, [], ?_, hbefore, by simp, ?_⟩
    · rw [← hsplit, happend]
    · simp only [place, hsplit]
  · rw [hsplit] at happend hlater hle
    obtain ⟨hy, -⟩ := List.pairwise_cons.mp hlater
    by_cases hkey : key y = key x
    · refine .inl ⟨_, y, after, happend.symm, hkey, hbefore, fun a ha => hkey ▸ hy a ha, ?_⟩
      simp only [place, hsplit, if_pos hkey]
    · have hlt : key x < key y := lt_of_le_of_ne (hle y List.mem_cons_self) (Ne.symm hkey)
      refine .inr ⟨_, y :: after, happend.symm, hbefore, fun a ha => ?_, ?_⟩
      · rcases List.mem_cons.mp ha with rfl | ha
        · exact hlt
        · exact hlt.trans (hy a ha)
      · simp only [place, hsplit, if_neg hkey]

theorem ordered_append_cons {before after : List α} {x : α} (h : Ordered key (before ++ after))
    (hbefore : ∀ a ∈ before, key a < key x) (hafter : ∀ a ∈ after, key x < key a) :
    Ordered key (before ++ x :: after) := by
  obtain ⟨hb, ha, -⟩ := List.pairwise_append.mp h
  refine List.pairwise_append.mpr ⟨hb, List.pairwise_cons.mpr ⟨hafter, ha⟩, fun a ha b hb => ?_⟩
  rcases List.mem_cons.mp hb with rfl | hb
  · exact hbefore a ha
  · exact (hbefore a ha).trans (hafter b hb)

variable {merge}

theorem place_ordered (hmerge : ∀ a b, key (merge a b) = key a) {l : List α} (h : Ordered key l)
    (x : α) : Ordered key (place key merge x l) := by
  rcases place_cases merge h x with
    ⟨before, y, after, rfl, hkey, hbefore, hafter, hplace⟩ | ⟨before, after, rfl, hbefore, hafter, hplace⟩
  · have hmkey : key (merge y x) = key x := (hmerge y x).trans hkey
    rw [hplace]
    refine ordered_append_cons ?_ (fun a ha => hmkey ▸ hbefore a ha) fun a ha => hmkey ▸ hafter a ha
    exact List.Pairwise.sublist ((List.sublist_cons_self y after).append_left before) h
  · rw [hplace]
    exact ordered_append_cons h hbefore hafter

/-- The elements after a placement: those of other keys, and the one at the key of the new element. -/
theorem mem_place {l : List α} (h : Ordered key l) {x e : α} :
    e ∈ place key merge x l ↔ e ∈ l ∧ key e ≠ key x ∨ (∃ y ∈ l, key y = key x ∧ e = merge y x) ∨
      e = x ∧ ∀ y ∈ l, key y ≠ key x := by
  rcases place_cases merge h x with
    ⟨before, y, after, rfl, hkey, hbefore, hafter, hplace⟩ | ⟨before, after, rfl, hbefore, hafter, hplace⟩
  · have hold : ∀ a ∈ before ++ y :: after, key a = key x → a = y := by
      intro a ha hax
      exact (h.eq_of_key ha (by simp) (hax.trans hkey.symm))
    rw [hplace]
    constructor
    · intro he
      simp only [List.mem_append, List.mem_cons] at he
      rcases he with he | rfl | he
      · exact .inl ⟨by simp [he], (hbefore e he).ne⟩
      · exact .inr (.inl ⟨y, by simp, hkey, rfl⟩)
      · exact .inl ⟨by simp [he], (hafter e he).ne'⟩
    · rintro (⟨he, hne⟩ | ⟨z, hz, hzkey, rfl⟩ | ⟨rfl, hnone⟩)
      · simp only [List.mem_append, List.mem_cons] at he ⊢
        rcases he with he | rfl | he
        · exact .inl he
        · exact absurd hkey hne
        · exact .inr (.inr he)
      · rw [hold z hz hzkey]
        simp
      · exact absurd hkey (hnone y (by simp))
  · have hother : ∀ a ∈ before ++ after, key a ≠ key x := by
      intro a ha
      rcases List.mem_append.mp ha with ha | ha
      · exact (hbefore a ha).ne
      · exact (hafter a ha).ne'
    rw [hplace]
    constructor
    · intro he
      simp only [List.mem_append, List.mem_cons] at he
      rcases he with he | rfl | he
      · exact .inl ⟨by simp [he], (hbefore e he).ne⟩
      · exact .inr (.inr ⟨rfl, hother⟩)
      · exact .inl ⟨by simp [he], (hafter e he).ne'⟩
    · rintro (⟨he, -⟩ | ⟨z, hz, hzkey, -⟩ | ⟨rfl, -⟩)
      · simp only [List.mem_append, List.mem_cons] at he ⊢
        rcases he with he | he
        · exact .inl he
        · exact .inr (.inr he)
      · exact absurd hzkey (hother z hz)
      · simp

/-- Elements with new keys only extend the timeline. -/
theorem place_perm {l : List α} (h : Ordered key l) {x : α} (hnew : ∀ a ∈ l, key a ≠ key x) :
    (place key merge x l).Perm (x :: l) := by
  rcases place_cases merge h x with
    ⟨before, y, after, rfl, hkey, -⟩ | ⟨before, after, rfl, -, -, hplace⟩
  · exact absurd hkey (hnew y (by simp))
  · rw [hplace]
    exact List.perm_middle

/-! ## Bounded timelines -/

theorem placeBounded_merge {n : ℕ} {before after : List α} {x y : α} (hkey : key y = key x)
    (hbefore : ∀ a ∈ before, key a < key x) (hafter : ∀ a ∈ after, key x < key a) :
    placeBounded key n merge x (before ++ y :: after) = some (before ++ merge y x :: after) := by
  have hle : ∀ a ∈ y :: after, key x ≤ key a := by
    intro a ha
    rcases List.mem_cons.mp ha with rfl | ha
    · exact hkey.ge
    · exact (hafter a ha).le
  obtain ⟨hearlier, hlater⟩ := split_append hbefore hle
  simp only [placeBounded, hlater, hearlier, if_pos hkey]

/-- A new key takes its place in the order; where the list is full, the first entry goes. -/
theorem placeBounded_new (n : ℕ) (merge : α → α → α) {before after : List α} {x : α}
    (hbefore : ∀ a ∈ before, key a < key x) (hafter : ∀ a ∈ after, key x < key a) :
    placeBounded key n merge x (before ++ after) =
      if (before ++ after).length = n then
        match before with
        | [] => none
        | _ :: before => some (before ++ x :: after)
      else some (before ++ x :: after) := by
  obtain ⟨hearlier, hlater⟩ := split_append hbefore fun a ha => (hafter a ha).le
  rcases after with _ | ⟨y, after⟩
  · simp only [placeBounded, hlater, hearlier]
  · have hkey : key y ≠ key x := (hafter y List.mem_cons_self).ne'
    simp only [placeBounded, hlater, hearlier, if_neg hkey]

theorem latest_append_of_le {n : ℕ} {before after : List α} (h : n ≤ after.length) :
    latest n (before ++ after) = latest n after := by
  rw [latest, latest, List.length_append, List.drop_append,
    List.drop_eq_nil_of_le (by omega : before.length ≤ before.length + after.length - n)]
  rw [List.nil_append]
  congr 1
  omega

theorem latest_append_of_ge {n : ℕ} {before after : List α} (h : after.length ≤ n) :
    latest n (before ++ after) = latest (n - after.length) before ++ after := by
  rw [latest, latest, List.length_append, List.drop_append]
  have hdrop : before.length + after.length - n - before.length = 0 := by omega
  rw [hdrop, List.drop_zero]
  congr 2
  omega

theorem latest_of_length_le {n : ℕ} {l : List α} (h : l.length ≤ n) : latest n l = l := by
  rw [latest, Nat.sub_eq_zero_of_le h, List.drop_zero]

theorem length_latest (n : ℕ) (l : List α) : (latest n l).length = min n l.length := by
  rw [latest, List.length_drop]
  omega

theorem mem_of_mem_latest {n : ℕ} {l : List α} {a : α} (h : a ∈ latest n l) : a ∈ l :=
  List.mem_of_mem_drop h

/-- A timeline of later elements only, and full, refuses an element. -/
theorem placeBounded_refuses {n : ℕ} {after : List α} {x : α} (hn : n ≤ after.length)
    (hafter : ∀ a ∈ after, key x < key a) :
    placeBounded key n merge x (latest n after) = none := by
  have hbefore : ∀ a ∈ ([] : List α), key a < key x := by simp
  have hkept : ∀ a ∈ latest n after, key x < key a := fun a ha => hafter a (mem_of_mem_latest ha)
  have hnew := placeBounded_new n merge hbefore hkept
  rwa [List.nil_append, length_latest, min_eq_left hn, if_pos rfl] at hnew

/-- The bounded timeline is the tail of the unbounded one. -/
theorem latest_place {l : List α} (h : Ordered key l) (n : ℕ) (x : α) :
    (placeBounded key n merge x (latest n l)).getD (latest n l) = latest n (place key merge x l) := by
  rcases place_cases merge h x with
    ⟨before, y, after, rfl, hkey, hbefore, hafter, hplace⟩ | ⟨before, after, rfl, hbefore, hafter, hplace⟩
  · rw [hplace]
    by_cases hn : (y :: after).length ≤ n
    · -- the element at the key is kept
      have hn' : (merge y x :: after).length ≤ n := by simpa using hn
      rw [latest_append_of_ge hn, latest_append_of_ge hn']
      rw [placeBounded_merge hkey (fun a ha => hbefore a (mem_of_mem_latest ha)) hafter]
      rfl
    · -- it is forgotten, and so the new element is refused
      have hn' : n ≤ after.length := by
        simp only [List.length_cons] at hn
        omega
      have hcons : ∀ z : α, latest n (before ++ z :: after) = latest n after := by
        intro z
        rw [List.append_cons]
        exact latest_append_of_le hn'
      rw [hcons, hcons]
      rw [placeBounded_refuses hn' hafter]
      rfl
  · rw [hplace]
    by_cases hn : after.length ≤ n
    · rw [latest_append_of_ge hn,
        placeBounded_new n merge (fun a ha => hbefore a (mem_of_mem_latest ha)) hafter]
      by_cases hfull : (latest (n - after.length) before ++ after).length = n
      · rw [if_pos hfull]
        rw [List.length_append, length_latest] at hfull
        rcases hb : latest (n - after.length) before with _ | ⟨b, bs⟩
        · -- all kept elements are later than the new one
          have hzero : n = after.length := by
            have hlen := congrArg List.length hb
            rw [length_latest, List.length_nil] at hlen
            omega
          subst hzero
          rw [List.append_cons, latest_append_of_le le_rfl, latest_of_length_le le_rfl]
          rfl
        · have hlen := congrArg List.length hb
          rw [length_latest, List.length_cons] at hlen
          have hx : (x :: after).length ≤ n := by
            rw [List.length_cons]
            omega
          rw [latest_append_of_ge hx]
          have hbs : latest (n - (x :: after).length) before = bs := by
            rw [latest] at hb ⊢
            rw [List.length_cons, show before.length - (n - (after.length + 1)) =
              before.length - (n - after.length) + 1 by omega, ← List.drop_drop, hb]
            rfl
          rw [hbs]
          rfl
      · rw [if_neg hfull]
        rw [List.length_append, length_latest] at hfull
        have hall : (before ++ x :: after).length ≤ n := by
          rw [List.length_append, List.length_cons]
          omega
        rw [latest_of_length_le hall, latest_of_length_le (by omega)]
        rfl
    · have hn' : n ≤ after.length := by omega
      rw [latest_append_of_le hn', List.append_cons, latest_append_of_le hn']
      rw [placeBounded_refuses hn' hafter]
      rfl

/-- What is left of the timeline after a bounded placement is part of the unbounded one. -/
theorem placeBounded_sublist {n : ℕ} {l l' : List α} (h : Ordered key l) {x : α}
    (hplace : placeBounded key n merge x l = some l') : l'.Sublist (place key merge x l) := by
  rcases place_cases merge h x with
    ⟨before, y, after, rfl, hkey, hbefore, hafter, heq⟩ | ⟨before, after, rfl, hbefore, hafter, heq⟩
  · rw [placeBounded_merge hkey hbefore hafter, Option.some.injEq] at hplace
    rw [heq, hplace]
  · rw [placeBounded_new n merge hbefore hafter] at hplace
    rw [heq]
    split at hplace
    · rcases before with _ | ⟨b, before⟩
      · simp at hplace
      · rw [Option.some.injEq] at hplace
        rw [← hplace]
        exact List.sublist_cons_self b _
    · rw [Option.some.injEq] at hplace
      rw [hplace]

/-- A bounded placement changes the timeline only at the key of the new element and at its start. -/
theorem placeBounded_mem (hmerge : ∀ a b, key (merge a b) = key a) {n : ℕ} {l l' : List α}
    (h : Ordered key l) {x : α} (hplace : placeBounded key n merge x l = some l') :
    (∀ a ∈ l', a ∈ l ∨ key a = key x) ∧
      ∀ a ∈ l, key a ≠ key x → a ∈ l' ∨ ∀ b ∈ l, key a ≤ key b := by
  rcases place_cases merge h x with
    ⟨before, y, after, rfl, hkey, hbefore, hafter, -⟩ | ⟨before, after, rfl, hbefore, hafter, -⟩
  · rw [placeBounded_merge hkey hbefore hafter, Option.some.injEq] at hplace
    subst hplace
    refine ⟨fun a ha => ?_, fun a ha hne => .inl ?_⟩
    · simp only [List.mem_append, List.mem_cons] at ha ⊢
      rcases ha with ha | rfl | ha
      · exact .inl (.inl ha)
      · exact .inr ((hmerge y x).trans hkey)
      · exact .inl (.inr (.inr ha))
    · simp only [List.mem_append, List.mem_cons] at ha ⊢
      rcases ha with ha | rfl | ha
      · exact .inl ha
      · exact absurd hkey hne
      · exact .inr (.inr ha)
  · rw [placeBounded_new n merge hbefore hafter] at hplace
    split at hplace
    · rcases before with _ | ⟨b, before⟩
      · simp at hplace
      · rw [Option.some.injEq] at hplace
        subst hplace
        refine ⟨fun a ha => ?_, fun a ha hne => ?_⟩
        · simp only [List.cons_append, List.mem_append, List.mem_cons] at ha ⊢
          rcases ha with ha | rfl | ha
          · exact .inl (.inr (.inl ha))
          · exact .inr rfl
          · exact .inl (.inr (.inr ha))
        · rw [List.cons_append] at ha h
          rcases List.mem_cons.mp ha with rfl | ha
          · -- the earliest element is displaced
            refine .inr fun c hc => ?_
            rcases List.mem_cons.mp hc with rfl | hc
            · exact le_rfl
            · exact ((List.pairwise_cons.mp h).1 c hc).le
          · simp only [List.mem_append, List.mem_cons] at ha ⊢
            rcases ha with ha | ha
            · exact .inl (.inl ha)
            · exact .inl (.inr (.inr ha))
    · rw [Option.some.injEq] at hplace
      subst hplace
      refine ⟨fun a ha => ?_, fun a ha hne => .inl ?_⟩
      · simp only [List.mem_append, List.mem_cons] at ha ⊢
        rcases ha with ha | rfl | ha
        · exact .inl (.inl ha)
        · exact .inr rfl
        · exact .inl (.inr ha)
      · simp only [List.mem_append, List.mem_cons] at ha ⊢
        rcases ha with ha | ha
        · exact .inl ha
        · exact .inr (.inr ha)

end Place

/-! ## Members -/

/-- An element is kept if fewer than `n` elements are later. -/
theorem mem_latest {l : List α} (h : Ordered key l) {n : ℕ} {a : α} :
    a ∈ latest n l ↔ a ∈ l ∧ (l.countP fun b => key a < key b) < n := by
  by_cases ha : a ∈ l
  · obtain ⟨before, after, rfl⟩ := List.append_of_mem ha
    obtain ⟨-, hcons, hbefore⟩ := List.pairwise_append.mp h
    obtain ⟨hafter, -⟩ := List.pairwise_cons.mp hcons
    have hcount : ((before ++ a :: after).countP fun b => key a < key b) = after.length := by
      have hnone : (before.countP fun b => decide (key a < key b)) = 0 := by
        rw [List.countP_eq_zero]
        intro b hb
        simpa using (hbefore b hb a List.mem_cons_self).le
      have hall : (after.countP fun b => decide (key a < key b)) = after.length := by
        rw [List.countP_eq_length]
        intro b hb
        simpa using hafter b hb
      rw [List.countP_append, List.countP_cons, hnone, hall]
      simp
    rw [hcount]
    constructor
    · intro hmem
      refine ⟨ha, ?_⟩
      by_contra hn
      rw [List.append_cons, latest_append_of_le (not_lt.mp hn)] at hmem
      exact lt_irrefl _ (hafter a (mem_of_mem_latest hmem))
    · rintro ⟨-, hn⟩
      have hlen : (a :: after).length ≤ n := hn
      rw [latest_append_of_ge hlen]
      simp
  · constructor
    · intro hmem
      exact absurd (mem_of_mem_latest hmem) ha
    · rintro ⟨hmem, -⟩
      exact absurd hmem ha

/-- The last element up to a key. -/
theorem getLast?_upTo {l : List α} (h : Ordered key l) {k : κ} {a : α} :
    (l.takeWhile fun b => key b ≤ k).getLast? = some a ↔
      a ∈ l ∧ key a ≤ k ∧ ∀ b ∈ l, key b ≤ k → key b ≤ key a := by
  induction l generalizing a with
  | nil => simp
  | cons c l ih =>
    obtain ⟨hc, hl⟩ := List.pairwise_cons.mp h
    by_cases hck : key c ≤ k
    · simp only [List.takeWhile_cons, hck, decide_true, if_true, List.getLast?_cons,
        Option.some.injEq]
      rcases hlast : (l.takeWhile fun b => decide (key b ≤ k)).getLast? with _ | d
      · -- nothing after the first element
        have hempty : ∀ b ∈ l, ¬key b ≤ k := by
          intro b hb hbk
          rw [List.getLast?_eq_none_iff] at hlast
          rcases l with _ | ⟨d, l⟩
          · simp at hb
          · have hd : ¬key d ≤ k := by
              intro hd
              simp [hd] at hlast
            rcases List.mem_cons.mp hb with rfl | hb
            · exact hd hbk
            · exact hd (((List.pairwise_cons.mp hl).1 b hb).le.trans hbk)
        simp only [Option.getD_none]
        constructor
        · rintro rfl
          refine ⟨List.mem_cons_self, hck, fun b hb hbk => ?_⟩
          rcases List.mem_cons.mp hb with rfl | hb
          · exact le_rfl
          · exact absurd hbk (hempty b hb)
        · rintro ⟨ha, hak, -⟩
          rcases List.mem_cons.mp ha with rfl | ha
          · rfl
          · exact absurd hak (hempty a ha)
      · simp only [Option.getD_some]
        obtain ⟨hd, hdk, hdmax⟩ := (ih hl).mp hlast
        constructor
        · rintro rfl
          refine ⟨List.mem_cons_of_mem _ hd, hdk, fun b hb hbk => ?_⟩
          rcases List.mem_cons.mp hb with rfl | hb
          · exact (hc d hd).le
          · exact hdmax b hb hbk
        · rintro ⟨ha, hak, hamax⟩
          rcases List.mem_cons.mp ha with rfl | ha
          · exact absurd (hamax d (List.mem_cons_of_mem _ hd) hdk) (not_le.mpr (hc d hd))
          · refine Ordered.eq_of_key hl hd ha (le_antisymm (hamax d (List.mem_cons_of_mem _ hd) hdk) ?_)
            exact hdmax a ha hak
    · simp only [List.takeWhile_cons, hck, decide_false, Bool.false_eq_true, if_false,
        List.getLast?_nil, reduceCtorEq, false_iff, not_and]
      intro ha hak
      rcases List.mem_cons.mp ha with rfl | ha
      · exact absurd hak hck
      · exact absurd ((hc a ha).le.trans hak) hck

end Vita.Timeline
