import Vita.Common.Ownership
import Vita.Memory.Leases

/-!
# One owner at a time

The blocks, the quotas and the calls in progress each keep an invariant of their own:
- `BlocksKept`: the count of a block is the number of its leases, or it is being returned; and its
  `on_return` was called for every grant but the current one;
- `QuotasKept`: a quota counts the retained values that hold it;
- `Safe`: what the calls in progress still have to do finds the leases and the quotas it overwrites
  given up.

Main result: `blocks_owned_once`.
-/

namespace Vita.Transport.ExternalPool

open Checked

/-! ## The choice of a block -/

/-- The best of the blocks so far. -/
def IsSmallest (request : BufferRequest) (blocks : List Block) : Option (ℕ × Block) → Prop
  | none => ∀ c ∈ blocks, ¬c.fits request
  | some (i, b) => blocks[i]? = some b ∧ b.fits request ∧
      ∀ c ∈ blocks, c.fits request → b.capacity ≤ c.capacity

/-- The block that is selected is a smallest one that fits. -/
theorem select_isSmallest (request : BufferRequest) (blocks : List Block) :
    IsSmallest request blocks (select request blocks) := by
  induction blocks using List.reverseRecOn with
  | nil => simp [IsSmallest, select]
  | append_singleton blocks x ih =>
    unfold select at ih ⊢
    rw [List.zipIdx_append, List.foldl_append]
    generalize List.foldl _ none blocks.zipIdx = best at ih ⊢
    simp only [List.zipIdx_cons, List.zipIdx_nil, List.foldl_cons, List.foldl_nil, Nat.zero_add]
    by_cases hbetter : x.fits request ∧ ∀ b ∈ best, x.capacity < b.2.capacity
    · rw [if_pos hbetter]
      refine ⟨by simp, hbetter.1, fun c hc hfits => ?_⟩
      rcases List.mem_append.mp hc with hc | hc
      · rcases best with _ | ⟨i, b⟩
        · exact absurd hfits (ih c hc)
        · exact (hbetter.2 _ rfl).le.trans (ih.2.2 c hc hfits)
      · rw [List.mem_singleton.mp hc]
    · rw [if_neg hbetter]
      rcases best with _ | ⟨i, b⟩
      · intro c hc hfits
        rcases List.mem_append.mp hc with hc | hc
        · exact ih c hc hfits
        · exact hbetter ⟨List.mem_singleton.mp hc ▸ hfits, by simp⟩
      · obtain ⟨hget, hfits, hmin⟩ := ih
        refine ⟨by rw [List.getElem?_append_left (List.getElem?_eq_some_iff.mp hget).1, hget], hfits,
          fun c hc hcfits => ?_⟩
        rcases List.mem_append.mp hc with hc | hc
        · exact hmin c hc hcfits
        · obtain rfl := List.mem_singleton.mp hc
          by_contra hlt
          exact hbetter ⟨hcfits, by simpa using not_le.mp hlt⟩

/-- What is acquired is a smallest block that fits. -/
theorem acquire_eq_ok {p p' : ExternalPool} {request : BufferRequest} {i : ℕ}
    (h : p.acquire request = .ok (i, p')) : ∃ b, IsSmallest request p.blocks (some (i, b)) ∧
      p' = { p with blocks := p.blocks.set i { b with references := 1 } } := by
  simp only [acquire, bind_eq_ok] at h
  obtain ⟨_, -, h⟩ := h
  have hbest := select_isSmallest request p.blocks
  generalize select request p.blocks = best at h hbest
  rcases best with _ | ⟨j, b⟩
  · cases h
  · cases h
    exact ⟨b, hbest, rfl⟩

/-- A request is refused where no block fits. -/
theorem acquire_exhausted {p : ExternalPool} {request : BufferRequest}
    (h : p.acquire request = .error (failure .capacityExhausted)) :
    ∀ c ∈ p.blocks, ¬c.fits request := by
  simp only [acquire, bind_eq_error, rejectIf_eq_error] at h
  obtain ⟨-, herr⟩ | ⟨_, -, h⟩ := h
  · cases herr
  have hbest := select_isSmallest request p.blocks
  generalize select request p.blocks = best at h hbest
  rcases best with _ | ⟨j, b⟩
  · exact hbest
  · cases h

end Vita.Transport.ExternalPool

namespace Vita.Memory

open Checked Ownership
open Transport (ExternalPool Block BufferRequest)

/-! ## The blocks -/

section Blocks

/-- The counts are right and the block is marked while its `on_return` runs. -/
structure BlocksKept (owner : Place → Option BlockId) (references : BlockId → ℕ)
    (returning : List BlockId) (hooked : BlockId → Bool) (log : List Event) : Prop where
  counted : Counted owner references (· ∈ returning)
  marked : ∀ b ∈ returning, references b = sizeMax
  distinct : returning.Nodup
  logged : ∀ b, hooked b → log.count (.granted b) =
    log.count (.called b) + if references b = 0 ∨ b ∈ returning then 0 else 1

variable {owner : Place → Option BlockId} {references : BlockId → ℕ} {returning : List BlockId}
variable {hooked : BlockId → Bool} {log : List Event} {p q : Place} {b : BlockId}

namespace BlocksKept

theorem not_mem_of_ne (h : BlocksKept owner references returning hooked log)
    (hb : references b ≠ sizeMax) : b ∉ returning :=
  fun hmem => hb (h.marked b hmem)

/-- A free block is granted. -/
theorem grant (h : BlocksKept owner references returning hooked log) (hp : owner p = none)
    (hb : references b = 0) : BlocksKept (Function.update owner p (some b))
      (Function.update references b 1) returning hooked (log ++ [.granted b]) := by
  have hnot : b ∉ returning := h.not_mem_of_ne (by rw [hb]; decide)
  have hadd := h.counted.add hp hnot
  rw [hb, Nat.zero_add] at hadd
  refine ⟨hadd, fun c hc => ?_, h.distinct, fun c hc => ?_⟩
  · have hcb : c ≠ b := fun hcb => hnot (hcb ▸ hc)
    rw [Function.update_of_ne hcb, h.marked c hc]
  · have hlog := h.logged c hc
    by_cases hcb : c = b
    · subst hcb
      simp only [hb, true_or, if_true] at hlog
      simp [List.count_append, hlog, hnot]
    · rw [Function.update_of_ne hcb, List.count_append, List.count_append, hlog]
      simp [Ne.symm hcb]

/-- A lease is shared. -/
theorem share (h : BlocksKept owner references returning hooked log) (hp : owner p = none)
    (hq : owner q = some b) : BlocksKept (Function.update owner p (some b))
      (Function.update references b (references b + 1)) returning hooked log := by
  have hnot : b ∉ returning := h.counted.not_returning hq
  refine ⟨h.counted.add hp hnot, fun c hc => ?_, h.distinct, fun c hc => ?_⟩
  · have hcb : c ≠ b := fun hcb => hnot (hcb ▸ hc)
    rw [Function.update_of_ne hcb, h.marked c hc]
  · rw [h.logged c hc]
    by_cases hcb : c = b
    · subst hcb
      have hpos := h.counted.pos hq
      simp [hpos.ne']
    · rw [Function.update_of_ne hcb]

/-- A lease that is not the last one is reset. -/
theorem drop (h : BlocksKept owner references returning hooked log) (hp : owner p = some b)
    (hmore : references b - 1 ≠ 0) : BlocksKept (Function.update owner p none)
      (Function.update references b (references b - 1)) returning hooked log := by
  have hnot : b ∉ returning := h.counted.not_returning hp
  refine ⟨h.counted.drop hp, fun c hc => ?_, h.distinct, fun c hc => ?_⟩
  · have hcb : c ≠ b := fun hcb => hnot (hcb ▸ hc)
    rw [Function.update_of_ne hcb, h.marked c hc]
  · rw [h.logged c hc]
    by_cases hcb : c = b
    · subst hcb
      have hpos := h.counted.pos hp
      simp [hpos.ne', hmore]
    · rw [Function.update_of_ne hcb]

/-- The last lease is reset, and `on_return` is called. -/
theorem last (h : BlocksKept owner references returning hooked log) (hp : owner p = some b)
    (hlast : references b - 1 = 0) : BlocksKept (Function.update owner p none)
      (Function.update references b sizeMax) (b :: returning) hooked
      (if hooked b then log ++ [.called b] else log) := by
  have hnot : b ∉ returning := h.counted.not_returning hp
  have hdrop := h.counted.drop hp
  have hempty : holders (Function.update owner p none) b = ∅ :=
    hdrop.holders_eq_empty hnot (by rw [Function.update_self, hlast])
  have hretire := hdrop.retire hempty sizeMax
  rw [Function.update_idem] at hretire
  refine ⟨by simpa only [List.mem_cons] using hretire, fun c hc => ?_,
    List.nodup_cons.mpr ⟨hnot, h.distinct⟩, fun c hc => ?_⟩
  · by_cases hcb : c = b
    · rw [hcb, Function.update_self]
    · rw [Function.update_of_ne hcb, h.marked c ((List.mem_cons.mp hc).resolve_left hcb)]
  · have hlog := h.logged c hc
    by_cases hcb : c = b
    · subst hcb
      have hpos := h.counted.pos hp
      simp only [hpos.ne', hnot, or_self, if_false] at hlog
      simp [List.count_append, hlog, hc]
    · have hmem : c ∈ b :: returning ↔ c ∈ returning := by simp [hcb]
      rw [Function.update_of_ne hcb]
      simp only [hmem]
      split
      · rw [List.count_append, List.count_append, hlog]
        simp [Ne.symm hcb]
      · exact hlog

/-- `on_return` is over. -/
theorem finish (h : BlocksKept owner references (b :: returning) hooked log) :
    BlocksKept owner (Function.update references b 0) returning hooked log := by
  obtain ⟨hnot, hdistinct⟩ := List.nodup_cons.mp h.distinct
  have hmem : ∀ c, c ≠ b ∧ c ∈ b :: returning ↔ c ∈ returning := by
    intro c
    simp only [List.mem_cons]
    constructor
    · rintro ⟨hcb, hc⟩
      exact hc.resolve_left hcb
    · intro hc
      exact ⟨fun hcb => hnot (hcb ▸ hc), .inr hc⟩
  have hcounted := h.counted.release (b := b) (List.mem_cons_self ..)
  simp only [hmem] at hcounted
  refine ⟨hcounted, fun c hc => ?_, hdistinct, fun c hc => ?_⟩
  · have hcb : c ≠ b := ((hmem c).mpr hc).1
    rw [Function.update_of_ne hcb, h.marked c (List.mem_cons_of_mem _ hc)]
  · rw [h.logged c hc]
    by_cases hcb : c = b
    · simp [hcb]
    · simp [hcb]

/-- A lease is moved. -/
theorem move (h : BlocksKept owner references returning hooked log) (hp : owner p = none) :
    BlocksKept (Function.update (Function.update owner p (owner q)) q none) references returning
      hooked log :=
  ⟨h.counted.move hp, h.marked, h.distinct, h.logged⟩

/-- A block has a lease if it is counted and not being returned. -/
theorem nonempty_holders_iff (h : BlocksKept owner references returning hooked log) :
    (holders owner b).Nonempty ↔ ¬(references b = 0 ∨ b ∈ returning) := by
  rw [not_or]
  constructor
  · rintro ⟨p, hp⟩
    exact ⟨(h.counted.pos hp).ne', h.counted.not_returning hp⟩
  · rintro ⟨hzero, hb⟩
    rw [h.counted.counted b hb] at hzero
    exact Set.nonempty_of_ncard_ne_zero hzero

end BlocksKept

end Blocks

/-! ## The quotas -/

/-- The retained values that hold a quota, be it for one reason or for two. -/
def users (retained : ℕ → RetainedRx) (q : ℕ) : Set ℕ :=
  {r | (retained r).consumer = some q ∨ (retained r).global = some q}

theorem mem_users {retained : ℕ → RetainedRx} {q r : ℕ} :
    r ∈ users retained q ↔ (retained r).consumer = some q ∨ (retained r).global = some q := Iff.rfl

/-- A quota counts its users. -/
def QuotasKept (retained : ℕ → RetainedRx) (active : ℕ → ℕ) : Prop :=
  ∀ q, (users retained q).Finite ∧ active q = (users retained q).ncard

section Quotas

variable {retained : ℕ → RetainedRx} {active active' : ℕ → ℕ} {r : ℕ} {x : RetainedRx}

theorem mem_users_update {q a : ℕ} : a ∈ users (Function.update retained r x) q ↔
    if a = r then x.consumer = some q ∨ x.global = some q else a ∈ users retained q := by
  simp only [mem_users]
  by_cases ha : a = r
  · simp [ha]
  · simp [ha]

/-- A value comes to hold quotas. -/
theorem QuotasKept.retain (h : QuotasKept retained active)
    (hnone : (retained r).consumer = none ∧ (retained r).global = none)
    (hactive : ∀ q, active' q = active q + if x.consumer = some q ∨ x.global = some q then 1 else 0) :
    QuotasKept (Function.update retained r x) active' := by
  intro q
  have hagree : ∀ a, a ≠ r → (a ∈ users (Function.update retained r x) q ↔ a ∈ users retained q) := by
    intro a ha
    rw [mem_users_update, if_neg ha]
  have hout : r ∉ users retained q := by simp [mem_users, hnone.1, hnone.2]
  rw [hactive q, (h q).2]
  by_cases huse : x.consumer = some q ∨ x.global = some q
  · rw [if_pos huse]
    have hin : r ∈ users (Function.update retained r x) q := by
      rw [mem_users_update, if_pos rfl]
      exact huse
    obtain ⟨hfin, hcard⟩ := ncard_enter (h q).1 hagree hout hin
    exact ⟨hfin, hcard.symm⟩
  · have hsame : users (Function.update retained r x) q = users retained q := by
      ext a
      by_cases ha : a = r
      · subst ha
        rw [mem_users_update, if_pos rfl]
        exact iff_of_false huse hout
      · exact hagree a ha
    rw [if_neg huse, Nat.add_zero, hsame]
    exact ⟨(h q).1, rfl⟩

/-- A value gives its quotas back. -/
theorem QuotasKept.settle (h : QuotasKept retained active)
    (hactive : ∀ q, active' q = active q -
      if (retained r).consumer = some q ∨ (retained r).global = some q then 1 else 0) :
    QuotasKept (Function.update retained r {}) active' := by
  intro q
  have hagree : ∀ a, a ≠ r →
      (a ∈ users (Function.update retained r {}) q ↔ a ∈ users retained q) := by
    intro a ha
    rw [mem_users_update, if_neg ha]
  have hout : r ∉ users (Function.update retained r {}) q := by simp [mem_users_update]
  rw [hactive q, (h q).2]
  by_cases huse : (retained r).consumer = some q ∨ (retained r).global = some q
  · obtain ⟨hfin, hcard⟩ := ncard_leave (h q).1 hagree huse hout
    rw [if_pos huse, ← hcard, Nat.add_sub_cancel]
    exact ⟨hfin, rfl⟩
  · have hsame : users (Function.update retained r {}) q = users retained q := by
      ext a
      by_cases ha : a = r
      · subst ha
        exact iff_of_false hout huse
      · exact hagree a ha
    rw [if_neg huse, Nat.sub_zero, hsame]
    exact ⟨(h q).1, rfl⟩

/-- The quotas of a value that is moved to one without quotas. -/
theorem users_hand {dst src q : ℕ} :
    users (Function.update (Function.update retained dst (retained src)) src {}) q =
      {a | a ≠ src ∧ (if a = dst then src else a) ∈ users retained q} := by
  ext a
  rw [mem_users_update, mem_users_update]
  by_cases ha : a = src
  · simp [ha]
  · by_cases hd : a = dst
    · subst hd
      simp [ha, mem_users]
    · simp [ha, hd]

/-- The quotas go with a retained value that is moved. -/
theorem QuotasKept.hand (h : QuotasKept retained active) {dst src : ℕ}
    (hnone : (retained dst).consumer = none ∧ (retained dst).global = none) :
    QuotasKept (Function.update (Function.update retained dst (retained src)) src {}) active := by
  by_cases hne : dst = src
  · subst hne
    rw [Function.update_idem]
    refine h.settle fun q => ?_
    simp [hnone.1, hnone.2]
  · -- given back by the one value and taken again by the other
    have hsettle := h.settle (r := src) fun q => rfl
    have hfree : (Function.update retained src {} dst).consumer = none ∧
        (Function.update retained src {} dst).global = none := by
      rw [Function.update_of_ne hne]
      exact hnone
    rw [← Function.update_comm (Ne.symm hne)]
    refine hsettle.retain hfree fun q => ?_
    · by_cases huse : (retained src).consumer = some q ∨ (retained src).global = some q
      · have hpos : 0 < active q := by
          rw [(h q).2, Set.ncard_pos (h q).1]
          exact ⟨src, huse⟩
        rw [if_pos huse]
        omega
      · rw [if_neg huse]
        omega

end Quotas

/-! ## The calls in progress -/

/-- The places a task leaves empty, given those that are empty before. -/
def Task.vacates : Task → Set Place → Set Place
  | .reset p, E => insert p E
  | .take dst src, E => insert src (E \ {dst})
  | _, E => E

/-- The values a task leaves without quotas. -/
def Task.settles : Task → Set ℕ → Set ℕ
  | .settle r, F => insert r F
  | .hand dst src, F => insert src (F \ {dst})
  | _, F => F

/-- What a task overwrites is given up. -/
def Task.ready : Task → Set Place → Set ℕ → Prop
  | .take dst _, E, _ => dst ∈ E
  | .hand dst _, _, F => dst ∈ F
  | _, _, _ => True

/-- Each task finds what it overwrites given up. -/
def Safe : List Task → Set Place → Set ℕ → Prop
  | [], _, _ => True
  | t :: rest, E, F => t.ready E F ∧ Safe rest (t.vacates E) (t.settles F)

section Safety

variable {E E' : Set Place} {F F' : Set ℕ} {ts us : List Task}

/-- Only what the tasks touch matters. -/
theorem Safe.mono (hE : ∀ p ∈ E, (∃ t ∈ ts, p.holder ∈ t.touches) → p ∈ E')
    (hF : ∀ r ∈ F, (∃ t ∈ ts, .retained r ∈ t.touches) → r ∈ F') (h : Safe ts E F) :
    Safe ts E' F' := by
  induction ts generalizing E E' F F' with
  | nil => trivial
  | cons t rest ih =>
    obtain ⟨hready, hrest⟩ := h
    refine ⟨?_, ih (fun p hp ht => ?_) (fun r hr ht => ?_) hrest⟩
    · cases t with
      | take dst src => exact hE dst hready ⟨_, List.mem_cons_self .., by simp [Task.touches]⟩
      | hand dst src => exact hF dst hready ⟨_, List.mem_cons_self .., by simp [Task.touches]⟩
      | _ => trivial
    · have hkeep : p ∈ E → p ∈ E' := fun hp =>
        hE p hp (ht.imp fun _ h => ⟨List.mem_cons_of_mem _ h.1, h.2⟩)
      cases t with
      | reset q => exact hp.imp_right hkeep
      | take dst src => exact hp.imp_right fun hp => ⟨hkeep hp.1, hp.2⟩
      | _ => exact hkeep hp
    · have hkeep : r ∈ F → r ∈ F' := fun hr =>
        hF r hr (ht.imp fun _ h => ⟨List.mem_cons_of_mem _ h.1, h.2⟩)
      cases t with
      | settle q => exact hr.imp_right hkeep
      | hand dst src => exact hr.imp_right fun hr => ⟨hkeep hr.1, hr.2⟩
      | _ => exact hkeep hr

theorem Safe.subset (h : Safe ts E F) (hE : E ⊆ E') (hF : F ⊆ F') : Safe ts E' F' :=
  h.mono (fun _ hp _ => hE hp) fun _ hr _ => hF hr

/-- A call that begins touches other objects than the calls in progress. -/
theorem Safe.append (hts : Safe ts E F) (hus : Safe us E F)
    (hother : ∀ t ∈ ts, ∀ h ∈ t.touches, ∀ u ∈ us, h ∉ u.touches) : Safe (ts ++ us) E F := by
  induction ts generalizing E F with
  | nil => exact hus
  | cons t rest ih =>
    obtain ⟨hready, hrest⟩ := hts
    have hother' := hother t (List.mem_cons_self ..)
    refine ⟨hready, ih hrest (Safe.mono (fun p hp hu => ?_) (fun r hr hu => ?_) hus)
      fun t ht => hother t (List.mem_cons_of_mem _ ht)⟩
    · obtain ⟨u, hu, hp'⟩ := hu
      cases t with
      | reset q => exact .inr hp
      | take dst src =>
        refine .inr ⟨hp, fun hd => ?_⟩
        rw [hd] at hp'
        exact hother' dst.holder (by simp [Task.touches]) u hu hp'
      | _ => exact hp
    · obtain ⟨u, hu, hr'⟩ := hu
      cases t with
      | settle q => exact .inr hr
      | hand dst src =>
        refine .inr ⟨hr, fun hd => ?_⟩
        rw [hd] at hr'
        exact hother' (.retained dst) (by simp [Task.touches]) u hu hr'
      | _ => exact hr

/-- Resets and assignments of leases are safe before whatever is safe with the same quotas. -/
theorem safe_assignAll {dst src : Holder} (us : List Task) (l : List ℕ) (h : ∀ E, Safe us E F) :
    ∀ E, Safe ((l.flatMap fun i => World.assign ⟨dst, i⟩ ⟨src, i⟩) ++ us) E F := by
  induction l with
  | nil => exact h
  | cons i rest ih =>
    intro E
    exact ⟨trivial, Set.mem_insert _ _, ih _⟩

theorem safe_resets (us : List Task) (l : List Place) (h : ∀ E, Safe us E F) :
    ∀ E, Safe (l.map Task.reset ++ us) E F := by
  induction l with
  | nil => exact h
  | cons p rest ih =>
    intro E
    exact ⟨trivial, ih _⟩

end Safety

namespace World

/-! ## The worlds -/

/-- The block of a lease object. -/
def owner (w : World) (p : Place) : Option BlockId := (w.leases p).map Lease.block

/-- The lease objects of a block. -/
def holders (w : World) (b : BlockId) : Set Place := Ownership.holders w.owner b

end World

/-- The block that is returned with a task. -/
def Task.returns : Task → Option BlockId
  | .finish b => some b
  | _ => none

namespace World

/-- The blocks whose `on_return` runs. -/
def returning (w : World) : List BlockId := w.tasks.filterMap Task.returns

/-- What is in use of a quota. -/
def active (w : World) (q : ℕ) : ℕ := (w.quotas q).active

/-- The places without a lease. -/
def vacant (w : World) : Set Place := {p | w.leases p = none}

/-- The retained values without quotas. -/
def settled (w : World) : Set ℕ := {r | (w.retained r).consumer = none ∧ (w.retained r).global = none}

structure Inv (w : World) : Prop where
  blocks : BlocksKept w.owner w.references w.returning w.onReturn w.log
  quotas : QuotasKept w.retained w.active
  safe : Safe w.tasks w.vacant w.settled

variable {w : World}

theorem owner_setLease (p : Place) (l : Option Lease) :
    (w.setLease p l).owner = Function.update w.owner p (l.map Lease.block) := by
  funext x
  by_cases hx : x = p
  · simp [owner, setLease, hx]
  · simp [owner, setLease, hx]

/-- The references of one block change. -/
theorem block_setReferences (b : BlockId) (f : ℕ → ℕ) (c : BlockId) :
    (w.setReferences b f).block c =
      if c = b then (w.block b).map fun x => { x with references := f x.references }
      else w.block c := by
  obtain ⟨pool, index⟩ := b
  obtain ⟨pool', index'⟩ := c
  by_cases hpool : pool' = pool
  · subst hpool
    by_cases hindex : index' = index
    · subst hindex
      simp [block, setReferences]
    · simp [block, setReferences, hindex, Ne.symm hindex]
  · simp [block, setReferences, hpool]

/-- The count of a block in use changes. -/
theorem references_setReferences {b : BlockId} (hb : w.references b ≠ 0) (f : ℕ → ℕ) :
    (w.setReferences b f).references =
      Function.update w.references b (f (w.references b)) := by
  have hsome : ∃ x, w.block b = some x := by
    rcases h : w.block b with _ | x
    · simp [references, h] at hb
    · exact ⟨x, rfl⟩
  obtain ⟨x, hx⟩ := hsome
  funext c
  simp only [references, block_setReferences]
  by_cases hc : c = b
  · simp [hc, hx]
  · simp [hc, references]

/-- The blocks of a world, from what the ledger says. -/
theorem blocksKept_of_eq {owner : Place → Option BlockId} {references : BlockId → ℕ}
    {returning : List BlockId} {hooked : BlockId → Bool} {log : List Event}
    (h : BlocksKept owner references returning hooked log) (howner : w.owner = owner)
    (hreferences : w.references = references) (hreturning : w.returning = returning)
    (hhooked : w.onReturn = hooked) (hlog : w.log = log) :
    BlocksKept w.owner w.references w.returning w.onReturn w.log := by
  subst howner hreferences hreturning hhooked hlog
  exact h

/-! ## What a task does -/

theorem vacant_setLease_none (p : Place) : insert p w.vacant ⊆ (w.setLease p none).vacant := by
  rintro x (rfl | hx)
  · simp [vacant, setLease]
  · by_cases hxp : x = p
    · simp [vacant, setLease, hxp]
    · simpa [vacant, setLease, hxp] using hx

/-- The last lease of a block that is reset starts its return. -/
theorem reset_inv {p : Place}
    (hblocks : BlocksKept w.owner w.references w.returning w.onReturn w.log)
    (hquotas : QuotasKept w.retained w.active)
    (hsafe : Safe w.tasks (insert p w.vacant) w.settled) : (w.reset p).Inv := by
  rcases hl : w.leases p with _ | l
  · have hp : p ∈ w.vacant := hl
    rw [Set.insert_eq_of_mem hp] at hsafe
    simp only [reset, hl]
    exact ⟨hblocks, hquotas, hsafe⟩
  · have howner : w.owner p = some l.block := by simp [owner, hl]
    have hne : (w.setLease p none).references l.block ≠ 0 := (hblocks.counted.pos howner).ne'
    have hsafe' : Safe w.tasks (w.setLease p none).vacant w.settled :=
      hsafe.subset (vacant_setLease_none p) subset_rfl
    simp only [reset, hl]
    by_cases hlast : w.references l.block - 1 = 0
    · rw [if_pos (by exact hlast)]
      refine ⟨blocksKept_of_eq (hblocks.last howner hlast) (owner_setLease p none) ?_ rfl rfl rfl,
        hquotas, trivial, hsafe'⟩
      exact references_setReferences hne fun _ => sizeMax
    · rw [if_neg (by exact hlast)]
      refine ⟨blocksKept_of_eq (hblocks.drop howner hlast) (owner_setLease p none) ?_ rfl rfl rfl,
        hquotas, hsafe'⟩
      exact references_setReferences hne fun _ => w.references l.block - 1

theorem finish_inv {b : BlockId}
    (hblocks : BlocksKept w.owner w.references (b :: w.returning) w.onReturn w.log)
    (hquotas : QuotasKept w.retained w.active) (hsafe : Safe w.tasks w.vacant w.settled) :
    (w.finish b).Inv := by
  have hne : w.references b ≠ 0 := by
    rw [hblocks.marked b (List.mem_cons_self ..)]
    decide
  refine ⟨blocksKept_of_eq hblocks.finish rfl ?_ rfl rfl rfl, hquotas, hsafe⟩
  exact references_setReferences hne fun _ => 0

/-- A lease is taken into an empty place. -/
theorem take_inv {dst src : Place}
    (hblocks : BlocksKept w.owner w.references w.returning w.onReturn w.log)
    (hquotas : QuotasKept w.retained w.active) (hdst : dst ∈ w.vacant)
    (hsafe : Safe w.tasks (insert src (w.vacant \ {dst})) w.settled) : (w.take dst src).Inv := by
  have hdst' : w.leases dst = none := hdst
  have hnone : w.owner dst = none := by simp [owner, hdst']
  refine ⟨blocksKept_of_eq (hblocks.move (q := src) hnone) ?_ rfl rfl rfl rfl, hquotas,
    hsafe.subset (fun x hx => ?_) subset_rfl⟩
  · rw [take, owner_setLease, owner_setLease]
    rfl
  · refine vacant_setLease_none src ?_
    rcases hx with rfl | ⟨hx, hne⟩
    · exact Set.mem_insert _ _
    · refine .inr ?_
      have hxd : x ≠ dst := hne
      simpa [vacant, setLease, hxd] using hx

theorem active_setQuota (q : ℕ) (f : ℕ → ℕ) :
    (w.setQuota q f).active = Function.update w.active q (f (w.active q)) := by
  funext x
  by_cases hx : x = q
  · simp [active, setQuota, hx]
  · simp [active, setQuota, hx]

/-- Both quotas are given back, or the one that is both. -/
theorem releaseQuotas_eq (x : RetainedRx) : ∃ quotas, w.releaseQuotas x = { w with quotas } ∧
    ∀ q, (quotas q).active =
      w.active q - if x.consumer = some q ∨ x.global = some q then 1 else 0 := by
  rcases hc : x.consumer with _ | c
  · rcases hg : x.global with _ | g
    · refine ⟨w.quotas, by simp [releaseQuotas, hc, hg], fun q => ?_⟩
      simp [active]
    · refine ⟨(w.setQuota g (· - 1)).quotas, by simp [releaseQuotas, hc, hg, setQuota], fun q => ?_⟩
      rw [← active, active_setQuota]
      by_cases hq : q = g
      · simp [hq]
      · simp [hq, Ne.symm hq]
  · by_cases hg : x.global = none ∨ x.global = some c
    · refine ⟨(w.setQuota c (· - 1)).quotas, ?_, fun q => ?_⟩
      · rcases hg with hg | hg
        · simp [releaseQuotas, hc, hg, setQuota]
        · simp [releaseQuotas, hc, hg, setQuota]
      · rw [← active, active_setQuota]
        by_cases hq : q = c
        · simp [hq]
        · rcases hg with hg | hg
          · simp [hq, hg, Ne.symm hq]
          · simp [hq, hg, Ne.symm hq]
    · rw [not_or] at hg
      obtain ⟨g, hg'⟩ := Option.ne_none_iff_exists'.mp hg.1
      have hne : g ≠ c := fun hgc => hg.2 (hg'.trans (congrArg some hgc))
      refine ⟨((w.setQuota c (· - 1)).setQuota g (· - 1)).quotas, ?_, fun q => ?_⟩
      · simp [releaseQuotas, hc, hg', setQuota, hne.symm]
      · rw [← active, active_setQuota, active_setQuota]
        by_cases hq : q = g
        · simp [hq, hg', hne]
        · by_cases hqc : q = c
          · simp [hqc, hne.symm]
          · simp [hq, hqc, hg', Ne.symm hq, Ne.symm hqc]

/-- Once a reference is settled, the pool is in order. -/
theorem settle_inv {r : ℕ}
    (hblocks : BlocksKept w.owner w.references w.returning w.onReturn w.log)
    (hquotas : QuotasKept w.retained w.active)
    (hsafe : Safe w.tasks w.vacant (insert r w.settled)) : (w.settle r).Inv := by
  obtain ⟨quotas, heq, hactive⟩ := releaseQuotas_eq (w := w) (w.retained r)
  rw [settle, heq]
  refine ⟨hblocks, hquotas.settle hactive, hsafe.subset subset_rfl ?_⟩
  rintro x (rfl | hx)
  · simp [settled]
  · by_cases hxr : x = r
    · simp [settled, hxr]
    · simpa [settled, hxr] using hx

/-- A lease that is moved leaves the pool in order. -/
theorem hand_inv {dst src : ℕ}
    (hblocks : BlocksKept w.owner w.references w.returning w.onReturn w.log)
    (hquotas : QuotasKept w.retained w.active) (hdst : dst ∈ w.settled)
    (hsafe : Safe w.tasks w.vacant (insert src (w.settled \ {dst}))) : (w.hand dst src).Inv := by
  refine ⟨hblocks, hquotas.hand hdst, hsafe.subset subset_rfl ?_⟩
  rintro x (rfl | ⟨hx, hne⟩)
  · simp [settled, hand]
  · have hxd : x ≠ dst := hne
    by_cases hxs : x = src
    · simp [settled, hand, hxs]
    · simpa [settled, hand, hxs, hxd] using hx

/-- A task keeps the invariant. -/
theorem advance_inv (h : w.Inv) : w.advance.Inv := by
  obtain ⟨hblocks, hquotas, hsafe⟩ := h
  obtain ⟨pools, quotas, onReturn, leases, envelopes, retained, returns, tasks, log⟩ := w
  cases tasks with
  | nil => exact ⟨hblocks, hquotas, hsafe⟩
  | cons t rest =>
    obtain ⟨hready, hsafe⟩ := hsafe
    cases t with
    | reset p => exact reset_inv hblocks hquotas hsafe
    | finish b => exact finish_inv hblocks hquotas hsafe
    | take dst src => exact take_inv hblocks hquotas hready hsafe
    | settle r => exact settle_inv hblocks hquotas hsafe
    | hand dst src => exact hand_inv hblocks hquotas hready hsafe
    | handEnvelope dst src => exact ⟨hblocks, hquotas, hsafe⟩
    | discard e => exact ⟨hblocks, hquotas, hsafe⟩

/-! ## What a call does -/

/-- A call that only has tasks to do begins. -/
theorem push_inv (h : w.Inv) {envelopes : ℕ → RxEnvelope} (new : List Task)
    (hsafe : ∀ E F, Safe new E F)
    (hreturns : new.filterMap Task.returns = [])
    (hother : ∀ t ∈ new, ∀ x ∈ t.touches, ∀ u ∈ w.tasks, x ∉ u.touches) :
    ({ w with envelopes, tasks := new ++ w.tasks } : World).Inv := by
  refine ⟨blocksKept_of_eq h.blocks rfl rfl ?_ rfl rfl, h.quotas,
    (hsafe _ _).append h.safe hother⟩
  rw [returning, List.filterMap_append, hreturns, List.nil_append]
  rfl

theorem safe_assign (dst src : Place) (E : Set Place) (F : Set ℕ) : Safe (assign dst src) E F :=
  ⟨trivial, Set.mem_insert _ _, trivial⟩

theorem safe_resetTasks {r : ℕ} (us : List Task) {F : Set ℕ}
    (h : ∀ E, Safe us E (insert r F)) (E : Set Place) : Safe (resetTasks r ++ us) E F := by
  have hresets := safe_resets (.settle r :: us) ((List.range 16).map fun i => ⟨.retained r, i⟩)
    (F := F) fun E => ⟨trivial, h E⟩
  simpa [resetTasks, Function.comp_def] using hresets E

theorem returns_assignAll (dst src : Holder) (l : List ℕ) :
    (l.flatMap fun i => assign ⟨dst, i⟩ ⟨src, i⟩).filterMap Task.returns = [] := by
  induction l with
  | nil => rfl
  | cons i rest ih =>
    rw [List.flatMap_cons, List.filterMap_append, ih]
    rfl

theorem returns_resets (l : List Place) : (l.map Task.reset).filterMap Task.returns = [] := by
  induction l with
  | nil => rfl
  | cons p rest ih => exact ih

theorem returns_resetTasks (r : ℕ) : (resetTasks r).filterMap Task.returns = [] := by
  have hresets := returns_resets ((List.range 16).map fun i => ⟨.retained r, i⟩)
  rw [List.map_map] at hresets
  rw [resetTasks, List.filterMap_append]
  exact congrArg (· ++ []) hresets

/-- A block is granted. -/
theorem acquire_inv (h : w.Inv) {pool i : ℕ} {request : BufferRequest}
    (hother : ∀ u ∈ w.tasks, .variable i ∉ u.touches) (hnew : w.leases ⟨.variable i, 0⟩ = none) :
    (w.acquire pool request i).2.Inv := by
  rcases hacquire : (w.pools pool).acquire request with e | ⟨index, p⟩
  · simpa only [acquire, hacquire] using h
  · obtain ⟨x, ⟨hget, hfits, -⟩, rfl⟩ := ExternalPool.acquire_eq_ok hacquire
    have hnone : w.owner ⟨.variable i, 0⟩ = none := by simp [owner, hnew]
    have hfree : w.references ⟨pool, index⟩ = 0 := by
      have hzero : x.references = 0 := by
        simp only [Block.fits, decide_eq_true_eq] at hfits
        exact hfits.1
      simp [references, block, hget, hzero]
    simp only [acquire, hacquire]
    refine ⟨blocksKept_of_eq (h.blocks.grant hnone hfree) (owner_setLease _ _) ?_ rfl rfl rfl,
      h.quotas, h.safe.mono (fun q hq ht => ?_) fun r hr _ => hr⟩
    · funext c
      obtain ⟨pool', index'⟩ := c
      by_cases hpool : pool' = pool
      · subst hpool
        by_cases hindex : index' = index
        · subst hindex
          have hlt := (List.getElem?_eq_some_iff.mp hget).1
          simp [references, block, hlt]
        · simp [references, block, hindex, Ne.symm hindex]
      · simp [references, block, hpool]
    · obtain ⟨u, hu, hq'⟩ := ht
      have hne : q ≠ ⟨.variable i, 0⟩ := by
        rintro rfl
        exact hother u hu hq'
      simpa [vacant, setLease, hne] using hq

/-- The size of a lease does not matter. -/
theorem setSize_inv (h : w.Inv) (i size : ℕ) : (w.setSize i size).2.Inv := by
  rcases hl : w.leases ⟨.variable i, 0⟩ with _ | l
  · simpa only [setSize, hl] using h
  · simp only [setSize, hl]
    split_ifs
    · exact h
    · refine ⟨blocksKept_of_eq h.blocks ?_ rfl rfl rfl rfl, h.quotas,
        h.safe.subset (fun q hq => ?_) subset_rfl⟩
      · have hsame : some l.block = w.owner ⟨.variable i, 0⟩ := by simp [owner, hl]
        rw [owner_setLease, Option.map_some, hsame, Function.update_eq_self]
      · have hne : q ≠ ⟨.variable i, 0⟩ := by
          rintro rfl
          have hnone : w.leases ⟨.variable i, 0⟩ = none := hq
          rw [hl] at hnone
          cases hnone
        simpa [vacant, setLease, hne] using hq

theorem takeQuota_eq {q : ℕ} {w' : World} (h : w.takeQuota q = some w') :
    w' = w.setQuota q (· + 1) := by
  simp only [takeQuota] at h
  split_ifs at h
  exact (Option.some.inj h).symm

/-- Both quotas are taken, or none. -/
theorem takeQuotas_eq (consumer global : ℕ) : (∃ e, w.takeQuotas consumer global = (.error e, w)) ∨
    ∃ quotas, w.takeQuotas consumer global = (.ok (), { w with quotas }) ∧ ∀ q, (quotas q).active =
      w.active q + if some consumer = some q ∨ some global = some q then 1 else 0 := by
  rcases hc : w.takeQuota consumer with _ | w₁
  · refine .inl ⟨failure .capacityExhausted, ?_⟩
    simp only [takeQuotas, hc]
  · obtain rfl := takeQuota_eq hc
    by_cases hsame : consumer = global
    · refine .inr ⟨(w.setQuota consumer (· + 1)).quotas, ?_, fun q => ?_⟩
      · simp only [takeQuotas, hc, if_pos hsame]
        rfl
      · rw [← active, active_setQuota]
        by_cases hq : q = consumer
        · simp [hq]
        · simp [hq, Ne.symm hq, ← hsame]
    · rcases hg : (w.setQuota consumer (· + 1)).takeQuota global with _ | w₂
      · refine .inl ⟨failure .capacityExhausted, ?_⟩
        simp only [takeQuotas, hc, if_neg hsame, hg]
        simp [setQuota]
      · obtain rfl := takeQuota_eq hg
        refine .inr ⟨((w.setQuota consumer (· + 1)).setQuota global (· + 1)).quotas, ?_, fun q => ?_⟩
        · simp only [takeQuotas, hc, if_neg hsame, hg]
          rfl
        · rw [← active, active_setQuota, active_setQuota]
          by_cases hq : q = global
          · simp [hq, Ne.symm hsame]
          · by_cases hqc : q = consumer
            · simp [hqc, hsame]
            · simp [hq, hqc, Ne.symm hq, Ne.symm hqc]

/-- The ledger of the blocks when a lease is shared to a place without one. -/
theorem share_kept {dst src : Place}
    (hblocks : BlocksKept w.owner w.references w.returning w.onReturn w.log)
    (hdst : w.leases dst = none) :
    BlocksKept (w.share dst src).owner (w.share dst src).references (w.share dst src).returning
      (w.share dst src).onReturn (w.share dst src).log := by
  rcases hl : w.leases src with _ | l
  · simpa only [share, hl] using hblocks
  · have hsrc : w.owner src = some l.block := by simp [owner, hl]
    have hnone : w.owner dst = none := by simp [owner, hdst]
    have hne : (w.setLease dst (some l)).references l.block ≠ 0 := (hblocks.counted.pos hsrc).ne'
    simp only [share, hl]
    refine blocksKept_of_eq (hblocks.share hnone hsrc) (owner_setLease dst _) ?_ rfl rfl rfl
    exact references_setReferences hne (· + 1)

theorem share_frame (dst src : Place) : w.share dst src =
    { w with leases := (w.share dst src).leases, pools := (w.share dst src).pools } ∧
      ∀ p, p ≠ dst → (w.share dst src).leases p = w.leases p := by
  rcases hl : w.leases src with _ | l
  · simp [share, hl]
  · refine ⟨by simp only [share, hl]; rfl, fun p hp => ?_⟩
    simp [share, hl, setLease, setReferences, hp]

theorem shareAll_frame (r : ℕ) (sources : List Place) : shareAll r sources w =
    { w with leases := (shareAll r sources w).leases, pools := (shareAll r sources w).pools } := by
  refine List.foldlRecOn
    (motive := fun w' : World => w' = { w with leases := w'.leases, pools := w'.pools })
    sources.zipIdx _ rfl fun w' hw' source _ => ?_
  rw [hw']
  exact (share_frame ⟨.retained r, source.2⟩ source.1).1

/-- A new value takes a lease from each source. -/
theorem shareFrom_kept (r : ℕ) (sources : List Place) (k : ℕ)
    (hblocks : BlocksKept w.owner w.references w.returning w.onReturn w.log)
    (hnew : ∀ i, k ≤ i → w.leases ⟨.retained r, i⟩ = none) (w' : World)
    (hw' : (sources.zipIdx k).foldl (fun w source => w.share ⟨.retained r, source.2⟩ source.1) w = w') :
    BlocksKept w'.owner w'.references w'.returning w'.onReturn w'.log ∧
      w' = { w with leases := w'.leases, pools := w'.pools } ∧
      ∀ p, p.holder ≠ .retained r → w'.leases p = w.leases p := by
  induction sources generalizing k w with
  | nil =>
    obtain rfl := hw'
    exact ⟨hblocks, rfl, fun _ _ => rfl⟩
  | cons source rest ih =>
    rw [List.zipIdx_cons, List.foldl_cons] at hw'
    obtain ⟨hframe, hleases⟩ := share_frame (w := w) ⟨.retained r, k⟩ source
    obtain ⟨hkept, heq, hother⟩ := ih (k + 1) (share_kept hblocks (hnew k le_rfl)) (fun i hi => by
      rw [hleases _ (by simp; omega)]
      exact hnew i (by omega)) hw'
    refine ⟨hkept, ?_, fun p hp => ?_⟩
    · rw [hframe] at heq
      exact heq
    · rw [hother p hp, hleases p fun h => hp (by rw [h])]

/-- A value is retained from objects that hold leases. -/
theorem retained_inv (h : w.Inv) {r consumer global : ℕ} (hnew : w.Unused (.retained r))
    (hother : ∀ u ∈ w.tasks, .retained r ∉ u.touches) {quotas : ℕ → Quota}
    (hactive : ∀ q, (quotas q).active =
      w.active q + if some consumer = some q ∨ some global = some q then 1 else 0)
    (leaseCount : ℕ) (fragments : List SegmentRef) (sources : List Place) :
    (shareAll r sources { w with
      quotas
      retained := Function.update w.retained r
        { leaseCount, fragments, consumer := some consumer, global := some global } }).Inv := by
  obtain ⟨hplaces, hnone⟩ := hnew
  generalize hw₁ : ({ w with
      quotas
      retained := Function.update w.retained r
        { leaseCount, fragments, consumer := some consumer, global := some global } } : World) = w₁
  obtain ⟨hkept, hframe, hleases⟩ := shareFrom_kept (w := w₁) r sources 0 (hw₁ ▸ h.blocks)
    (fun i _ => hw₁ ▸ hplaces i) _ rfl
  rw [← shareAll] at hkept hframe hleases
  refine ⟨hkept, ?_, ?_⟩
  · rw [hframe, ← hw₁]
    exact h.quotas.retain (hnone r rfl) hactive
  · have htasks : (shareAll r sources w₁).tasks = w.tasks := by rw [hframe, ← hw₁]
    have hretained : (shareAll r sources w₁).retained = Function.update w.retained r
        { leaseCount, fragments, consumer := some consumer, global := some global } := by
      rw [hframe, ← hw₁]
    rw [htasks]
    refine h.safe.mono (fun p hp ht => ?_) fun a ha ht => ?_
    · obtain ⟨u, hu, hp'⟩ := ht
      have hne : p.holder ≠ .retained r := fun hpr => hother u hu (hpr ▸ hp')
      have hsame := hleases p hne
      rw [← hw₁] at hsame ⊢
      exact hsame.trans hp
    · obtain ⟨u, hu, ha'⟩ := ht
      have hne : a ≠ r := fun har => hother u hu (har ▸ ha')
      simpa [settled, hretained, hne] using ha

theorem touches_assign {dst src : Place} {t : Task} (ht : t ∈ assign dst src) {x : Holder}
    (hx : x ∈ t.touches) : x = dst.holder ∨ x = src.holder := by
  simp only [assign, List.mem_cons, List.not_mem_nil, or_false] at ht
  rcases ht with rfl | rfl
  · exact .inl (by simpa [Task.touches] using hx)
  · simpa [Task.touches] using hx

theorem touches_assignAll {dst src : Holder} {n : ℕ} {t : Task} (ht : t ∈ assignAll dst src n)
    {x : Holder} (hx : x ∈ t.touches) : x = dst ∨ x = src := by
  obtain ⟨i, -, ht⟩ := List.mem_flatMap.mp ht
  exact touches_assign ht hx

theorem touches_resetTasks {r : ℕ} {t : Task} (ht : t ∈ resetTasks r) {x : Holder}
    (hx : x ∈ t.touches) : x = .retained r := by
  simp only [resetTasks, List.mem_append, List.mem_map, List.mem_singleton] at ht
  rcases ht with ⟨i, -, rfl⟩ | rfl
  · simpa [Task.touches] using hx
  · simpa [Task.touches] using hx

/-- A call keeps the invariant. -/
theorem begin_inv (h : w.Inv) {c : Call} (hmay : w.MayCall c) : (w.begin c).Inv := by
  obtain ⟨hother, hnew⟩ := hmay
  -- the tasks of the call touch what the call changes
  have hchanges : ∀ x ∈ c.changes, ∀ u ∈ w.tasks, x ∉ u.touches := fun x hx u hu =>
    hother x (List.mem_append_left _ hx) u hu
  cases c with
  | acquire pool request i =>
    exact acquire_inv h (hchanges _ (by simp [Call.changes])) ((hnew _ (by simp [Call.creates])).1 0)
  | setSize i size => exact setSize_inv h i size
  | move dst src =>
    simp only [World.begin]
    split_ifs
    · exact h
    · refine push_inv h _ (safe_assign _ _) rfl fun t ht x hx u hu => hchanges x ?_ u hu
      simpa [Call.changes] using touches_assign ht hx
  | reset i =>
    refine push_inv h [.reset ⟨.variable i, 0⟩] (fun E F => ⟨trivial, trivial⟩) rfl
      fun t ht x hx u hu => hchanges x ?_ u hu
    obtain rfl := List.mem_singleton.mp ht
    simpa [Call.changes, Task.touches] using hx
  | addBuffer e i =>
    simp only [World.begin, addBuffer]
    split_ifs
    · exact h
    · exact h
    · refine push_inv h _ (safe_assign _ _) rfl fun t ht x hx u hu => hchanges x ?_ u hu
      simpa [Call.changes] using touches_assign ht hx
  | appendPayload e s =>
    simp only [World.begin, appendPayload]
    split_ifs
    · exact h
    · exact h
    · exact ⟨h.blocks, h.quotas, h.safe⟩
  | moveEnvelope dst src =>
    simp only [World.begin]
    split_ifs
    · exact h
    · refine push_inv h _ (fun E F => safe_assignAll [.handEnvelope dst src] _
        (fun E => ⟨trivial, trivial⟩) E) ?_ fun t ht x hx u hu => hchanges x ?_ u hu
      · rw [List.filterMap_append, assignAll, returns_assignAll]
        rfl
      · rcases List.mem_append.mp ht with ht | ht
        · simpa [Call.changes] using touches_assignAll ht hx
        · obtain rfl := List.mem_singleton.mp ht
          simpa [Call.changes, Task.touches] using hx
  | dropEnvelope e =>
    have hmap : ((List.range 18).reverse.map fun i => Task.reset ⟨.envelope e, i⟩) =
        ((List.range 18).reverse.map fun i => Place.mk (.envelope e) i).map Task.reset := by
      rw [List.map_map]
      rfl
    simp only [World.begin, hmap]
    refine push_inv h _ (fun E F => safe_resets [.discard e] _
      (fun E => ⟨trivial, trivial⟩) E) ?_ fun t ht x hx u hu => hchanges x ?_ u hu
    · rw [List.filterMap_append, returns_resets]
      rfl
    · rcases List.mem_append.mp ht with ht | ht
      · obtain ⟨q, hq, rfl⟩ := List.mem_map.mp ht
        obtain ⟨i, -, rfl⟩ := List.mem_map.mp hq
        simpa [Call.changes, Task.touches] using hx
      · obtain rfl := List.mem_singleton.mp ht
        simpa [Call.changes, Task.touches] using hx
  | retain e consumer global r =>
    simp only [World.begin, retain]
    split_ifs
    · exact h
    · rcases takeQuotas_eq (w := w) consumer global with ⟨err, htake⟩ | ⟨quotas, htake, hactive⟩
      · simp only [htake]
        exact h
      · simp only [htake]
        exact retained_inv h (hnew _ (by simp [Call.creates]))
          (hchanges _ (by simp [Call.changes])) hactive _ _ _
  | retainAgain src consumer global r =>
    simp only [World.begin, retainAgain]
    split_ifs
    · exact h
    · rcases takeQuotas_eq (w := w) consumer global with ⟨err, htake⟩ | ⟨quotas, htake, hactive⟩
      · simp only [htake]
        exact h
      · simp only [htake]
        exact retained_inv h (hnew _ (by simp [Call.creates]))
          (hchanges _ (by simp [Call.changes])) hactive _ _ _
  | moveRetained dst src =>
    simp only [World.begin]
    split_ifs
    · exact h
    · refine push_inv h _ (fun E F => ?_) ?_ fun t ht x hx u hu => hchanges x ?_ u hu
      · -- the quotas of the target are given back before it is overwritten
        rw [List.append_assoc]
        refine safe_resetTasks _ (fun E => safe_assignAll [.hand dst src] _ (fun E => ?_) E) E
        exact ⟨Set.mem_insert _ _, trivial⟩
      · rw [List.filterMap_append, List.filterMap_append, returns_resetTasks, assignAll,
          returns_assignAll]
        rfl
      · simp only [Call.changes, List.mem_cons, List.not_mem_nil, or_false]
        rcases List.mem_append.mp ht with ht | ht
        · rcases List.mem_append.mp ht with ht | ht
          · exact .inl (touches_resetTasks ht hx)
          · exact touches_assignAll ht hx
        · obtain rfl := List.mem_singleton.mp ht
          simpa [Task.touches] using hx
  | resetRetained r =>
    refine push_inv h _ (fun E F => ?_) ?_ fun t ht x hx u hu => hchanges x ?_ u hu
    · simpa using safe_resetTasks [] (fun E => trivial) E
    · exact returns_resetTasks r
    · rw [touches_resetTasks ht hx]
      simp [Call.changes]
  | enable q value =>
    refine ⟨h.blocks, ?_, h.safe⟩
    have hactive : (w.begin (.enable q value)).active = w.active := by
      funext x
      by_cases hx : x = q
      · simp [World.begin, active, hx]
      · simp [World.begin, active, hx]
    rw [hactive]
    exact h.quotas

/-! ## Runs -/

/-- Nothing is held at the start. -/
theorem start_inv (h : w.Start) : w.Inv := by
  have howner : w.owner = fun _ => none := by
    funext p
    simp [owner, h.leases p]
  have hreturning : w.returning = [] := by simp [returning, h.tasks]
  refine ⟨?_, fun q => ?_, ?_⟩
  · rw [howner, hreturning, h.log]
    refine ⟨⟨fun b => ?_, fun b _ => ?_, fun b hb => ?_⟩, by simp, List.nodup_nil, fun b _ => ?_⟩
    · simp [Ownership.holders]
    · simp [Ownership.holders, h.free b]
    · cases hb
    · simp [h.free b]
  · have hnone : users w.retained q = ∅ := by
      ext r
      simp [mem_users, h.retained r]
    rw [hnone, Set.ncard_empty, active, h.quotas q]
    exact ⟨Set.finite_empty, rfl⟩
  · rw [h.tasks]
    trivial

theorem Reachable.inv (h : w.Reachable) : w.Inv := by
  induction h with
  | start h => exact start_inv h
  | call _ c hmay ih => exact begin_inv ih hmay
  | advance _ ih => exact advance_inv ih

/-- Each block has one owner at a time, and each quota its units. -/
structure OwnedOnce (w : World) : Prop where
  /-- The count of a block is the number of its leases, or marks it as being returned. -/
  counted : ∀ b, (w.holders b).Finite ∧
    (b ∉ w.returning → w.references b = (w.holders b).ncard) ∧
    (b ∈ w.returning → w.holders b = ∅ ∧ w.references b = sizeMax)
  /-- `acquire` grants a smallest block that fits, of which no lease is left and that is not being
  returned. -/
  granted : ∀ pool request index p, (w.pools pool).acquire request = .ok (index, p) →
    w.holders ⟨pool, index⟩ = ∅ ∧ ⟨pool, index⟩ ∉ w.returning ∧
      ∃ x, (w.pools pool).blocks[index]? = some x ∧ x.fits request ∧
        ∀ c ∈ (w.pools pool).blocks, c.fits request → x.capacity ≤ c.capacity
  exhausted : ∀ pool request,
    (w.pools pool).acquire request = .error (failure .capacityExhausted) →
      ∀ c ∈ (w.pools pool).blocks, ¬c.fits request
  /-- `on_return` was called once for each grant but the one in use. -/
  called : ∀ b, w.onReturn b →
    ((w.holders b).Nonempty → w.log.count (.granted b) = w.log.count (.called b) + 1) ∧
    (w.holders b = ∅ → w.log.count (.granted b) = w.log.count (.called b))
  /-- The units in use of a quota are the retained values that hold it. -/
  quotas : ∀ q, (users w.retained q).Finite ∧ w.active q = (users w.retained q).ncard

/-- What the invariant says of the blocks and the quotas. -/
theorem Inv.ownedOnce (h : w.Inv) : w.OwnedOnce := by
  obtain ⟨hblocks, hquotas, -⟩ := h
  refine ⟨fun b => ⟨hblocks.counted.finite b, hblocks.counted.counted b, fun hb =>
    ⟨hblocks.counted.idle b hb, hblocks.marked b hb⟩⟩, fun pool request index p hacquire => ?_,
    fun pool request => ExternalPool.acquire_exhausted, fun b hb => ⟨fun hlive => ?_, fun hnone => ?_⟩,
    hquotas⟩
  · obtain ⟨x, ⟨hget, hfits, hmin⟩, -⟩ := ExternalPool.acquire_eq_ok hacquire
    have hfree : w.references ⟨pool, index⟩ = 0 := by
      simp only [Block.fits, decide_eq_true_eq] at hfits
      simp [references, block, hget, hfits.1]
    have hnot := hblocks.not_mem_of_ne (b := ⟨pool, index⟩) (by rw [hfree]; decide)
    exact ⟨hblocks.counted.holders_eq_empty hnot hfree, hnot, x, hget, hfits, hmin⟩
  · have hlog := hblocks.logged b hb
    rwa [if_neg (hblocks.nonempty_holders_iff.mp hlive)] at hlog
  · have hlog := hblocks.logged b hb
    have hdead : ¬(Ownership.holders w.owner b).Nonempty :=
      Set.not_nonempty_iff_eq_empty.mpr hnone
    rw [hblocks.nonempty_holders_iff, not_not] at hdead
    rwa [if_pos hdead, Nat.add_zero] at hlog

/-! ### The quotas of a run -/

/-- A call that retains takes a unit of each distinct quota, or changes nothing. -/
def TakesQuotas (w : World) (consumer global r : ℕ) (result : Result Unit × World) : Prop :=
  (∀ e, result.1 = .error e → result.2 = w) ∧
    (result.1 = .ok () → ∀ q,
      result.2.active q = w.active q + (if q = consumer ∨ q = global then 1 else 0) ∧
      ∀ a, a ∈ users result.2.retained q ↔
        a ∈ users w.retained q ∨ a = r ∧ (q = consumer ∨ q = global))

/-- A new value with the quotas counted for it takes a unit of each distinct one. -/
theorem takesQuotas_of_retained {r consumer global : ℕ} (hnew : w.Unused (.retained r))
    {quotas : ℕ → Quota} (hactive : ∀ q, (quotas q).active =
      w.active q + if some consumer = some q ∨ some global = some q then 1 else 0)
    (leaseCount : ℕ) (fragments : List SegmentRef) (sources : List Place) :
    TakesQuotas w consumer global r (.ok (), shareAll r sources { w with
      quotas
      retained := Function.update w.retained r
        { leaseCount, fragments, consumer := some consumer, global := some global } }) := by
  refine ⟨by simp, fun _ q => ?_⟩
  generalize hw₁ : ({ w with
      quotas
      retained := Function.update w.retained r
        { leaseCount, fragments, consumer := some consumer, global := some global } } : World) = w₁
  have hframe : shareAll r sources w₁ =
      { w₁ with leases := (shareAll r sources w₁).leases, pools := (shareAll r sources w₁).pools } :=
    shareAll_frame r sources
  have hout : r ∉ users w.retained q := by simp [mem_users, hnew.2 r rfl]
  constructor
  · rw [hframe, ← hw₁]
    rw [active, hactive q]
    simp [eq_comm]
  · intro a
    rw [hframe, ← hw₁, mem_users_update]
    by_cases ha : a = r
    · subst ha
      simp [hout, eq_comm]
    · simp [ha]

theorem retain_takesQuotas {e consumer global r : ℕ} (hmay : w.MayCall (.retain e consumer global r)) :
    TakesQuotas w consumer global r (w.retain e consumer global r) := by
  simp only [retain]
  split_ifs
  · exact ⟨fun _ _ => rfl, by simp⟩
  · rcases takeQuotas_eq (w := w) consumer global with ⟨err, htake⟩ | ⟨quotas, htake, hactive⟩
    · simp only [htake]
      exact ⟨fun _ _ => rfl, by simp⟩
    · simp only [htake]
      exact takesQuotas_of_retained (hmay.new _ (by simp [Call.creates])) hactive _ _ _

/-- Another retain takes quotas again. -/
theorem retainAgain_takesQuotas {src consumer global r : ℕ}
    (hmay : w.MayCall (.retainAgain src consumer global r)) :
    TakesQuotas w consumer global r (w.retainAgain src consumer global r) := by
  simp only [retainAgain]
  split_ifs
  · exact ⟨fun _ _ => rfl, by simp⟩
  · rcases takeQuotas_eq (w := w) consumer global with ⟨err, htake⟩ | ⟨quotas, htake, hactive⟩
    · simp only [htake]
      exact ⟨fun _ _ => rfl, by simp⟩
    · simp only [htake]
      exact takesQuotas_of_retained (hmay.new _ (by simp [Call.creates])) hactive _ _ _

/-- No other call takes a quota or gives one back. -/
theorem begin_quotas {c : Call} (hretain : ∀ r, .retained r ∉ c.creates) :
    (w.begin c).retained = w.retained ∧ (w.begin c).active = w.active := by
  cases c with
  | acquire pool request i =>
    simp only [World.begin, acquire]
    rcases (w.pools pool).acquire request with _ | ⟨index, p⟩
    · exact ⟨rfl, rfl⟩
    · exact ⟨rfl, rfl⟩
  | setSize i size =>
    simp only [World.begin, setSize]
    rcases w.leases ⟨.variable i, 0⟩ with _ | l
    · exact ⟨rfl, rfl⟩
    · simp only []
      split_ifs
      · exact ⟨rfl, rfl⟩
      · exact ⟨rfl, rfl⟩
  | retain e consumer global r => exact absurd (by simp [Call.creates]) (hretain r)
  | retainAgain src consumer global r => exact absurd (by simp [Call.creates]) (hretain r)
  | enable q value =>
    refine ⟨rfl, ?_⟩
    funext x
    by_cases hx : x = q
    · simp [World.begin, active, hx]
    · simp [World.begin, active, hx]
  | addBuffer e i =>
    simp only [World.begin, addBuffer]
    split_ifs
    all_goals exact ⟨rfl, rfl⟩
  | appendPayload e s =>
    simp only [World.begin, appendPayload]
    split_ifs
    all_goals exact ⟨rfl, rfl⟩
  | reset i => exact ⟨rfl, rfl⟩
  | dropEnvelope e => exact ⟨rfl, rfl⟩
  | resetRetained r => exact ⟨rfl, rfl⟩
  | _ =>
    simp only [World.begin]
    split_ifs
    all_goals exact ⟨rfl, rfl⟩

/-- The retained values that hold a quota, after a task. -/
def passed (w : World) (S : Set ℕ) : Set ℕ :=
  match w.tasks.head? with
  | some (.settle r) => S \ {r}
  | some (.hand dst src) => {a | a ≠ src ∧ (if a = dst then src else a) ∈ S}
  | _ => S

/-- The quotas of a value are given back when it settles, and go with it when it is moved. -/
theorem users_advance (q : ℕ) : users w.advance.retained q = w.passed (users w.retained q) := by
  obtain ⟨pools, quotas, onReturn, leases, envelopes, retained, returns, tasks, log⟩ := w
  cases tasks with
  | nil => rfl
  | cons t rest =>
    cases t with
    | settle r =>
      ext a
      simp only [advance, perform, settle, passed, List.head?_cons, mem_users_update]
      by_cases ha : a = r
      · simp [ha]
      · simp [ha]
    | hand dst src => exact users_hand
    | reset p =>
      simp only [advance, perform, reset, passed, List.head?_cons]
      rcases leases p with _ | l
      · rfl
      · simp only []
        split_ifs
        all_goals rfl
    | _ => rfl

theorem reset_tasks (p : Place) : (w.reset p).retained = w.retained ∧
    ((w.reset p).tasks = w.tasks ∨ ∃ b, (w.reset p).tasks = .finish b :: w.tasks) := by
  rcases hl : w.leases p with _ | l
  · simp [reset, hl]
  · simp only [reset, hl]
    split_ifs
    · exact ⟨rfl, .inr ⟨l.block, rfl⟩⟩
    · exact ⟨rfl, .inr ⟨l.block, rfl⟩⟩
    · exact ⟨rfl, .inl rfl⟩

theorem advance_of_tasks {t : Task} {rest : List Task} (htasks : w.tasks = t :: rest) :
    w.advance = { w with tasks := rest }.perform t := by
  simp only [advance, htasks]

/-- A lease is reset in one task, or in two. -/
theorem reset_ends {p : Place} {rest : List Task} (htasks : w.tasks = .reset p :: rest) :
    ∃ k, (advance^[k] w).tasks = rest ∧ (advance^[k] w).retained = w.retained := by
  have hone : w.advance = { w with tasks := rest }.reset p := advance_of_tasks htasks
  obtain ⟨hretained, htasks'⟩ := reset_tasks (w := { w with tasks := rest }) p
  rw [← hone] at hretained htasks'
  rcases htasks' with htasks' | ⟨b, htasks'⟩
  · exact ⟨1, htasks', hretained⟩
  · have htwo : w.advance.advance = { w.advance with tasks := rest }.finish b :=
      advance_of_tasks htasks'
    refine ⟨2, ?_, ?_⟩
    · change w.advance.advance.tasks = rest
      rw [htwo]
      rfl
    · change w.advance.advance.retained = w.retained
      rw [htwo]
      exact hretained

/-- Resets that wait come to an end. -/
theorem resets_end (l : List Place) (rest : List Task) (htasks : w.tasks = l.map Task.reset ++ rest) :
    ∃ k, (advance^[k] w).tasks = rest ∧ (advance^[k] w).retained = w.retained := by
  induction l generalizing w with
  | nil => exact ⟨0, htasks, rfl⟩
  | cons p l ih =>
    rw [List.map_cons, List.cons_append] at htasks
    obtain ⟨k, htasks', hretained⟩ := reset_ends htasks
    obtain ⟨n, hrest, hsame⟩ := ih htasks'
    refine ⟨n + k, ?_, ?_⟩
    · rw [Function.iterate_add_apply, hrest]
    · rw [Function.iterate_add_apply, hsame, hretained]

/-- The reset of a value ends, and then the value holds no quota. -/
theorem resetRetained_ends (r : ℕ) : ∃ k, (advance^[k] (w.begin (.resetRetained r))).tasks = w.tasks ∧
    ∀ q, users (advance^[k] (w.begin (.resetRetained r))).retained q =
      users w.retained q \ {r} := by
  have htasks : (w.begin (.resetRetained r)).tasks =
      ((List.range 16).map fun i => Place.mk (.retained r) i).map Task.reset ++
        .settle r :: w.tasks := by
    rw [List.map_map]
    rfl
  obtain ⟨k, hrest, hretained⟩ := resets_end _ _ htasks
  refine ⟨1 + k, ?_, fun q => ?_⟩
  · rw [Function.iterate_add_apply, Function.iterate_one, advance_of_tasks hrest]
    obtain ⟨quotas, heq, -⟩ := releaseQuotas_eq
      (w := { advance^[k] (w.begin (.resetRetained r)) with tasks := w.tasks })
      ((advance^[k] (w.begin (.resetRetained r))).retained r)
    simp only [perform, settle, heq]
  · rw [Function.iterate_add_apply, Function.iterate_one, users_advance, passed, hrest, hretained]
    rfl

/-- Each block has one owner at a time, `on_return` is called once for each grant, and a retained value
holds one unit of each of its quotas until its reset, wherever it is moved. -/
theorem blocks_owned_once (h : w.Reachable) : w.OwnedOnce ∧
    (∀ e consumer global r, w.MayCall (.retain e consumer global r) →
      TakesQuotas w consumer global r (w.retain e consumer global r)) ∧
    (∀ src consumer global r, w.MayCall (.retainAgain src consumer global r) →
      TakesQuotas w consumer global r (w.retainAgain src consumer global r)) ∧
    (∀ c, w.MayCall c → (∀ r, .retained r ∉ c.creates) →
      (w.begin c).retained = w.retained ∧ (w.begin c).active = w.active) ∧
    (∀ q, users w.advance.retained q = w.passed (users w.retained q)) ∧
    ∀ r, ∃ k, (advance^[k] (w.begin (.resetRetained r))).tasks = w.tasks ∧
      ∀ q, users (advance^[k] (w.begin (.resetRetained r))).retained q = users w.retained q \ {r} :=
  ⟨h.inv.ownedOnce, fun _ _ _ _ => retain_takesQuotas, fun _ _ _ _ => retainAgain_takesQuotas,
    fun _ _ => begin_quotas, users_advance, resetRetained_ends⟩

/-- A pool with one block, and one quota. -/
def smallWorld : World where
  pools := fun _ => { provider := 0, blocks := [{ capacity := 64 }] }
  quotas := fun _ => { limit := 1 }
  onReturn := fun _ => true

theorem smallWorld_start : smallWorld.Start := by
  refine ⟨fun b => ?_, fun _ => rfl, fun _ => rfl, fun _ => rfl, rfl, rfl⟩
  obtain ⟨pool, _ | index⟩ := b
  · rfl
  · rfl

/-- Its block is granted, and an envelope takes the lease. -/
def filledWorld : World :=
  (advance^[2] (((smallWorld.begin (.acquire 0 { capacity := 32 } 0)).begin (.setSize 0 32)).begin
    (.addBuffer 0 0))).begin (.appendPayload 0 { lease := 0, offset := 0, length := 8 })

/-- The packet is retained, and its envelope is dropped. -/
def retainedWorld : World :=
  advance^[19] ((filledWorld.begin (.retain 0 0 0 0)).begin (.dropEnvelope 0))

/-- The retained value is reset. -/
def returnedWorld : World := advance^[18] (retainedWorld.begin (.resetRetained 0))

theorem Reachable.advances (h : w.Reachable) (n : ℕ) : (World.advance^[n] w).Reachable := by
  induction n with
  | zero => exact h
  | succ n ih =>
    rw [Function.iterate_succ_apply']
    exact ih.advance

/-- Between the calls a call only needs that what it makes is new. -/
theorem Reachable.idle_call (h : w.Reachable) (htasks : w.tasks = []) (c : Call)
    (hnew : ∀ x ∈ c.creates, w.Unused x) : (w.begin c).Reachable := by
  refine h.call c ⟨fun x _ t ht => ?_, hnew⟩
  rw [htasks] at ht
  cases ht

theorem retainedWorld_reachable : retainedWorld.Reachable := by
  have hempty : ∀ x : Holder, smallWorld.Unused x := fun x => ⟨fun _ => rfl, fun _ _ => ⟨rfl, rfl⟩⟩
  have hgranted := (Reachable.start smallWorld_start).idle_call rfl (.acquire 0 { capacity := 32 } 0)
    fun x _ => hempty x
  have hfilled : filledWorld.Reachable :=
    (((hgranted.idle_call rfl (.setSize 0 32) (by simp [Call.creates])).idle_call rfl (.addBuffer 0 0)
      (by simp [Call.creates])).advances 2).idle_call rfl _ (by simp [Call.creates])
  have hunused : filledWorld.Unused (.retained 0) := ⟨fun _ => rfl, fun _ h => by cases h; exact ⟨rfl, rfl⟩⟩
  exact ((hfilled.idle_call rfl (.retain 0 0 0 0) (by simpa [Call.creates] using hunused)).idle_call rfl
    (.dropEnvelope 0) (by simp [Call.creates])).advances 19

/-- The retained value keeps the block and the quota, and its reset calls `on_return` and gives both
back. -/
theorem blocks_owned_once_returned : (retainedWorld.holders ⟨0, 0⟩).ncard = 1 ∧
    (users retainedWorld.retained 0).ncard = 1 ∧
    returnedWorld.log = [.granted ⟨0, 0⟩, .called ⟨0, 0⟩] ∧
    (returnedWorld.holders ⟨0, 0⟩).ncard = 0 ∧ (users returnedWorld.retained 0).ncard = 0 := by
  have hreset : returnedWorld.Reachable :=
    (retainedWorld_reachable.idle_call rfl (.resetRetained 0) (by simp [Call.creates])).advances 18
  have hkept := (blocks_owned_once retainedWorld_reachable).1
  have hback := (blocks_owned_once hreset).1
  refine ⟨?_, ?_, by decide, ?_, ?_⟩
  · rw [← (hkept.counted ⟨0, 0⟩).2.1 (by decide)]
    decide
  · rw [← (hkept.quotas 0).2]
    decide
  · rw [← (hback.counted ⟨0, 0⟩).2.1 (by decide)]
    decide
  · rw [← (hback.quotas 0).2]
    decide

end World

end Vita.Memory
