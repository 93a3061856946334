import Vita.Codec.ArrayCif
import Vita.Codec.Extents
import Vita.Codec.Tiling

/-!
# Inspection of arrays of CIFs is bounded and exact

`ArrayTiles` says what an accepted array is: a header, then records of an index word and the values
that the indicators select, each of them as long as its field requires or an array again, with no byte
between or after them. Every value is an element, presented after the elements of the array it holds.

Main results:
- `walk_tiles`: a walk that succeeds has presented the elements of a tiling and charged one view each;
- `inside_walk`: five levels are enough, and no byte outside the input is read;
- `walk_attach`: the visitor has no influence on a walk as long as it does not fail;
- `validate_exact`: all of this for `validate` and `View.visit`.
-/

namespace Vita.Codec.ArrayCif

open Words Checked

/-! ## Tilings -/

mutual

/-- The bytes are an array, from `origin` of the input on, with these elements. -/
inductive ArrayTiles (options : Options) : ℕ → Path → Bytes → List Element → Prop
  | intro {origin : ℕ} {path : Path} {head records : Bytes} {h : Header} {elements : List Element} :
      header (head ++ records) options = .ok h → head.length = 32 →
      (head ++ records).length = h.bytes →
      RecordsTile options h 0 (origin + 32) path records elements →
      ArrayTiles options origin path (head ++ records) elements

/-- The bytes are the records from one ordinal on. -/
inductive RecordsTile (options : Options) :
    Header → ℕ → ℕ → Path → Bytes → List Element → Prop
  | nil {h : Header} {origin : ℕ} {path : Path} :
      RecordsTile options h h.records origin path [] []
  | cons {h : Header} {ordinal origin : ℕ} {path : Path} {index : UInt32} {values rest : Bytes}
      {elements more : List Element} :
      (be32 index ++ values).length = h.words * 4 →
      ValuesTile options (origin + 4) (path ++ [⟨ordinal, index⟩]) values
        (walkElements h.plan.attributes h.plan.selected) elements →
      RecordsTile options h (ordinal + 1) (origin + h.words * 4) path rest more →
      RecordsTile options h ordinal origin path (be32 index ++ values ++ rest) (elements ++ more)

/-- The bytes are the values of some fields and attributes in their order. -/
inductive ValuesTile (options : Options) :
    ℕ → Path → Bytes → List (FieldId × Attribute) → List Element → Prop
  | nil {origin : ℕ} {path : Path} : ValuesTile options origin path [] [] []
  | plain {origin : ℕ} {path : Path} {id : FieldId} {attr : Attribute} {value rest : Bytes}
      {extent : FieldExtent} {pending : List (FieldId × Attribute)} {elements : List Element} :
      holdsArray id attr = false → plainValueExtent options id attr value = .ok extent →
      value.length = extent.bytes → checkPlainValue options id attr value = .ok () →
      ValuesTile options (origin + value.length) path rest pending elements →
      ValuesTile options origin path (value ++ rest) ((id, attr) :: pending)
        (elementOf options path id attr origin value :: elements)
  | array {origin : ℕ} {path : Path} {id : FieldId} {attr : Attribute} {value rest : Bytes}
      {pending : List (FieldId × Attribute)} {inner elements : List Element} :
      holdsArray id attr = true → ArrayTiles options origin path value inner →
      ValuesTile options (origin + value.length) path rest pending elements →
      ValuesTile options origin path (value ++ rest) ((id, attr) :: pending)
        (inner ++ elementOf options path id attr origin value :: elements)

end

/-! ## Budgets -/

/-- What was charged from one budget to another is at most what the maxima left. -/
structure Charged (b b' : Budget) (fields views work : ℕ) : Prop where
  eq : b' = { b with fields := b.fields + fields, views := b.views + views, work := b.work + work }
  fields : fields ≤ b.maxFields - b.fields
  views : views ≤ b.maxViews - b.views
  work : work ≤ b.maxWork - b.work

theorem Charged.refl (b : Budget) : Charged b b 0 0 0 :=
  ⟨rfl, Nat.zero_le _, Nat.zero_le _, Nat.zero_le _⟩

theorem Charged.trans {b b' b'' : Budget} {fields views work fields' views' work' : ℕ}
    (h : Charged b b' fields views work) (h' : Charged b' b'' fields' views' work') :
    Charged b b'' (fields + fields') (views + views') (work + work') := by
  obtain ⟨rfl, hf, hv, hw⟩ := h
  obtain ⟨rfl, hf', hv', hw'⟩ := h'
  simp only at hf' hv' hw'
  refine ⟨by simp only [Nat.add_assoc], ?_, ?_, ?_⟩ <;> omega

theorem charge_eq_ok {used limit amount n : ℕ} :
    charge used limit amount = .ok n ↔ used ≤ limit ∧ amount ≤ limit - used ∧ n = used + amount := by
  simp only [charge, bind_eq_ok, rejectIf_eq_ok, pure_eq_ok, Except.ok.injEq, not_or, Nat.not_lt,
    gt_iff_lt]
  constructor
  · rintro ⟨_, ⟨hused, hamount⟩, rfl⟩
    exact ⟨hused, hamount, rfl⟩
  · rintro ⟨hused, hamount, rfl⟩
    exact ⟨(), ⟨hused, hamount⟩, rfl⟩

theorem Charged.ofWork {b : Budget} {amount n : ℕ} (h : charge b.work b.maxWork amount = .ok n) :
    Charged b { b with work := n } 0 0 amount := by
  obtain ⟨-, hamount, rfl⟩ := charge_eq_ok.mp h
  exact ⟨rfl, Nat.zero_le _, Nat.zero_le _, hamount⟩

theorem Charged.ofFields {b : Budget} {amount n : ℕ} (h : charge b.fields b.maxFields amount = .ok n) :
    Charged b { b with fields := n } amount 0 0 := by
  obtain ⟨-, hamount, rfl⟩ := charge_eq_ok.mp h
  exact ⟨rfl, hamount, Nat.zero_le _, Nat.zero_le _⟩

theorem Charged.ofViews {b : Budget} {amount n : ℕ} (h : charge b.views b.maxViews amount = .ok n) :
    Charged b { b with views := n } 0 amount 0 := by
  obtain ⟨-, hamount, rfl⟩ := charge_eq_ok.mp h
  exact ⟨rfl, Nat.zero_le _, hamount, Nat.zero_le _⟩

/-- From one state to another the elements were presented, each for one view. -/
structure Presents {σ : Type} (s s' : Walked σ) (elements : List Element) : Prop where
  presented : s'.presented = s.presented ++ elements
  charged : ∃ fields work, Charged s.budget s'.budget fields elements.length work

section Presents

variable {σ : Type} {s s' s'' : Walked σ} {elements elements' : List Element}

theorem Presents.trans (h : Presents s s' elements) (h' : Presents s' s'' elements') :
    Presents s s'' (elements ++ elements') := by
  obtain ⟨fields, work, hcharged⟩ := h.charged
  obtain ⟨fields', work', hcharged'⟩ := h'.charged
  refine ⟨by rw [h'.presented, h.presented, List.append_assoc], fields + fields', work + work', ?_⟩
  rw [List.length_append]
  exact hcharged.trans hcharged'

/-- Charging fields and work presents nothing. -/
theorem Presents.ofCharged {b : Budget} {fields work : ℕ} (h : Charged s.budget b fields 0 work) :
    Presents s { s with budget := b } [] :=
  ⟨(List.append_nil _).symm, fields, work, h⟩

end Presents

/-! ## Headers -/

theorem load32_take {data : Bytes} {n offset : ℕ} (h : offset + 4 ≤ n) (hn : n ≤ data.length) :
    load32 (data.take n) offset = load32 data offset := by
  have hinside : offset + 4 ≤ (data.take n).length := by
    rw [List.length_take]
    omega
  obtain ⟨w, hw⟩ := load32_inside hinside
  have hfull := load32_append hw (data.drop n)
  rw [List.take_append_drop] at hfull
  rw [hw, hfull]

/-- An accepted header: the array's size, and the room for its records. -/
structure Header.Sized (h : Header) (bytes : Bytes) : Prop where
  eq : h.bytes = 32 + h.records * (h.words * 4)
  inside : h.bytes ≤ bytes.length
  words : h.records ≠ 0 → 1 ≤ h.words
  plan : h.plan.bytes = indicatorCount (h.plan.cif 0) * 4

/-- The header was read from the bytes, and its records lie in them. -/
theorem header_sized {bytes : Bytes} {options : Options} {h : Header}
    (hok : header bytes options = .ok h) : h.Sized bytes := by
  simp only [header, bind_eq_ok, rejectIf_eq_ok, Result.decoded_eq_ok, pure_eq_ok, Except.ok.injEq,
    checkedAdd_eq_ok, checkedMultiply_word] at hok
  obtain ⟨_, -, _, -, total, -, header1, -, third, -, _, -, product, hproduct, words, ⟨-, rfl⟩, _,
    htotal, extent, rfl, _, hroom, cif, -, _, -, _, -, selected, -, rfl⟩ := hok
  simp only [checkedMultiply, bind_eq_ok, rejectIf_eq_ok, pure_eq_ok, Except.ok.injEq] at hproduct
  obtain ⟨_, -, rfl⟩ := hproduct
  refine ⟨?_, ?_, ?_, rfl⟩
  · simp only
    rw [Nat.mul_comm (header1 >>> 12 &&& 4095).toNat] at htotal
    rw [← Nat.mul_assoc]
    omega
  · simp only
    omega
  · simp only
    omega

/-- The header of an array does not depend on what follows the array. -/
theorem header_take {bytes : Bytes} {options : Options} {h : Header}
    (hok : header bytes options = .ok h) : header (bytes.take h.bytes) options = .ok h := by
  have hsized := header_sized hok
  have hsize : 32 ≤ h.bytes := by
    rw [hsized.eq]
    omega
  have hload : ∀ offset, offset + 4 ≤ 32 →
      load32 (bytes.take h.bytes) offset = load32 bytes offset := fun offset hoffset =>
    load32_take (by omega) hsized.inside
  have hlength : (bytes.take h.bytes).length = h.bytes := by
    rw [List.length_take]
    exact Nat.min_eq_left hsized.inside
  simp only [header, readCifs, hload, Nat.reduceAdd, Nat.reduceLeDiff, bind_eq_ok, rejectIf_eq_ok,
    pure_eq_ok, Except.ok.injEq, hlength] at hok ⊢
  obtain ⟨_, hbinding, _, -, total, htotal, header1, hheader1, third, hthird, _, hkind, product,
    hproduct, words, hwords, _, hsame, extent, hextent, _, -, rest⟩ := hok
  refine ⟨(), hbinding, (), by omega, total, htotal, header1, hheader1, third, hthird, (), hkind,
    product, hproduct, words, hwords, (), hsame, extent, hextent, (), ?_, rest⟩
  obtain ⟨_, -, _, -, _, -, _, -, rfl⟩ := rest
  exact Nat.lt_irrefl _

/-! ## The values of a record -/

/-- A walk of a record's values goes through its fields and attributes in order. -/
theorem FieldWalk.foldlM_of_run {σ : Type} {w : FieldWalk σ} {plan : IndicatorPlan} {visited : σ}
    {s : WalkState σ} (h : w.run plan visited = .ok s) :
    (walkElements plan.attributes plan.selected).foldlM (fun t e => w.element e.1 t e.2)
      { offset := indicatorCount (plan.cif 0) * 4, work := 0, visited } = .ok s := by
  unfold FieldWalk.run at h
  unfold walkElements
  generalize ({ offset := indicatorCount (plan.cif 0) * 4, work := 0, visited } : WalkState σ) = t at h ⊢
  generalize plan.selected = fields at h ⊢
  induction fields generalizing t with
  | nil => exact h
  | cons id fields ih =>
    rw [List.foldlM_cons, bind_eq_ok] at h
    obtain ⟨t', hfield, hrest⟩ := h
    rw [List.flatMap_cons, List.foldlM_append, bind_eq_ok]
    refine ⟨t', ?_, ih t' hrest⟩
    rw [List.foldlM_map]
    unfold FieldWalk.field at hfield
    split at hfield
    · cases hfield
    · obtain ⟨_, -, hfield⟩ := bind_eq_ok.mp hfield
      exact hfield

section Walk

variable {σ : Type} {visitor : σ → Element → Decoded σ} {options : Options} {nested : Walker σ}

/-- The walker tiles what it accepts, and presents the elements of the tiling. -/
def TilesWhatItWalks (options : Options) (nested : Walker σ) : Prop :=
  ∀ {bytes : Bytes} {origin : ℕ} {path : Path} {s : Walked σ} {size : ℕ} {s' : Walked σ},
    nested bytes origin path s = .ok (size, s') → size ≤ bytes.length ∧
      ∃ elements, ArrayTiles options origin path (bytes.take size) elements ∧ Presents s s' elements

theorem subspan_eq_ok {data bytes : Bytes} {offset count : ℕ} :
    subspan data offset count = .ok bytes ↔
      offset + count ≤ data.length ∧ bytes = (data.drop offset).take count := by
  unfold subspan
  split
  · next h => simp only [pure_eq_ok, Except.ok.injEq, h, true_and, eq_comm]
  · next h => simp only [throw_eq_error, reduceCtorEq, h, false_and]

theorem length_subspan {data bytes : Bytes} {offset count : ℕ}
    (h : subspan data offset count = .ok bytes) : bytes.length = count := by
  obtain ⟨hroom, rfl⟩ := subspan_eq_ok.mp h
  rw [List.length_take, List.length_drop]
  omega

/-- A value that passes its check has its extent also without what follows it. -/
theorem plainValueExtent_of_check {id : FieldId} {attr : Attribute} {rest value : Bytes}
    {extent : FieldExtent} (hplain : holdsArray id attr = false)
    (hextent : plainValueExtent options id attr rest = .ok extent) (hlen : value.length = extent.bytes)
    (hcheck : checkPlainValue options id attr value = .ok ()) :
    ∃ exact, plainValueExtent options id attr value = .ok exact ∧ value.length = exact.bytes := by
  unfold plainValueExtent at hextent ⊢
  split at hextent
  · next hbase =>
    have hid : id ≠ arrayId := by
      rintro rfl
      simp [holdsArray, hbase.1] at hplain
    rw [checkPlainValue, if_neg hid, validateWireAttribute] at hcheck
    split at hcheck
    · cases hcheck
    · rw [if_pos hbase.1, if_pos hbase.2] at hcheck
      rw [if_pos hbase]
      exact wireStructureExtent_of_validate hcheck
  · next hscalar =>
    obtain rfl := Except.ok.inj hextent
    exact ⟨_, if_neg hscalar, hlen⟩

/-- The extent provider charges work and, for an array, presents the elements of that array. -/
theorem provider_eq_ok (hnested : TilesWhatItWalks options nested) {h : Header} {body : Bytes}
    {origin : ℕ} {path : Path} {s s' : Walked σ} {id : FieldId} {attr : Attribute} {offset : ℕ}
    {extent : FieldExtent}
    (hok : provider nested options h body origin path s id attr offset = .ok (extent, s')) :
    placeOf h offset + extent.bytes ≤ body.length ∧ ∃ inner, Presents s s' inner ∧
      ∀ rest pending more,
        ValuesTile options (origin + placeOf h offset + extent.bytes) path rest pending more →
        ValuesTile options (origin + placeOf h offset) path
          ((body.drop (placeOf h offset)).take extent.bytes ++ rest) ((id, attr) :: pending)
          (inner ++ elementOf options path id attr (origin + placeOf h offset)
            ((body.drop (placeOf h offset)).take extent.bytes) :: more) := by
  simp only [provider, bind_eq_ok, rejectIf_eq_ok] at hok
  obtain ⟨_, hplace, hok⟩ := hok
  split at hok
  · next harray =>
    simp only [bind_eq_ok, Prod.exists, rejectIf_eq_ok, pure_eq_ok, Except.ok.injEq,
      Prod.mk.injEq] at hok
    obtain ⟨size, t, hwalk, _, hroom, work, hcharge, rfl, rfl⟩ := hok
    obtain ⟨-, inner, htiles, hpresents⟩ := hnested hwalk
    refine ⟨by simp only; omega, inner, ?_, fun rest pending more hrest => ?_⟩
    · simpa using hpresents.trans (Presents.ofCharged (Charged.ofWork hcharge))
    · refine ValuesTile.array harray htiles ?_
      have hlen : ((body.drop (placeOf h offset)).take size).length = size := by
        rw [List.length_take, List.length_drop]
        omega
      rw [hlen]
      exact hrest
  · next hplain =>
    simp only [bind_eq_ok, rejectIf_eq_ok, pure_eq_ok, Except.ok.injEq, Prod.mk.injEq] at hok
    obtain ⟨extent, hextent, _, hroom, value, hvalue, _, hcheck, work, hcharge, rfl, rfl⟩ := hok
    have hlen := length_subspan hvalue
    obtain ⟨hinside, rfl⟩ := subspan_eq_ok.mp hvalue
    have hplain := Bool.eq_false_iff.mpr hplain
    obtain ⟨exact, hexact, hbytes⟩ := plainValueExtent_of_check hplain hextent hlen hcheck
    refine ⟨hinside, [], Presents.ofCharged (Charged.ofWork hcharge), fun rest pending more hrest => ?_⟩
    refine ValuesTile.plain hplain hexact hbytes hcheck ?_
    rw [hlen]
    exact hrest

/-- One value: the elements it presents, and how it begins a tiling. -/
theorem value_tiles (hnested : TilesWhatItWalks options nested) {h : Header} {body : Bytes}
    {origin : ℕ} {path : Path} {budget : Budget} {id : FieldId} {attr : Attribute}
    {s s' : WalkState (Walked σ)}
    (hok : (recordWalk nested visitor options h body origin path budget).element id s attr = .ok s') :
    ∃ size elements, s'.offset = s.offset + size ∧ placeOf h s.offset + size ≤ body.length ∧
      Presents s.visited s'.visited elements ∧ ∀ rest pending more,
        ValuesTile options (origin + placeOf h s.offset + size) path rest pending more →
        ValuesTile options (origin + placeOf h s.offset) path
          ((body.drop (placeOf h s.offset)).take size ++ rest) ((id, attr) :: pending)
          (elements ++ more) := by
  simp only [FieldWalk.element, recordWalk, present, bind_eq_ok, Prod.exists, pure_eq_ok,
    Except.ok.injEq, Result.decoded_eq_ok, checkedAdd_eq_ok] at hok
  obtain ⟨extent, t, hprovider, next, ⟨-, rfl⟩, _, -, _, ⟨views, hviews, value, hvalue, visited, -,
    rfl⟩, rfl⟩ := hok
  obtain ⟨hinside, inner, hpresents, htile⟩ := provider_eq_ok hnested hprovider
  obtain ⟨-, rfl⟩ := subspan_eq_ok.mp hvalue
  refine ⟨extent.bytes, inner ++ [elementOf options path id attr (origin + placeOf h s.offset)
    ((body.drop (placeOf h s.offset)).take extent.bytes)], rfl, hinside, ?_,
    fun rest pending more hrest => ?_⟩
  · exact hpresents.trans ⟨rfl, 0, 0, Charged.ofViews hviews⟩
  · rw [List.append_assoc]
    exact htile rest pending more hrest

theorem placeOf_add {h : Header} {offset : ℕ} (hoffset : h.plan.bytes ≤ offset) (size : ℕ) :
    placeOf h (offset + size) = placeOf h offset + size := by
  unfold placeOf
  omega

/-- The values from one place of the record to another. -/
theorem values_tile (hnested : TilesWhatItWalks options nested) {h : Header} {body : Bytes}
    {origin : ℕ} {path : Path} {budget : Budget} {pending : List (FieldId × Attribute)}
    {s s' : WalkState (Walked σ)} (hoffset : h.plan.bytes ≤ s.offset)
    (hok : pending.foldlM (fun t e =>
      (recordWalk nested visitor options h body origin path budget).element e.1 t e.2) s = .ok s') :
    ∃ size elements, s'.offset = s.offset + size ∧
      (placeOf h s.offset ≤ body.length → placeOf h s.offset + size ≤ body.length) ∧
      Presents s.visited s'.visited elements ∧
      ValuesTile options (origin + placeOf h s.offset) path
        ((body.drop (placeOf h s.offset)).take size) pending elements := by
  induction pending generalizing s with
  | nil =>
    obtain rfl := Except.ok.inj hok
    refine ⟨0, [], rfl, id, ⟨(List.append_nil _).symm, 0, 0, Charged.refl _⟩, ?_⟩
    rw [List.take_zero]
    exact ValuesTile.nil
  | cons e pending ih =>
    rw [List.foldlM_cons, bind_eq_ok] at hok
    obtain ⟨t, hfirst, hrest⟩ := hok
    obtain ⟨size, elements, hnext, hinside, hpresents, htile⟩ := value_tiles hnested hfirst
    obtain ⟨size', elements', hlast, hinside', hpresents', htiles'⟩ :=
      ih (hnext ▸ Nat.le_add_right_of_le hoffset) hrest
    rw [hnext, placeOf_add hoffset] at hinside' htiles'
    rw [← Nat.add_assoc] at htiles'
    refine ⟨size + size', elements ++ elements', by omega, fun _ => ?_, hpresents.trans hpresents', ?_⟩
    · have := hinside' hinside
      omega
    · have := htile _ _ _ htiles'
      rwa [← List.drop_drop, ← List.take_add] at this

/-! ## Records and arrays -/

/-- One record: its index word and values, and nothing else. -/
theorem record_tiles (hnested : TilesWhatItWalks options nested) {h : Header} {bytes : Bytes}
    (hsized : h.Sized bytes) {origin : ℕ} {path : Path} {s s' : Walked σ} {record : ℕ}
    (hok : walkRecord nested visitor options h bytes origin path s record = .ok s') :
    ∃ elements, Presents s s' elements ∧ 32 + (record + 1) * (h.words * 4) ≤ bytes.length ∧
      ∀ rest more,
        RecordsTile options h (record + 1) (origin + 32 + (record + 1) * (h.words * 4)) path rest more →
        RecordsTile options h record (origin + 32 + record * (h.words * 4)) path
          ((bytes.drop (32 + record * (h.words * 4))).take (h.words * 4) ++ rest) (elements ++ more) := by
  simp only [walkRecord, bind_eq_ok, rejectIf_eq_ok, pure_eq_ok, Except.ok.injEq, ne_eq,
    Decidable.not_not, Nat.mul_assoc] at hok
  obtain ⟨body, hbody, index, hindex, work, hwork, fields, hfields, measured, hrun, _, hsize, rfl⟩ :=
    hok
  have hlength := length_subspan hbody
  obtain ⟨hroom, rfl⟩ := subspan_eq_ok.mp hbody
  have hsplit := (wordAt_eq_some_iff _ _ _).mp (load32_eq_ok.mp hindex)
  rw [List.drop_zero, Nat.zero_add] at hsplit
  have hfour := le_length_of_wordAt (load32_eq_ok.mp hindex)
  obtain ⟨size, elements, hlast, hinside, hpresents, htiles⟩ := values_tile hnested
    (Nat.le_of_eq hsized.plan) (FieldWalk.foldlM_of_run hrun)
  have hplace : placeOf h (indicatorCount (h.plan.cif 0) * 4) = 4 := by
    unfold placeOf
    rw [hsized.plan]
    omega
  simp only [hplace] at hinside htiles hlast
  -- The values end with the record.
  have hall : size = h.words * 4 - 4 := by
    rw [hlast, ← hsized.plan, hlength] at hsize
    omega
  have htake : ((List.take (h.words * 4) (List.drop (32 + record * (h.words * 4)) bytes)).drop 4).take
      size = (List.take (h.words * 4) (List.drop (32 + record * (h.words * 4)) bytes)).drop 4 := by
    refine List.take_of_length_le ?_
    rw [List.length_drop, hlength, hall]
  rw [htake] at htiles
  refine ⟨elements, ?_, ?_, fun rest more hrest => ?_⟩
  · have hcharged := (Charged.ofWork hwork).trans (Charged.ofFields (b := { s.budget with work }) hfields)
    exact (Presents.ofCharged hcharged).trans hpresents
  · rw [Nat.succ_mul]
    omega
  · rw [hsplit]
    refine RecordsTile.cons ?_ (by rwa [← Nat.add_assoc] at htiles) ?_
    · rw [← hsplit, hlength]
    · rw [Nat.succ_mul, ← Nat.add_assoc] at hrest
      exact hrest

/-- The records from one ordinal on. -/
theorem records_tile (hnested : TilesWhatItWalks options nested) {h : Header} {bytes : Bytes}
    (hsized : h.Sized bytes) {origin : ℕ} {path : Path} {count first : ℕ}
    (hlast : first + count = h.records) {s s' : Walked σ}
    (hok : (List.range' first count).foldlM
      (walkRecord nested visitor options h bytes origin path) s = .ok s') :
    ∃ elements, Presents s s' elements ∧
      RecordsTile options h first (origin + 32 + first * (h.words * 4)) path
        ((bytes.drop (32 + first * (h.words * 4))).take (count * (h.words * 4))) elements := by
  induction count generalizing first s with
  | zero =>
    obtain rfl := Except.ok.inj hok
    refine ⟨[], ⟨(List.append_nil _).symm, 0, 0, Charged.refl _⟩, ?_⟩
    rw [Nat.zero_mul, List.take_zero, show first = h.records by omega]
    exact RecordsTile.nil
  | succ count ih =>
    rw [List.range'_succ, List.foldlM_cons, bind_eq_ok] at hok
    obtain ⟨t, hfirst, hrest⟩ := hok
    obtain ⟨elements, hpresents, -, htile⟩ := record_tiles hnested hsized hfirst
    obtain ⟨elements', hpresents', htiles'⟩ := ih (by omega) hrest
    refine ⟨elements ++ elements', hpresents.trans hpresents', ?_⟩
    have := htile _ _ htiles'
    have hdrop : bytes.drop (32 + (first + 1) * (h.words * 4)) =
        (bytes.drop (32 + first * (h.words * 4))).drop (h.words * 4) := by
      rw [List.drop_drop, Nat.succ_mul, Nat.add_assoc]
    rw [hdrop, ← List.take_add, Nat.add_comm (h.words * 4), ← Nat.succ_mul] at this
    exact this

/-- An array whose header is known: its records tile the rest. -/
theorem walkRecords_tiles (hnested : TilesWhatItWalks options nested) {h : Header} {bytes : Bytes}
    (hheader : header bytes options = .ok h) {origin : ℕ} {path : Path} {s s' : Walked σ} {size : ℕ}
    (hok : walkRecords nested visitor options h bytes origin path s = .ok (size, s')) :
    size ≤ bytes.length ∧
      ∃ elements, ArrayTiles options origin path (bytes.take size) elements ∧ Presents s s' elements := by
  have hsized := header_sized hheader
  simp only [walkRecords, bind_eq_ok, pure_eq_ok, Except.ok.injEq, Prod.mk.injEq] at hok
  obtain ⟨_, -, work, hwork, t, hfold, rfl, rfl⟩ := hok
  rw [List.range_eq_range'] at hfold
  obtain ⟨elements, hpresents, htiles⟩ := records_tile hnested hsized (Nat.zero_add _) hfold
  rw [Nat.zero_mul, Nat.add_zero, Nat.add_zero] at htiles
  refine ⟨hsized.inside, elements, ?_, (Presents.ofCharged (Charged.ofWork hwork)).trans hpresents⟩
  have hsplit : bytes.take h.bytes =
      bytes.take 32 ++ (bytes.drop 32).take (h.records * (h.words * 4)) := by
    rw [hsized.eq, List.take_add]
  have hlength : (bytes.take h.bytes).length = h.bytes := by
    rw [List.length_take]
    exact Nat.min_eq_left hsized.inside
  have htake := header_take hheader
  rw [hsplit] at htake hlength ⊢
  refine ArrayTiles.intro htake ?_ hlength htiles
  have hinside := hsized.inside
  rw [hsized.eq] at hinside
  rw [List.length_take]
  omega

/-- A walk that succeeds has presented the elements of a tiling, each for one view. -/
theorem walk_tiles (visitor : σ → Element → Decoded σ) (options : Options) (levels : ℕ) :
    TilesWhatItWalks options (walk visitor options levels) := by
  induction levels with
  | zero =>
    intro bytes origin path s size s' h
    cases h
  | succ levels ih =>
    intro bytes origin path s size s' hok
    rw [walk, bind_eq_ok] at hok
    obtain ⟨h, hheader, hok⟩ := hok
    exact walkRecords_tiles ih hheader hok

/-! ## Five levels are enough -/

theorem inside_charge {used limit amount : ℕ} : Inside (charge used limit amount) := by
  simp [charge, resourceLimit]

theorem inside_selectElements {ids : List FieldId} : Inside (ids.foldlM selectElement []) := by
  refine avoids_foldlM (fun _ => True) trivial (fun _ _ _ _ _ _ => trivial) fun id selected _ _ => ?_
  simp [selectElement, resourceLimit]

/-- Nothing outside the field is read for the header. -/
theorem inside_header (bytes : Bytes) (options : Options) : Inside (header bytes options) := by
  simp only [header, readCifs, avoids_bind, avoids_rejectIf, ne_eq, reduceCtorEq, not_false_eq_true,
    implies_true, true_and, rejectIf_eq_ok, inside_load32, inside_decoded, inside_selectElements,
    pure_eq_ok, avoids_ok, and_true, Result.decoded_eq_ok, checkedAdd_eq_ok, checkedMultiply_word,
    Except.ok.injEq, not_or, Decidable.not_not]
  intro _ _ _ hshort
  refine ⟨by omega, fun total _ => ⟨by omega, fun header1 _ => ⟨by omega, ?_⟩⟩⟩
  intro third _ _ _ product _ words hwords _ hsame extent hextent _ hroom
  have hsize : 32 ≤ bytes.length := by omega
  refine ⟨by omega, fun _ _ => ⟨by omega, fun _ _ => ⟨by omega, fun _ _ => ⟨by omega, ?_⟩⟩⟩⟩
  intro _ _
  omega

theorem inside_plainValueExtent (options : Options) (id : FieldId) (attr : Attribute)
    (rest : Bytes) : Inside (plainValueExtent options id attr rest) := by
  simp [plainValueExtent, inside_wireStructureExtent]

/-- A value without nested arrays is checked within its own bytes. -/
theorem inside_checkPlainValue {id : FieldId} {attr : Attribute} {rest bytes : Bytes}
    {extent : FieldExtent} (hplain : ¬holdsArray id attr)
    (hextent : plainValueExtent options id attr rest = .ok extent)
    (hlen : bytes.length = extent.bytes) : Inside (checkPlainValue options id attr bytes) := by
  unfold checkPlainValue
  split
  · next hid =>
    have hbase : ¬attr.base := fun hbase => hplain (by simp [holdsArray, hid, hbase])
    simp [inside_readAttributeScalar hbase]
  · next hid =>
    refine inside_validateWireAttribute fun hbase hscalar d hd => ?_
    rw [plainValueExtent, if_neg fun h => hscalar h.2, if_pos hbase, resolve, if_neg hid, hd] at hextent
    obtain rfl := Except.ok.inj hextent
    exact hlen

theorem inside_checkExtent {limits : TraversalLimits} {id : FieldId} {attr : Attribute}
    {extent : FieldExtent} {offset work : ℕ} :
    Inside (checkExtent limits id attr extent offset work) := by
  simp [checkExtent]

theorem inside_subspan {data : Bytes} {offset count : ℕ} (h : offset + count ≤ data.length) :
    Inside (subspan data offset count) := by
  rw [subspan, if_pos h]
  exact avoids_ok _

/-- The nested walks of records below a path stay inside. -/
def InsideBelow (nested : Walker σ) (path : Path) : Prop :=
  ∀ (step : PathStep) (bytes : Bytes) (origin : ℕ) (s : Walked σ),
    Inside (nested bytes origin (path ++ [step]) s)

theorem inside_provider {path : Path}
    (hnested : ∀ (bytes : Bytes) (origin : ℕ) (s : Walked σ), Inside (nested bytes origin path s))
    {h : Header} {body : Bytes} {origin : ℕ} {s : Walked σ} {id : FieldId} {attr : Attribute}
    {offset : ℕ} : Inside (provider nested options h body origin path s id attr offset) := by
  simp only [provider, avoids_bind, avoids_rejectIf, avoids_ite, ne_eq, reduceCtorEq, not_false_eq_true,
    implies_true, true_and, rejectIf_eq_ok, hnested, inside_charge, pure_eq_ok, avoids_ok, and_true,
    inside_plainValueExtent]
  intro _ hplace hplain extent hextent _ hroom
  refine ⟨inside_subspan (by omega), fun bytes hbytes => ?_⟩
  exact inside_checkPlainValue hplain hextent (length_subspan hbytes)

/-- The provider accepts an extent that fits in the record. -/
theorem provider_room {h : Header} {body : Bytes} {origin : ℕ} {path : Path} {s s' : Walked σ}
    {id : FieldId} {attr : Attribute} {offset : ℕ} {extent : FieldExtent}
    (hok : provider nested options h body origin path s id attr offset = .ok (extent, s')) :
    placeOf h offset + extent.bytes ≤ body.length := by
  simp only [provider, bind_eq_ok, rejectIf_eq_ok] at hok
  obtain ⟨_, hplace, hok⟩ := hok
  split at hok <;> simp only [bind_eq_ok, Prod.exists, rejectIf_eq_ok, pure_eq_ok, Except.ok.injEq,
    Prod.mk.injEq] at hok
  · obtain ⟨size, _, -, _, hroom, _, -, rfl, -⟩ := hok
    simp only
    omega
  · obtain ⟨_, -, _, hroom, _, -, _, -, _, -, rfl, -⟩ := hok
    omega

theorem inside_element (hvisitor : ∀ v e, Inside (visitor v e)) {path : Path}
    (hnested : ∀ (bytes : Bytes) (origin : ℕ) (s : Walked σ), Inside (nested bytes origin path s))
    {h : Header} {body : Bytes} {origin : ℕ} {budget : Budget} {id : FieldId} {attr : Attribute}
    {s : WalkState (Walked σ)} :
    Inside ((recordWalk nested visitor options h body origin path budget).element id s attr) := by
  simp only [FieldWalk.element, recordWalk, present, avoids_bind, inside_provider hnested, inside_decoded,
    inside_checkExtent, inside_charge, hvisitor, pure_eq_ok, avoids_ok, implies_true, true_and, and_true,
    Prod.forall]
  intro extent t hprovider _ _ _ _ _ _
  exact inside_subspan (provider_room hprovider)

/-- The walk of one record reads only its own bytes, if the nested walks do. -/
theorem inside_walkRecord (hvisitor : ∀ v e, Inside (visitor v e)) {path : Path}
    (hnested : InsideBelow nested path) {h : Header} {bytes : Bytes} (hsized : h.Sized bytes)
    {origin : ℕ} {s : Walked σ} {record : ℕ} (hrecord : record < h.records) :
    Inside (walkRecord nested visitor options h bytes origin path s record) := by
  have hwords := hsized.words (by omega)
  have hroom : 32 + record * h.words * 4 + h.words * 4 ≤ bytes.length := by
    have hle : (record + 1) * (h.words * 4) ≤ h.records * (h.words * 4) :=
      Nat.mul_le_mul_right _ hrecord
    have hinside := hsized.inside
    rw [hsized.eq] at hinside
    rw [Nat.succ_mul, ← Nat.mul_assoc] at hle
    omega
  have hrun : ∀ (body : Bytes) (start : ℕ) (index : UInt32) (plan : IndicatorPlan) (t : Walked σ),
      Inside ((recordWalk nested visitor options h body start
        (path ++ [{ ordinal := record, index }]) s.budget).run plan t) := by
    intro body start index plan t
    refine avoids_foldlM (fun _ => True) trivial (fun _ _ _ _ _ _ => trivial) fun id u _ _ => ?_
    unfold FieldWalk.field
    split
    · simp
    · simp only [avoids_bind, avoids_rejectIf, ne_eq, reduceCtorEq, not_false_eq_true, implies_true,
        true_and]
      intro _ _
      exact avoids_foldlM (fun _ => True) trivial (fun _ _ _ _ _ _ => trivial)
        fun attr v _ _ => inside_element hvisitor fun _ _ _ => hnested _ _ _ _
  simp only [walkRecord, avoids_bind, inside_subspan hroom, inside_charge, inside_load32, hrun,
    avoids_rejectIf, ne_eq, reduceCtorEq, not_false_eq_true, implies_true, pure_eq_ok, avoids_ok,
    true_and, and_true]
  intro body hbody
  rw [length_subspan hbody]
  omega

theorem inside_walkRecords (hvisitor : ∀ v e, Inside (visitor v e)) {path : Path}
    (hnested : path.length < 4 → InsideBelow nested path) {h : Header} {bytes : Bytes}
    (hsized : h.Sized bytes) {origin : ℕ} {s : Walked σ} :
    Inside (walkRecords nested visitor options h bytes origin path s) := by
  simp only [walkRecords, avoids_bind, avoids_rejectIf, resourceLimit, ne_eq, reduceCtorEq,
    not_false_eq_true, implies_true, true_and, rejectIf_eq_ok, inside_charge, pure_eq_ok, avoids_ok,
    and_true, not_or, Nat.not_le]
  rintro _ ⟨hdepth, -⟩ work _
  refine avoids_foldlM (fun _ => True) trivial (fun _ _ _ _ _ _ => trivial) fun record t hmem _ => ?_
  exact inside_walkRecord hvisitor (hnested hdepth) hsized (List.mem_range.mp hmem)

/-- Walks of four nested arrays find the fifth level too deep, and none of them reads outside. -/
theorem inside_walk (hvisitor : ∀ v e, Inside (visitor v e)) (options : Options) {levels : ℕ}
    {path : Path} (hlevels : maxLevels ≤ levels + path.length) (hpath : path.length ≤ 4)
    (bytes : Bytes) (origin : ℕ) (s : Walked σ) :
    Inside (walk visitor options levels bytes origin path s) := by
  induction levels generalizing path bytes origin s with
  | zero =>
    unfold maxLevels at hlevels
    omega
  | succ levels ih =>
    rw [walk]
    refine avoids_bind.mpr ⟨inside_header bytes options, fun h hheader => ?_⟩
    refine inside_walkRecords hvisitor (fun hdepth step bytes origin s => ?_) (header_sized hheader)
    refine ih ?_ ?_ bytes origin s
    · rw [List.length_append, List.length_singleton]
      omega
    · rw [List.length_append, List.length_singleton]
      omega

end Walk

/-! ## Visitors that do not fail -/

/-- A loop over a state that another one only reads off. -/
theorem foldlM_map_state {ε α τ τ' : Type} {f : τ → α → Except ε τ} {g : τ' → α → Except ε τ'}
    (φ : τ → τ') (h : ∀ t a, g (φ t) a = φ <$> f t a) (l : List α) (t : τ) :
    l.foldlM g (φ t) = φ <$> l.foldlM f t := by
  induction l generalizing t with
  | nil => rfl
  | cons a l ih =>
    rw [List.foldlM_cons, List.foldlM_cons, h, bind_map_left, map_bind]
    exact bind_congr fun t' => ih t'

section Attach

variable {σ : Type} {options : Options} {step : σ → Element → σ} {initial : σ}

/-- A visitor that never fails. -/
def total (step : σ → Element → σ) (s : σ) (e : Element) : Decoded σ := return step s e

/-- The state of a walk with a visitor, from the elements presented so far. -/
def attach (step : σ → Element → σ) (initial : σ) (s : Walked Unit) : Walked σ :=
  { budget := s.budget, visited := s.presented.foldl step initial, presented := s.presented }

/-- Both walkers do the same; one of them also keeps the visitor's state. -/
def Agree (step : σ → Element → σ) (initial : σ) (nested : Walker σ) (bare : Walker Unit) : Prop :=
  ∀ (bytes : Bytes) (origin : ℕ) (path : Path) (s : Walked Unit),
    nested bytes origin path (attach step initial s) =
      (fun r => (r.1, attach step initial r.2)) <$> bare bytes origin path s

/-- The extent of a field does not depend on what the walk visits. -/
theorem provider_attach {nested : Walker σ} {bare : Walker Unit} (hagree : Agree step initial nested bare)
    (h : Header) (body : Bytes) (origin : ℕ) (path : Path) (s : Walked Unit) (id : FieldId)
    (attr : Attribute) (offset : ℕ) :
    provider nested options h body origin path (attach step initial s) id attr offset =
      (fun r => (r.1, attach step initial r.2)) <$>
        provider bare options h body origin path s id attr offset := by
  unfold provider
  rw [map_bind]
  refine bind_congr fun _ => ?_
  split
  · rw [hagree, bind_map_left, map_bind]
    refine bind_congr fun r => ?_
    rw [map_bind]
    refine bind_congr fun _ => ?_
    rw [map_bind]
    rfl
  · rw [map_bind]
    refine bind_congr fun extent => ?_
    rw [map_bind]
    refine bind_congr fun _ => ?_
    rw [map_bind]
    refine bind_congr fun bytes => ?_
    rw [map_bind]
    refine bind_congr fun _ => ?_
    rw [map_bind]
    rfl

theorem present_attach (h : Header) (body : Bytes) (origin : ℕ) (path : Path) (s : Walked Unit)
    (e : LayoutElement) :
    present (total step) options h body origin path (attach step initial s) e =
      attach step initial <$> present noop options h body origin path s e := by
  simp [present, total, noop, attach]

def attachState (step : σ → Element → σ) (initial : σ) (s : WalkState (Walked Unit)) :
    WalkState (Walked σ) :=
  { offset := s.offset, work := s.work, visited := attach step initial s.visited }

section Agree

variable {nested : Walker σ} {bare : Walker Unit} (hagree : Agree step initial nested bare)
include hagree

theorem element_attach (h : Header) (body : Bytes) (origin : ℕ) (path : Path) (budget : Budget)
    (id : FieldId) (s : WalkState (Walked Unit)) (attr : Attribute) :
    (recordWalk nested (total step) options h body origin path budget).element id
        (attachState step initial s) attr =
      attachState step initial <$>
        (recordWalk bare noop options h body origin path budget).element id s attr := by
  simp only [FieldWalk.element, recordWalk, attachState, provider_attach hagree, bind_map_left, map_bind]
  refine bind_congr fun r => bind_congr fun next => bind_congr fun _ => ?_
  rw [present_attach, bind_map_left]
  rfl

/-- What a walk carries along does not change what it finds in a record. -/
theorem run_attach (h : Header) (body : Bytes) (origin : ℕ) (path : Path) (budget : Budget)
    (plan : IndicatorPlan) (s : Walked Unit) :
    (recordWalk nested (total step) options h body origin path budget).run plan
        (attach step initial s) =
      attachState step initial <$>
        (recordWalk bare noop options h body origin path budget).run plan s := by
  refine foldlM_map_state (attachState step initial) (fun t id => ?_) plan.selected
    { offset := indicatorCount (plan.cif 0) * 4, work := 0, visited := s }
  unfold FieldWalk.field
  split
  · rfl
  · rw [map_bind]
    refine bind_congr fun _ => ?_
    exact foldlM_map_state (attachState step initial)
      (element_attach hagree h body origin path budget id) _ _

theorem walkRecord_attach (h : Header) (bytes : Bytes) (origin : ℕ) (path : Path) (s : Walked Unit)
    (record : ℕ) :
    walkRecord nested (total step) options h bytes origin path (attach step initial s) record =
      attach step initial <$> walkRecord bare noop options h bytes origin path s record := by
  simp only [walkRecord, map_bind]
  refine bind_congr fun body => bind_congr fun index => bind_congr fun work => bind_congr fun fields => ?_
  change ((recordWalk nested (total step) options h body _ _ s.budget).run h.plan
    (attach step initial { s with budget := { s.budget with work, fields } }) >>= _) = _
  rw [run_attach hagree, bind_map_left]
  rfl

/-- What a walk carries along does not change what it finds in the records of an array. -/
theorem walkRecords_attach (h : Header) (bytes : Bytes) (origin : ℕ) (path : Path)
    (s : Walked Unit) :
    walkRecords nested (total step) options h bytes origin path (attach step initial s) =
      (fun r => (r.1, attach step initial r.2)) <$>
        walkRecords bare noop options h bytes origin path s := by
  simp only [walkRecords, map_bind]
  refine bind_congr fun _ => bind_congr fun work => ?_
  change ((List.range h.records).foldlM (walkRecord nested (total step) options h bytes origin path)
    (attach step initial { s with budget := { s.budget with work } }) >>= _) = _
  rw [foldlM_map_state (attach step initial) (walkRecord_attach hagree h bytes origin path),
    bind_map_left]
  rfl

end Agree

/-- A walk with a visitor that does not fail is the walk without one, with the visitor's state next to
it. -/
theorem walk_attach (step : σ → Element → σ) (initial : σ) (options : Options) (levels : ℕ) :
    Agree step initial (walk (total step) options levels) (walk noop options levels) := by
  induction levels with
  | zero => exact fun _ _ _ _ => rfl
  | succ levels ih =>
    intro bytes origin path s
    simp only [walk, map_bind]
    exact bind_congr fun h => walkRecords_attach ih h bytes origin path s

end Attach

/-! ## Validation and visits -/

theorem inside_noop (v : Unit) (e : Element) : Inside (noop v e) := avoids_ok _

theorem inside_validateCandidate (bytes : Bytes) (options : Options) (shared : Budget) :
    Inside (validateCandidate bytes options shared) := by
  simp only [validateCandidate, avoids_bind, inside_header, avoids_rejectIf, inside_charge, ne_eq,
    reduceCtorEq, not_false_eq_true, implies_true, pure_eq_ok, avoids_ok, true_and, and_true]
  intro parsed hparsed _ _ fields _
  refine inside_walkRecords inside_noop (fun _ step bytes origin s => ?_) (header_sized hparsed)
  exact inside_walk inside_noop options (by simp [maxLevels]) (by simp) bytes origin s

/-- What a validation that succeeds has seen. -/
structure Validated (bytes : Bytes) (options : Options) (shared candidate : Budget) (view : View) :
    Prop where
  wire : view.bytes = bytes
  tiles : ArrayTiles options 0 [] bytes view.walked
  charged : ∃ fields work, Charged shared candidate fields view.walked.length work
  visit : ∀ {σ : Type} (step : σ → Element → σ) (initial : σ),
    view.visit (fun s e => .ok (step s e)) initial = .ok (view.walked.foldl step initial)

/-- What is validated on a copy of the budget is tiled, and costs what the budget counts. -/
theorem validateCandidate_validated {bytes : Bytes} {options : Options} {shared candidate : Budget}
    {view : View} (h : validateCandidate bytes options shared = .ok (view, candidate)) :
    Validated bytes options shared candidate view := by
  simp only [validateCandidate, bind_eq_ok, Prod.exists, rejectIf_eq_ok, ne_eq, Decidable.not_not,
    pure_eq_ok, Except.ok.injEq, Prod.mk.injEq] at h
  obtain ⟨parsed, hparsed, _, -, fields, hfields, walked, s, hwalk, _, rfl, rfl, rfl⟩ := h
  obtain ⟨-, elements, htiles, hpresents⟩ :=
    walkRecords_tiles (walk_tiles noop options (maxLevels - 1)) hparsed hwalk
  have hpresented : s.presented = elements := hpresents.presented
  rw [List.take_length, ← hpresented] at htiles
  obtain ⟨fields', work, hcharged⟩ := hpresents.charged
  rw [← hpresented] at hcharged
  refine ⟨rfl, htiles, ⟨1 + fields', 0 + work, ?_⟩, fun {σ} step initial => ?_⟩
  · simpa using (Charged.ofFields hfields).trans hcharged
  · have hbare : walk noop options maxLevels bytes 0 [] { budget := { shared with fields }, visited := () } =
        .ok (bytes.length, s) := by
      rw [maxLevels, walk, hparsed]
      exact hwalk
    have hvisit := walk_attach step initial options maxLevels bytes 0 []
      { budget := { shared with fields }, visited := () }
    rw [hbare] at hvisit
    change (walk (total step) options maxLevels bytes 0 []
      (attach step initial { budget := { shared with fields }, visited := () }) >>= _) = _
    rw [hvisit]
    rfl

/-- Inspection of any bytes with any options and budget returns and reads no byte outside them. A
validation that fails leaves the shared budget alone. One that succeeds has walked a tiling of the
bytes within what the budget had left, and a visitor that never fails is then presented with exactly
the elements of that tiling. -/
theorem validate_exact (bytes : Bytes) (options : Options) (shared : Budget) :
    Inside (validate bytes options shared).1 ∧
    (∀ e, (validate bytes options shared).1 = .error e → (validate bytes options shared).2 = shared) ∧
    ∀ view, (validate bytes options shared).1 = .ok view →
      Validated bytes options shared (validate bytes options shared).2 view := by
  have hinside := inside_validateCandidate bytes options shared
  cases hrun : validateCandidate bytes options shared with
  | error e =>
    have hvalidate : validate bytes options shared = (.error e, shared) := by simp only [validate, hrun]
    rw [hrun] at hinside
    rw [hvalidate]
    exact ⟨avoids_error.mpr (avoids_error.mp hinside), fun _ _ => rfl, fun view hview => by cases hview⟩
  | ok r =>
    obtain ⟨view, candidate⟩ := r
    have hvalidate : validate bytes options shared = (.ok view, candidate) := by
      simp only [validate, hrun]
    rw [hvalidate]
    refine ⟨avoids_ok _, ?_, ?_⟩
    · intro e he
      cases he
    · intro view' hview
      obtain rfl := Except.ok.inj hview
      exact validateCandidate_validated hrun

/-- One record whose only value is an array without records. -/
def nestedArray : Bytes :=
  putWords [17, 0x07009001, 0, 2, 0x800, 0, 0, 0, 5, 8, 0x07000000, 0, 0, 0, 0, 0, 0]

theorem validate_exact_nestedArray :
    ∃ view, (validate nestedArray ⟨{}⟩ {}).1 = .ok view ∧ view.walked.length = 1 ∧
      Validated nestedArray ⟨{}⟩ {} (validate nestedArray ⟨{}⟩ {}).2 view := by
  have hrun : ∃ view, (validate nestedArray ⟨{}⟩ {}).1 = .ok view ∧ view.walked.length = 1 := by
    have hdec : (match (validate nestedArray ⟨{}⟩ {}).1 with
        | .ok view => decide (view.walked.length = 1)
        | .error _ => false) = true := by decide +kernel
    split at hdec
    · next view hview => exact ⟨view, hview, of_decide_eq_true hdec⟩
    · cases hdec
  obtain ⟨view, hview, hlen⟩ := hrun
  exact ⟨view, hview, hlen, (validate_exact nestedArray ⟨{}⟩ {}).2.2 view hview⟩

end Vita.Codec.ArrayCif
