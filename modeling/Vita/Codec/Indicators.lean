import Vita.Codec.Tiling

/-!
# Indicator words are read back

The words a builder computes for its fields, as `write_indicators` writes them, are parsed into the
same fields, attributes and change flag.

Main lemmas:
- `WordsOf`: which bits the words of a well formed snapshot have;
- `parseIndicators_write`: the parser's plan.
-/

namespace Vita.Codec

open Words Checked

/-! ## Bits -/

theorem bit_or (a b : UInt32) (n : ℕ) : bit (a ||| b) n = (bit a n || bit b n) := by
  rw [bit, bit, bit, UInt32.toNat_or, Nat.testBit_or]

theorem bit_zero (n : ℕ) : bit 0 n = false := by
  rw [bit, UInt32.toNat_zero, Nat.zero_testBit]

theorem bit_shiftLeft_one {k : ℕ} (hk : k < 32) (n : ℕ) :
    bit ((1 : UInt32) <<< UInt32.ofNat k) n = decide (n = k) := by
  have hnat : ((1 : UInt32) <<< UInt32.ofNat k).toNat = 2 ^ k := by
    rw [UInt32.toNat_shiftLeft, UInt32.toNat_ofNat_of_lt' (by simp only [UInt32.size]; omega),
      Nat.mod_eq_of_lt hk, Nat.shiftLeft_eq, UInt32.toNat_one, Nat.one_mul, Nat.mod_eq_of_lt]
    exact Nat.pow_lt_pow_right (by omega) hk
  rw [bit, hnat, Nat.testBit_two_pow]
  exact decide_eq_decide.mpr eq_comm

/-- A mask is clear when none of its bits is set. -/
theorem and_eq_zero_of_bits {w mask : UInt32} (h : ∀ n < 32, bit mask n → bit w n = false) :
    w &&& mask = 0 := by
  apply UInt32.toNat_inj.mp
  rw [UInt32.toNat_and]
  apply Nat.eq_of_testBit_eq
  intro n
  rw [Nat.testBit_and, UInt32.toNat_zero, Nat.zero_testBit]
  by_cases hn : n < 32
  · cases hm : mask.toNat.testBit n with
    | false => rw [Bool.and_false]
    | true =>
      have := h n hn hm
      rw [bit] at this
      rw [this, Bool.false_and]
  · have hlt : w.toNat < 2 ^ n := Nat.lt_of_lt_of_le w.toNat_lt (Nat.pow_le_pow_right (by omega) (by omega))
    rw [Nat.testBit_lt_two_pow hlt, Bool.false_and]

theorem bit_and (a b : UInt32) (n : ℕ) : bit (a &&& b) n = (bit a n && bit b n) := by
  rw [bit, bit, bit, UInt32.toNat_and, Nat.testBit_and]

/-! ## The words of a list of fields -/

/-- What the marks of a list of fields set. -/
theorem bit_foldl_markIndicator {ids : List FieldId} (hids : ∀ id ∈ ids, id.cif ≤ 3 ∧ id.bit ≤ 31)
    (cif : ℕ → UInt32) (i n : ℕ) :
    bit (ids.foldl markIndicator cif i) n = (bit (cif i) n || ids.any fun id =>
      decide (i = id.cif ∧ n = id.bit ∨ i = 0 ∧ id.cif ≠ 0 ∧ n = id.cif)) := by
  induction ids generalizing cif with
  | nil => simp
  | cons id ids ih =>
    obtain ⟨hcif, hbit⟩ := hids id (List.mem_cons_self ..)
    have hmark : bit (markIndicator cif id i) n = (bit (cif i) n ||
        decide (i = id.cif ∧ n = id.bit ∨ i = 0 ∧ id.cif ≠ 0 ∧ n = id.cif)) := by
      rw [markIndicator, bit_or]
      by_cases h₁ : i = id.cif <;> by_cases h₂ : i = 0 ∧ id.cif ≠ 0
      · omega
      · rw [if_pos h₁, if_neg h₂, bit_or, bit_shiftLeft_one (by omega), bit_zero, Bool.or_false]
        congr 1
        apply decide_eq_decide.mpr
        constructor
        · exact fun h => .inl ⟨h₁, h⟩
        · rintro (⟨-, h⟩ | ⟨hi, hc, -⟩)
          · exact h
          · exact absurd ⟨hi, hc⟩ h₂
      · rw [if_neg h₁, if_pos h₂, bit_shiftLeft_one (by omega)]
        congr 1
        apply decide_eq_decide.mpr
        constructor
        · exact fun h => .inr ⟨h₂.1, h₂.2, h⟩
        · rintro (⟨h, -⟩ | ⟨-, -, h⟩)
          · exact absurd h h₁
          · exact h
      · rw [if_neg h₁, if_neg h₂, bit_zero]
        congr 1
        refine (decide_eq_false ?_).symm
        rintro (⟨h, -⟩ | ⟨hi, hc, -⟩)
        · exact h₁ h
        · exact h₂ ⟨hi, hc⟩
    rw [List.foldl_cons, ih (fun a ha => hids a (List.mem_cons_of_mem _ ha)), hmark, List.any_cons,
      Bool.or_assoc]

/-- The bits of the words of a well formed snapshot. -/
structure WordsOf (ids : List FieldId) (attributes : UInt32) (cif : ℕ → UInt32) : Prop where
  field : ∀ i n, 1 ≤ i → i ≤ 3 → (bit (cif i) n ↔ ⟨i, n⟩ ∈ ids)
  field0 : ∀ n, 8 ≤ n → (bit (cif 0) n ↔ ⟨0, n⟩ ∈ ids)
  presence : ∀ i, 1 ≤ i → i ≤ 3 → (bit (cif 0) i ↔ ∃ id ∈ ids, id.cif = i)
  announced : bit (cif 0) 7 ↔ attributes ≠ 0
  cif7 : attributes ≠ 0 → cif 7 = attributes
  reserved : ∀ n ∈ [0, 4, 5, 6, 31], bit (cif 0) n = false

/-- The indicator words of a list of fields name these fields and no others. -/
theorem wordsOf_indicatorWords {ids : List FieldId} (hids : ∀ id ∈ ids, validFieldSelector id)
    (attributes : UInt32) : WordsOf ids attributes (indicatorWords ids attributes) := by
  have hbounds : ∀ id ∈ ids, id.cif ≤ 3 ∧ id.bit ≤ 31 ∧ (id.cif = 0 → 8 ≤ id.bit ∧ id.bit ≤ 30) := by
    intro id hid
    have h := hids id hid
    simp only [validFieldSelector, decide_eq_true_eq] at h
    exact h
  have hmarks := bit_foldl_markIndicator (fun id hid => ⟨(hbounds id hid).1, (hbounds id hid).2.1⟩)
    (fun _ => 0)
  simp only [bit_zero, Bool.false_or] at hmarks
  have hword : ∀ i, 1 ≤ i → i ≤ 3 →
      indicatorWords ids attributes i = ids.foldl markIndicator (fun _ => 0) i := by
    intro i h₁ h₃
    unfold indicatorWords
    split
    · show (if i = 0 then _ else if i = 7 then _ else _) = _
      rw [if_neg (by omega), if_neg (by omega)]
    · rfl
  have hzero : ∀ n, bit (indicatorWords ids attributes 0) n =
      (bit (ids.foldl markIndicator (fun _ => 0) 0) n || decide (attributes ≠ 0 ∧ n = 7)) := by
    intro n
    unfold indicatorWords
    split
    · next ha =>
      have h7 : bit ((1 : UInt32) <<< 7) n = decide (n = 7) :=
        bit_shiftLeft_one (by omega : 7 < 32) n
      show bit (_ ||| (1 : UInt32) <<< 7) n = _
      rw [bit_or, h7]
      simp [ha]
    · next ha => simp [ha]
  refine ⟨?_, ?_, ?_, ?_, ?_, ?_⟩
  · intro i n h₁ h₃
    rw [hword i h₁ h₃, hmarks, List.any_eq_true]
    simp only [decide_eq_true_eq]
    constructor
    · rintro ⟨⟨c, b⟩, hid, ⟨rfl, rfl⟩ | ⟨rfl, -⟩⟩
      · exact hid
      · omega
    · exact fun hid => ⟨_, hid, .inl ⟨rfl, rfl⟩⟩
  · intro n hn
    rw [hzero, hmarks, Bool.or_eq_true, List.any_eq_true]
    simp only [decide_eq_true_eq]
    constructor
    · rintro (⟨⟨c, b⟩, hid, ⟨hc, rfl⟩ | ⟨-, hc, hn'⟩⟩ | ⟨-, h7⟩)
      · simp only at hc
        subst hc
        exact hid
      · have := (hbounds _ hid).1
        simp only at this hn'
        omega
      · omega
    · exact fun hid => .inl ⟨_, hid, .inl ⟨rfl, rfl⟩⟩
  · intro i h₁ h₃
    rw [hzero, hmarks, Bool.or_eq_true, List.any_eq_true]
    simp only [decide_eq_true_eq]
    constructor
    · rintro (⟨id, hid, ⟨hc, hb⟩ | ⟨-, -, hn⟩⟩ | ⟨-, h7⟩)
      · have := (hbounds id hid).2.2 hc.symm
        omega
      · exact ⟨id, hid, hn.symm⟩
      · omega
    · rintro ⟨id, hid, rfl⟩
      exact .inl ⟨id, hid, .inr ⟨trivial, by omega, rfl⟩⟩
  · rw [hzero, hmarks, Bool.or_eq_true, List.any_eq_true]
    simp only [decide_eq_true_eq, and_true, true_and]
    constructor
    · rintro (⟨id, hid, ⟨hc, hb⟩ | ⟨-, hn⟩⟩ | h)
      · have := (hbounds id hid).2.2 hc.symm
        omega
      · have := (hbounds id hid).1
        omega
      · exact h
    · exact .inr
  · intro ha
    unfold indicatorWords
    simp [ha]
  · intro n hn
    have hn' : n = 0 ∨ n = 4 ∨ n = 5 ∨ n = 6 ∨ n = 31 := by simpa using hn
    rw [hzero, hmarks, Bool.or_eq_false_iff]
    refine ⟨?_, decide_eq_false (by omega)⟩
    rw [List.any_eq_false]
    intro id hid
    have hb := hbounds id hid
    simp only [decide_eq_true_eq]
    omega

/-! ## Parsing -/

/-- The words that follow the first one are read where they stand. -/
theorem takeCif_fold {data : Bytes} {first : UInt32} {cif : ℕ → UInt32} {l : List ℕ}
    {c : ℕ → UInt32} {o stop : ℕ}
    (h : Segment data o ((l.filter (bit first ·)).flatMap fun i => be32 (cif i)) stop) :
    ∃ c', l.foldlM (takeCif data first) (c, o) = .ok (c', stop) ∧
      ∀ i, c' i = if i ∈ l ∧ bit first i then cif i else c i := by
  induction l generalizing c o with
  | nil =>
    obtain ⟨rfl, -⟩ := Segment.nil_iff.mp h
    exact ⟨c, rfl, by simp⟩
  | cons i l ih =>
    by_cases hbit : bit first i
    · rw [List.filter_cons_of_pos hbit, List.flatMap_cons] at h
      obtain ⟨k, hword, hrest⟩ := Segment.append_iff.mp h
      obtain ⟨c', hfold, hc'⟩ := ih (c := Function.update c i (cif i)) hrest
      have hstep : takeCif data first (c, o) i = .ok (Function.update c i (cif i), k) := by
        rw [takeCif, if_pos hbit, take_iff.mpr hword]
        rfl
      refine ⟨c', by rw [List.foldlM_cons, hstep, ok_bind, hfold], fun j => ?_⟩
      rw [hc' j]
      by_cases hj : j = i
      · subst hj
        simp [hbit]
      · simp [hj]
    · rw [List.filter_cons_of_neg hbit] at h
      obtain ⟨c', hfold, hc'⟩ := ih (c := c) h
      have hstep : takeCif data first (c, o) i = .ok (c, o) := by
        rw [takeCif, if_neg hbit]
        rfl
      refine ⟨c', by rw [List.foldlM_cons, hstep, ok_bind, hfold], fun j => ?_⟩
      rw [hc' j]
      by_cases hj : j = i
      · subst hj
        simp [hbit]
      · simp [hj]

/-- Fields that are known and fit in the plan are all selected. -/
theorem selectField_fold_ok {capacity : ℕ} (start : ℕ) {ids : List FieldId}
    (hd : ∀ id ∈ ids, descriptor id ≠ none) (hcap : ids.length ≤ capacity) :
    ids.foldlM (selectField capacity start) [] = .ok ids := by
  have hgen : ∀ (rest done : List FieldId), (∀ id ∈ rest, descriptor id ≠ none) →
      (done ++ rest).length ≤ capacity →
      rest.foldlM (selectField capacity start) done = .ok (done ++ rest) := by
    intro rest
    induction rest with
    | nil =>
      intro done _ _
      rw [List.append_nil]
      rfl
    | cons id rest ih =>
      intro done hall hlen
      rw [List.length_append, List.length_cons] at hlen
      have hstep : selectField capacity start done id = .ok (done ++ [id]) := by
        rw [selectField, rejectIf_of_not (hall id (List.mem_cons_self ..)), ok_bind,
          rejectIf_of_not (by omega)]
        rfl
      rw [List.foldlM_cons, hstep, ok_bind, ih (done ++ [id])
        (fun i hi => hall i (List.mem_cons_of_mem _ hi)) (by simp; omega), List.append_assoc]
      rfl
  exact hgen ids [] hd hcap

theorem not_fieldBefore_self (id : FieldId) : ¬fieldBefore id id := by
  simp [fieldBefore]

/-- Two lists of fields in strict indicator order with the same members are equal. -/
theorem eq_of_ordered {a b : List FieldId} (ha : a.Pairwise fun x y => fieldBefore x y)
    (hb : b.Pairwise fun x y => fieldBefore x y) (h : ∀ id, id ∈ a ↔ id ∈ b) : a = b := by
  have hnodup : ∀ {l : List FieldId}, l.Pairwise (fun x y => fieldBefore x y) → l.Nodup := by
    intro l hl
    refine hl.imp fun {x y} hxy heq => ?_
    exact not_fieldBefore_self y (heq ▸ hxy)
  refine List.Perm.eq_of_pairwise ?_ ha hb
    ((List.perm_ext_iff_of_nodup (hnodup ha) (hnodup hb)).mpr h)
  intro x y _ _ hxy hyx
  exact absurd (fieldBefore_trans hxy hyx) (not_fieldBefore_self x)

/-- The fields the parsed words select are the fields the words were computed from. -/
theorem indicated_eq {ids : List FieldId} {attributes : UInt32} {cif c : ℕ → UInt32} {first : UInt32}
    (hw : WordsOf ids attributes cif) (hordered : ids.Pairwise fun a b => fieldBefore a b)
    (hsel : ∀ id ∈ ids, validFieldSelector id) (hfirst : ∀ n, n ≠ 31 → bit first n = bit (cif 0) n)
    (hc0 : c 0 = first) (hc : ∀ i, 1 ≤ i → i ≤ 3 → c i = if bit first i then cif i else 0) :
    (List.range 4).flatMap (indicated c) = ids := by
  refine eq_of_ordered (selected_pairwise c) hordered fun id => ?_
  obtain ⟨i, n⟩ := id
  have hmem : ∀ j : ℕ, (⟨i, n⟩ : FieldId) ∈ indicated c j ↔
      i = j ∧ n < 32 ∧ bit (if j = 0 then c 0 &&& 0x7fffff00 else c j) n := by
    intro j
    simp only [indicated, List.mem_map, List.mem_filter, List.mem_reverse, List.mem_range,
      FieldId.mk.injEq]
    constructor
    · rintro ⟨b, ⟨hb, hbit⟩, rfl, rfl⟩
      exact ⟨rfl, hb, hbit⟩
    · rintro ⟨rfl, hb, hbit⟩
      exact ⟨n, ⟨hb, hbit⟩, rfl, rfl⟩
  simp only [List.mem_flatMap, List.mem_range, hmem]
  have hmask : ∀ m < 32, (bit 0x7fffff00 m = true ↔ 8 ≤ m ∧ m ≤ 30) := by decide
  constructor
  · rintro ⟨j, hj, rfl, hn, hbit⟩
    by_cases h0 : i = 0
    · subst h0
      rw [if_pos rfl, bit_and, Bool.and_eq_true, hmask n hn, hc0] at hbit
      rw [hfirst n (by omega)] at hbit
      exact (hw.field0 n hbit.2.1).mp hbit.1
    · rw [if_neg h0, hc i (by omega) (by omega)] at hbit
      split at hbit
      · exact (hw.field i n (by omega) (by omega)).mp hbit
      · rw [bit_zero] at hbit
        cases hbit
  · intro hid
    have hvalid := hsel _ hid
    simp only [validFieldSelector, decide_eq_true_eq] at hvalid
    refine ⟨i, by omega, rfl, by omega, ?_⟩
    by_cases h0 : i = 0
    · subst h0
      have hb := hvalid.2.2 rfl
      rw [if_pos rfl, bit_and, Bool.and_eq_true, hmask n (by omega), hc0, hfirst n (by omega)]
      exact ⟨(hw.field0 n hb.1).mpr hid, hb⟩
    · have hpresent : bit first i := by
        rw [hfirst i (by omega), hw.presence i (by omega) hvalid.1]
        exact ⟨_, hid, rfl⟩
      rw [if_neg h0, hc i (by omega) hvalid.1, if_pos hpresent]
      exact (hw.field i n (by omega) hvalid.1).mpr hid

/-- The first indicator word as written. -/
def firstWord (layout : LayoutContext) (change : Bool) : UInt32 :=
  layout.cif 0 ||| (if change then (1 : UInt32) <<< 31 else 0)

theorem bit_firstWord (layout : LayoutContext) (change : Bool) (n : ℕ) :
    bit (firstWord layout change) n = (bit (layout.cif 0) n || (change && decide (n = 31))) := by
  have h31 : bit ((1 : UInt32) <<< 31) n = decide (n = 31) := bit_shiftLeft_one (by omega : 31 < 32) n
  rw [firstWord, bit_or]
  cases change
  · simp [bit_zero]
  · simp [h31]

theorem filter_firstWord (layout : LayoutContext) (change : Bool) :
    (List.range' 1 7).filter (bit (firstWord layout change) ·) =
      (List.range' 1 7).filter (bit (layout.cif 0) ·) := by
  refine List.filter_congr fun i hi => ?_
  have := List.mem_range'_1.mp hi
  rw [bit_firstWord, decide_eq_false (by omega), Bool.and_false, Bool.or_false]

/-- The indicators have the size that is counted for them. -/
theorem length_writeIndicators (layout : LayoutContext) (change : Bool) :
    (writeIndicators layout change).length = indicatorCount (layout.cif 0) * 4 := by
  have hwords : ∀ l : List ℕ, (l.flatMap fun i => be32 (layout.cif i)).length = l.length * 4 := by
    intro l
    induction l with
    | nil => rfl
    | cons i l ih =>
      rw [List.flatMap_cons, List.length_append, ih, length_be32, List.length_cons]
      omega
  rw [writeIndicators, List.length_append, length_be32, hwords, indicatorCount]
  omega

/-- What the plan of a snapshot's written indicators says. -/
structure PlanOf (s : PacketSnapshot) (change : Bool) (plan : IndicatorPlan) : Prop where
  selected : plan.selected = s.ids
  attributes : plan.attributes = s.layout.attributes
  change : plan.change = change
  count : indicatorCount (plan.cif 0) = indicatorCount (s.layout.cif 0)
  bytes : plan.bytes = indicatorCount (s.layout.cif 0) * 4

/-- The written indicators are parsed into the fields, the attributes and the change flag, wherever
they stand and after whatever fields were selected before. -/
theorem parseIndicators_write {s : PacketSnapshot} (hs : s.WellFormed) {capacity aggregate : ℕ}
    (hd : ∀ e ∈ s.fields, descriptor e.id ≠ none) (hcap : aggregate + s.fields.length ≤ capacity)
    {change allowChange : Bool} (hchange : change → allowChange) {data : Bytes} {start stop : ℕ}
    (hwords : Segment data start (writeIndicators s.layout change) stop) :
    ∃ plan, parseIndicators capacity data start allowChange aggregate =
        .ok (plan, aggregate + s.fields.length) ∧ PlanOf s change plan := by
  have hsel : ∀ id ∈ s.ids, validFieldSelector id := by
    intro id hid
    obtain ⟨e, he, rfl⟩ := List.mem_map.mp hid
    exact (hs.entries e he).selector
  have hw : WordsOf s.ids s.layout.attributes s.layout.cif := by
    rw [hs.indicators]
    exact wordsOf_indicatorWords hsel s.layout.attributes
  obtain ⟨first, hfirst⟩ : ∃ first, firstWord s.layout change = first := ⟨_, rfl⟩
  have hbits : ∀ n, bit first n = (bit (s.layout.cif 0) n || (change && decide (n = 31))) :=
    fun n => hfirst ▸ bit_firstWord s.layout change n
  have hlow : ∀ n, n ≠ 31 → bit first n = bit (s.layout.cif 0) n := by
    intro n hn
    rw [hbits, decide_eq_false hn, Bool.and_false, Bool.or_false]
  have hfilter := filter_firstWord s.layout change
  rw [hfirst] at hfilter
  have hstop := hwords.stop_eq
  rw [length_writeIndicators] at hstop
  rw [writeIndicators, ← hfilter] at hwords
  obtain ⟨o, sfirst, srest⟩ := Segment.append_iff.mp hwords
  change Segment data start (be32 (firstWord s.layout change)) o at sfirst
  rw [hfirst] at sfirst
  obtain ⟨c, hfold, hc⟩ := takeCif_fold (c := Function.update (fun _ => 0) 0 first) srest
  have hc0 : c 0 = first := by
    rw [hc, if_neg (by simp)]
    simp
  have hci : ∀ i, 1 ≤ i → i ≤ 7 → c i = if bit first i then s.layout.cif i else 0 := by
    intro i h₁ h₇
    have hmem : i ∈ List.range' 1 7 := List.mem_range'_1.mpr ⟨h₁, by omega⟩
    rw [hc i]
    by_cases hb : bit first i
    · rw [if_pos ⟨hmem, hb⟩, if_pos hb]
    · rw [if_neg (fun h => hb h.2), if_neg hb]
      exact Function.update_of_ne (by omega) ..
  have hreserved : first &&& 0x71 = 0 := by
    have hmask : ∀ n < 32, bit 0x71 n = true → n ∈ [0, 4, 5, 6] := by decide
    refine and_eq_zero_of_bits fun n hn hb => ?_
    have hmem := hmask n hn hb
    have hne : n ≠ 31 := by
      rintro rfl
      simp at hmem
    rw [hlow n hne]
    exact hw.reserved n (List.mem_append_left [31] hmem)
  have h31 : bit first 31 = change := by
    rw [hbits, hw.reserved 31 (by simp)]
    simp
  have hattributes : takeAttributes first (c 7) start = .ok s.layout.attributes := by
    have h7 : bit first 7 = bit (s.layout.cif 0) 7 := hlow 7 (by omega)
    unfold takeAttributes
    split
    · next hb =>
      have hne := hw.announced.mp (h7 ▸ hb)
      have hc7 : c 7 = s.layout.attributes := by
        rw [hci 7 (by omega) (by omega), if_pos hb, hw.cif7 hne]
      rw [hc7, rejectIf_of_not, ok_bind]
      · rfl
      · rintro (h | h)
        · exact hne h
        · exact h hs.attributes
    · next hb =>
      have hzero : s.layout.attributes = 0 := by
        by_contra hne
        exact hb (h7 ▸ hw.announced.mpr hne)
      rw [hzero]
      rfl
  have hselected : (List.range 4).flatMap (indicated c) = s.ids :=
    indicated_eq hw hs.ordered hsel hlow hc0 fun i h₁ h₃ => hci i h₁ (by omega)
  have hlen : s.ids.length = s.fields.length := List.length_map ..
  have hselect := @selectField_fold_ok capacity start s.ids
    (fun id hid => by
      obtain ⟨e, he, rfl⟩ := List.mem_map.mp hid
      exact hd e he) (by omega)
  have hannounced : ¬([1, 2, 3].any fun i => bit first i && c i == 0) = true := by
    rw [Bool.not_eq_true, List.any_eq_false]
    intro i hi h
    have hrange : 1 ≤ i ∧ i ≤ 3 := by
      have : i = 1 ∨ i = 2 ∨ i = 3 := by simpa using hi
      omega
    rw [Bool.and_eq_true, beq_iff_eq] at h
    obtain ⟨hb, hzero⟩ := h
    have hb' := hb
    rw [hlow i (by omega), hw.presence i hrange.1 hrange.2] at hb'
    obtain ⟨⟨j, n⟩, hid, hj⟩ := hb'
    simp only at hj
    subst hj
    have hbit := (hw.field j n hrange.1 hrange.2).mpr hid
    rw [hci j hrange.1 (by omega), if_pos hb] at hzero
    rw [hzero, bit_zero] at hbit
    cases hbit
  have htake : take data data.length start = .ok (first, o) := take_iff.mpr sfirst
  have hallow : ¬(first &&& 0x71 ≠ 0 ∨ ¬allowChange ∧ bit first 31) := by
    rintro (h | ⟨hn, hb⟩)
    · exact h hreserved
    · rw [h31] at hb
      exact hn (hchange hb)
  refine ⟨{ cif := c, attributes := s.layout.attributes, selected := s.ids, bytes := stop - start,
            change := bit first 31 }, ?_, rfl, rfl, h31, ?_, ?_⟩
  · simp only [parseIndicators, htake, ok_bind, rejectIf_of_not hallow, hfold, hattributes, hselected,
      hselect, rejectIf_of_not hannounced]
    rw [rejectIf_of_not (by omega), ok_bind, hlen]
    rfl
  · simp only [hc0, indicatorCount, hfilter]
  · simp only [hstop, Nat.add_sub_cancel_left]

end Vita.Codec
