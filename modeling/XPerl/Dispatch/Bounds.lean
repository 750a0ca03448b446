import XPerl.Dispatch.Tables

/-! The running bounds cover the constants that went into them, and what each filter lets pass. -/

namespace XPerl.Dispatch

open XPerl.Framework

def IvBounds.lower (b : IvBounds) : Int := if b.minIsUV then b.minUV.toNat else b.minIV.toInt

def IvBounds.upper (b : IvBounds) : Int := if b.maxIsUV then b.maxUV.toNat else b.maxIV.toInt

section Words

variable (i : Int64) (u : UInt64)

theorem toUInt64_of_nonneg (h : 0 ≤ i.toInt) : (i.toUInt64.toNat : Int) = i.toInt := by
  have hmod := toNat_toUInt64 i
  have hlt := i.toInt_lt
  omega

theorem le_toUInt64_of_neg (h : i.toInt < 0) : (2 ^ 63 : Int) ≤ i.toUInt64.toNat := by
  have hmod := toNat_toUInt64 i
  have hle := i.le_toInt
  omega

end Words

private theorem below_iff (b : IvBounds) (s : Integer) :
    (if b.minIsUV then
        if s.isUV then decide (s.uv < b.minUV) else decide (s.iv < 0 ∨ s.iv.toUInt64 < b.minUV)
      else if s.isUV then decide (b.minIV ≥ 0 ∧ s.uv < b.minIV.toUInt64)
      else decide (s.iv < b.minIV)) = true ↔ s.value < b.lower := by
  have hslt := s.uv.toNat_lt
  have hneg : s.iv < 0 ↔ s.iv.toInt < 0 := Int64.lt_iff_toInt_lt
  have hmin : b.minIV ≥ 0 ↔ 0 ≤ b.minIV.toInt := Int64.le_iff_toInt_le
  have hspos := toUInt64_of_nonneg s.iv
  have hmpos := toUInt64_of_nonneg b.minIV
  rw [Integer.value, IvBounds.lower]
  cases b.minIsUV with
  | true =>
    cases s.isUV with
    | true =>
      simp only [if_true, decide_eq_true_eq, UInt64.lt_iff_toNat_lt]
      omega
    | false =>
      simp only [if_true, Bool.false_eq_true, if_false, decide_eq_true_eq, UInt64.lt_iff_toNat_lt,
        hneg]
      omega
  | false =>
    cases s.isUV with
    | true =>
      simp only [if_true, Bool.false_eq_true, if_false, decide_eq_true_eq, UInt64.lt_iff_toNat_lt,
        hmin]
      omega
    | false =>
      simp only [Bool.false_eq_true, if_false, decide_eq_true_eq, Int64.lt_iff_toInt_lt]

private theorem above_iff (b : IvBounds) (s : Integer) :
    (if b.maxIsUV then
        if s.isUV then decide (s.uv > b.maxUV) else decide (s.iv ≥ 0 ∧ s.iv.toUInt64 > b.maxUV)
      else if s.isUV then decide (b.maxIV < 0 ∨ s.uv > b.maxIV.toUInt64)
      else decide (s.iv > b.maxIV)) = true ↔ b.upper < s.value := by
  have hslt := s.uv.toNat_lt
  have hpos : s.iv ≥ 0 ↔ 0 ≤ s.iv.toInt := Int64.le_iff_toInt_le
  have hmax : b.maxIV < 0 ↔ b.maxIV.toInt < 0 := Int64.lt_iff_toInt_lt
  have hspos := toUInt64_of_nonneg s.iv
  have hmpos := toUInt64_of_nonneg b.maxIV
  rw [Integer.value, IvBounds.upper]
  cases b.maxIsUV with
  | true =>
    cases s.isUV with
    | true =>
      simp only [if_true, decide_eq_true_eq, gt_iff_lt, UInt64.lt_iff_toNat_lt]
      omega
    | false =>
      simp only [if_true, Bool.false_eq_true, if_false, decide_eq_true_eq, gt_iff_lt,
        UInt64.lt_iff_toNat_lt, hpos]
      omega
  | false =>
    cases s.isUV with
    | true =>
      simp only [if_true, Bool.false_eq_true, if_false, decide_eq_true_eq, gt_iff_lt,
        UInt64.lt_iff_toNat_lt, hmax]
      omega
    | false =>
      simp only [Bool.false_eq_true, if_false, decide_eq_true_eq, gt_iff_lt,
        Int64.lt_iff_toInt_lt]

variable {NV L : Type} [LinearOrder L] {conv : Conversions NV L}

variable {subject : Sv NV} {x y : NV} {p : L}

theorem ivInBounds_of_none (bounds : Option IvBounds) (h : subject.iok = none) :
    dispatchOnIvInBounds bounds subject = true := by
  cases bounds <;> simp [dispatchOnIvInBounds, h]

theorem nvInBounds_of_none (bounds : Option (NvBounds NV))
    (h : subject.nok = none) : dispatchOnNvInBounds conv bounds subject = true := by
  cases bounds <;> simp [dispatchOnNvInBounds, h]

theorem pvInBounds_of_none (bounds : Option PvBounds) (h : subject.pok = none) :
    dispatchOnPvInBounds bounds subject = true := by
  cases bounds <;> simp [dispatchOnPvInBounds, h]

theorem ivInBounds_iff (b : IvBounds) {s : Integer} (hs : subject.iok = some s) :
    dispatchOnIvInBounds (some b) subject = true ↔ b.lower ≤ s.value ∧ s.value ≤ b.upper := by
  simp only [dispatchOnIvInBounds, hs, Bool.and_eq_true, Bool.not_eq_true']
  rw [← Bool.not_eq_true, ← Bool.not_eq_true, below_iff, above_iff, Int.not_lt, Int.not_lt]

theorem addMin_lower (b : IvBounds) (i : Integer) (hsmall : i.smallUV = true → 0 ≤ b.lower) :
    (b.addMin i).lower = min b.lower i.value := by
  have hiv := i.iv_toInt
  have hneg : i.iv < 0 ↔ i.iv.toInt < 0 := Int64.lt_iff_toInt_lt
  have hpos : i.iv ≥ 0 ↔ 0 ≤ i.iv.toInt := Int64.le_iff_toInt_le
  have hipos := toUInt64_of_nonneg i.iv
  have hminpos := toUInt64_of_nonneg b.minIV
  have hminlt := b.minIV.toInt_lt
  have hlt := i.uv.toNat_lt
  simp only [Integer.smallUV, IvBounds.lower, Integer.value, IvBounds.addMin,
    UInt64.lt_iff_toNat_lt, Int64.lt_iff_toInt_lt, hneg, hpos] at hsmall ⊢
  rcases Bool.eq_false_or_eq_true i.isUV with huv | huv
  · rcases Bool.eq_false_or_eq_true b.minIsUV with hmin | hmin
    · by_cases hless : i.uv.toNat < b.minUV.toNat
      · simp only [huv, hmin, hless, if_true]
        omega
      · simp only [huv, hmin, hless, if_true, if_false]
        omega
    · simp only [huv, hmin, Bool.true_and, decide_eq_true_eq, Bool.false_eq_true,
        if_false] at hsmall
      by_cases hless : 0 ≤ i.iv.toInt ∧ i.uv.toNat < b.minIV.toUInt64.toNat
      · simp only [huv, hmin, hless, Bool.false_eq_true, and_self, if_true, if_false]
        omega
      · simp only [huv, hmin, hless, Bool.false_eq_true, if_true, if_false]
        split at hiv <;> omega
  · rcases Bool.eq_false_or_eq_true b.minIsUV with hmin | hmin
    · by_cases hless : i.iv.toInt < 0 ∨ i.iv.toUInt64.toNat < b.minUV.toNat
      · simp only [huv, hmin, hless, Bool.false_eq_true, if_true, if_false]
        omega
      · simp only [huv, hmin, hless, Bool.false_eq_true, if_true, if_false]
        omega
    · by_cases hless : i.iv.toInt < b.minIV.toInt
      · simp only [huv, hmin, hless, Bool.false_eq_true, if_true, if_false]
        omega
      · simp only [huv, hmin, hless, Bool.false_eq_true, if_false]
        omega

theorem addMax_upper (b : IvBounds) (i : Integer) (hsmall : i.smallUV = true → 0 ≤ b.upper)
    (hnegative : i.value < 0 → b.maxIsUV = false) :
    (b.addMax i).upper = max b.upper i.value ∧
      (b.addMax i).maxIsUV = if b.upper < i.value then i.isUV else b.maxIsUV := by
  have hiv := i.iv_toInt
  have hneg : i.iv < 0 ↔ i.iv.toInt < 0 := Int64.lt_iff_toInt_lt
  have hipos := toUInt64_of_nonneg i.iv
  have hmaxpos := toUInt64_of_nonneg b.maxIV
  have hmaxneg := le_toUInt64_of_neg b.maxIV
  have hmaxlt := b.maxIV.toInt_lt
  have hlt := i.uv.toNat_lt
  simp only [Integer.smallUV, IvBounds.upper, Integer.value, IvBounds.addMax, gt_iff_lt,
    UInt64.lt_iff_toNat_lt, Int64.lt_iff_toInt_lt, hneg] at hsmall hnegative ⊢
  rcases Bool.eq_false_or_eq_true i.isUV with huv | huv
  · rcases Bool.eq_false_or_eq_true b.maxIsUV with hmax | hmax
    · by_cases hmore : b.maxUV.toNat < i.uv.toNat
      · have hgt : (b.maxUV.toNat : Int) < i.uv.toNat := by omega
        simp only [huv, hmax, hmore, hgt, if_true, and_true]
        omega
      · have hle : ¬ (b.maxUV.toNat : Int) < i.uv.toNat := by omega
        simp only [huv, hmax, hmore, hle, if_true, if_false, and_true]
        omega
    · simp only [huv, hmax, Bool.true_and, decide_eq_true_eq, Bool.false_eq_true,
        if_false] at hsmall
      by_cases hmore : i.iv.toInt < 0 ∨ b.maxIV.toUInt64.toNat < i.uv.toNat
      · have hgt : b.maxIV.toInt < (i.uv.toNat : Int) := by
          split at hiv <;> omega
        simp only [huv, hmax, hmore, hgt, Bool.false_eq_true, if_true, if_false, and_true]
        omega
      · have hle : ¬ b.maxIV.toInt < (i.uv.toNat : Int) := by
          split at hiv <;> omega
        simp only [huv, hmax, hmore, hle, Bool.false_eq_true, if_true, if_false, and_true]
        omega
  · rcases Bool.eq_false_or_eq_true b.maxIsUV with hmax | hmax
    · simp only [huv, hmax, Bool.false_eq_true, if_false, reduceCtorEq, imp_false] at hnegative
      by_cases hmore : i.iv.toInt < 0 ∨ b.maxUV.toNat < i.iv.toUInt64.toNat
      · have hgt : (b.maxUV.toNat : Int) < i.iv.toInt := by omega
        simp only [huv, hmax, hmore, hgt, Bool.false_eq_true, if_true, if_false, and_true]
        omega
      · have hle : ¬ (b.maxUV.toNat : Int) < i.iv.toInt := by omega
        simp only [huv, hmax, hmore, hle, Bool.false_eq_true, if_true, if_false, and_true]
        omega
    · by_cases hmore : b.maxIV.toInt < i.iv.toInt
      · simp only [huv, hmax, hmore, Bool.false_eq_true, if_true, if_false, and_true]
        omega
      · simp only [huv, hmax, hmore, Bool.false_eq_true, if_false, and_true]
        omega

def firstGreatest : List Integer → Option Integer
  | [] => none
  | i :: rest =>
    match firstGreatest rest with
    | none => some i
    | some top => if i.value < top.value then some top else some i

/-- A constant that the bounds about others before it take in: a small UV after no negative
constant, and a negative one after none whose greatest is a UV. -/
def takenIn (before : List Integer) (i : Integer) : Bool :=
  (!i.smallUV || before.all fun a => decide (0 ≤ a.value)) &&
    (!decide (i.value < 0) || (firstGreatest before).all fun top => !top.isUV)

def allTakenIn : List Integer → List Integer → Bool
  | _, [] => true
  | before, i :: rest => takenIn before i && allTakenIn (before ++ [i]) rest

theorem firstGreatest_append (before : List Integer) (i : Integer) :
    firstGreatest (before ++ [i]) = match firstGreatest before with
      | none => some i
      | some top => if top.value < i.value then some i else some top := by
  induction before with
  | nil => rfl
  | cons a before ih =>
    rw [List.cons_append, firstGreatest, ih, firstGreatest]
    cases firstGreatest before with
    | none => rfl
    | some top =>
      simp only []
      by_cases hti : top.value < i.value
      · by_cases hat : a.value < top.value
        · have hai : a.value < i.value := by omega
          simp only [hti, hat, hai, if_true]
        · simp only [hti, hat, if_true, if_false]
      · by_cases hat : a.value < top.value
        · simp only [hti, hat, if_true, if_false]
        · have hai : ¬ a.value < i.value := by omega
          simp only [hti, hat, hai, if_false]

theorem le_firstGreatest {ints : List Integer} {top : Integer} (h : firstGreatest ints = some top) :
    ∀ i ∈ ints, i.value ≤ top.value := by
  induction ints generalizing top with
  | nil => cases h
  | cons a ints ih =>
    intro i hi
    rw [firstGreatest] at h
    cases hrest : firstGreatest ints with
    | none =>
      rw [hrest] at h
      cases ints with
      | nil =>
        rw [List.mem_singleton.1 hi, Option.some.inj h]
      | cons b ints =>
        rw [firstGreatest] at hrest
        split at hrest
        · cases hrest
        · split at hrest <;> cases hrest
    | some t =>
      rw [hrest] at h
      have hle := ih hrest
      simp only [] at h
      split at h
      · obtain rfl := Option.some.inj h
        rcases List.mem_cons.1 hi with rfl | hi
        · omega
        · exact hle i hi
      · obtain rfl := Option.some.inj h
        rcases List.mem_cons.1 hi with rfl | hi
        · exact Int.le_refl _
        · have hit := hle i hi
          omega

def IvExact (ints : List Integer) : Option IvBounds → Prop
  | none => ints = []
  | some b => (∀ i ∈ ints, b.lower ≤ i.value) ∧ (∃ i ∈ ints, i.value = b.lower) ∧
      ∃ top, firstGreatest ints = some top ∧ top.value = b.upper ∧ top.isUV = b.maxIsUV

theorem ivExact_add {before : List Integer} {bounds : Option IvBounds} (h : IvExact before bounds)
    {i : Integer} (hi : takenIn before i = true) :
    IvExact (before ++ [i]) (some (dispatchOnAddIvBound bounds i)) := by
  cases bounds with
  | none =>
    obtain rfl : before = [] := h
    refine ⟨?_, ⟨i, List.mem_singleton_self i, ?_⟩, i, rfl, ?_, rfl⟩
    · intro j hj
      rw [List.mem_singleton.1 hj]
      exact Int.le_refl _
    · rfl
    · rfl
  | some b =>
    obtain ⟨hlower, ⟨low, hlow, hlowEq⟩, top, htop, htopEq, htopUV⟩ := h
    have hle := le_firstGreatest htop
    simp only [takenIn, htop, Option.all_some, Bool.and_eq_true, Bool.or_eq_true,
      Bool.not_eq_true', List.all_eq_true, decide_eq_true_eq, decide_eq_false_iff_not] at hi
    obtain ⟨hsmall, hnegative⟩ := hi
    have hlowerPos : i.smallUV = true → 0 ≤ b.lower := by
      intro huv
      rcases hsmall with hno | hall
      · rw [huv] at hno
        cases hno
      · rw [← hlowEq]
        exact hall low hlow
    have hmin := addMin_lower b i hlowerPos
    have hupper : b.lower ≤ b.upper := by
      rw [← hlowEq, ← htopEq]
      exact hle low hlow
    have hsameUpper : (b.addMin i).upper = b.upper ∧ (b.addMin i).maxIsUV = b.maxIsUV := by
      rw [IvBounds.addMin, IvBounds.upper, IvBounds.upper]
      split <;> split <;> (try split) <;> exact ⟨rfl, rfl⟩
    have hmax := addMax_upper (b.addMin i) i
      (by
        intro huv
        rw [hsameUpper.1]
        exact (hlowerPos huv).trans hupper)
      (by
        intro hneg
        rw [hsameUpper.2, ← htopUV]
        rcases hnegative with hno | huv
        · exact absurd hneg hno
        · exact huv)
    have hsameLower : ((b.addMin i).addMax i).lower = (b.addMin i).lower := by
      generalize b.addMin i = b'
      rw [IvBounds.addMax, IvBounds.lower, IvBounds.lower]
      split <;> split <;> (try split) <;> rfl
    rw [hsameUpper.1, hsameUpper.2] at hmax
    obtain ⟨hmax, hmaxUV⟩ := hmax
    have hbounds : dispatchOnAddIvBound (some b) i = (b.addMin i).addMax i := rfl
    rw [hbounds]
    refine ⟨?_, ?_, ?_⟩
    · intro j hj
      rw [hsameLower, hmin]
      rcases List.mem_append.1 hj with hj | hj
      · have hjl := hlower j hj
        omega
      · rw [List.mem_singleton.1 hj]
        omega
    · rw [hsameLower, hmin]
      by_cases hlt : i.value < b.lower
      · exact ⟨i, List.mem_append_right _ (List.mem_singleton_self i), by omega⟩
      · exact ⟨low, List.mem_append_left _ hlow, by omega⟩
    · rw [firstGreatest_append, htop, hmax, hmaxUV, htopEq.symm]
      by_cases hlt : top.value < i.value
      · refine ⟨i, by simp only [hlt, if_true], by omega, by simp only [hlt, if_true]⟩
      · refine ⟨top, by simp only [hlt, if_false], by omega, ?_⟩
        simp only [hlt, if_false]
        exact htopUV

theorem ivExact_foldl {before rest : List Integer} {bounds : Option IvBounds}
    (h : IvExact before bounds) (hrest : allTakenIn before rest = true) :
    IvExact (before ++ rest) (rest.foldl (fun b i => some (dispatchOnAddIvBound b i)) bounds) := by
  induction rest generalizing before bounds with
  | nil =>
    rw [List.append_nil]
    exact h
  | cons i rest ih =>
    rw [allTakenIn, Bool.and_eq_true] at hrest
    have hnext := ih (ivExact_add h hrest.1) hrest.2
    rw [List.append_assoc] at hnext
    exact hnext

theorem ivInBounds_of_mem {ints : List Integer} (h : allTakenIn [] ints = true)
    {s i : Integer} (hs : subject.iok = some s) (hi : i ∈ ints) (heq : i.value = s.value) :
    dispatchOnIvInBounds (ints.foldl (fun b i => some (dispatchOnAddIvBound b i)) none) subject =
      true := by
  have hnil : IvExact [] none := rfl
  have hexact := ivExact_foldl hnil h
  rw [List.nil_append] at hexact
  cases hb : ints.foldl (fun b i => some (dispatchOnAddIvBound b i)) none with
  | none => rfl
  | some b =>
    rw [hb] at hexact
    obtain ⟨hlower, -, top, htop, htopEq, -⟩ := hexact
    rw [ivInBounds_iff b hs, ← heq, ← htopEq]
    exact ⟨hlower i hi, le_firstGreatest htop i hi⟩

theorem nvLt_iff (hx : conv.place x = some p) :
    nvLt conv x y = true ↔ ∃ q, conv.place y = some q ∧ p < q := by
  rw [nvLt, beq_iff_eq, floatNcmp, hx]
  cases conv.place y with
  | none => simp
  | some q => simp [sign_eq_neg_one]

theorem nvLt_iff' {q : L} (hy : conv.place y = some q) :
    nvLt conv x y = true ↔ ∃ p, conv.place x = some p ∧ p < q := by
  rw [nvLt, beq_iff_eq, floatNcmp, hy]
  cases conv.place x with
  | none => simp
  | some p => simp [sign_eq_neg_one]

theorem nvLe_of {q : L} (hx : conv.place x = some p) (hy : conv.place y = some q)
    (hle : p ≤ q) : nvLe conv x y = true := by
  rw [nvLe, floatNcmp, hx, hy]
  rcases lt_or_eq_of_le hle with hlt | heq
  · simp [sign_eq_neg_one.2 hlt]
  · simp [sign_eq_zero.2 heq]

def NvCovers (conv : Conversions NV L) (floats : List NV) : Option (NvBounds NV) → Prop
  | none => floats = []
  | some b => ∃ lo hi, conv.place b.min = some lo ∧ conv.place b.max = some hi ∧
      ∀ f ∈ floats, ∀ p, conv.place f = some p → lo ≤ p ∧ p ≤ hi

theorem nvCovers_add {before : List NV} {bounds : Option (NvBounds NV)}
    (h : NvCovers conv before bounds) {f : NV} (hf : before = [] → conv.place f ≠ none) :
    NvCovers conv (before ++ [f]) (some (dispatchOnAddNvBound conv bounds f)) := by
  cases bounds with
  | none =>
    obtain rfl : before = [] := h
    obtain ⟨p, hp⟩ := Option.ne_none_iff_exists'.1 (hf rfl)
    refine ⟨p, p, hp, hp, ?_⟩
    intro g hg q hq
    rw [List.nil_append, List.mem_singleton] at hg
    rw [hg, hp] at hq
    rw [Option.some.inj hq]
    exact ⟨le_rfl, le_rfl⟩
  | some b =>
    obtain ⟨lo, hi, hlo, hhi, hcovers⟩ := h
    have hmin : ∃ lo', conv.place (dispatchOnAddNvBound conv (some b) f).min = some lo' ∧
        lo' ≤ lo ∧ ∀ p, conv.place f = some p → lo' ≤ p := by
      have heq : (dispatchOnAddNvBound conv (some b) f).min =
          if nvLt conv f b.min = true then f else b.min := by
        rw [dispatchOnAddNvBound]
        split <;> split <;> rfl
      rw [heq]
      by_cases hless : nvLt conv f b.min = true
      · obtain ⟨p, hp, hlt⟩ := (nvLt_iff' hlo).1 hless
        rw [if_pos hless]
        refine ⟨p, hp, hlt.le, ?_⟩
        intro q hq
        rw [hp] at hq
        exact (Option.some.inj hq).le
      · rw [if_neg hless]
        refine ⟨lo, hlo, le_rfl, ?_⟩
        intro p hp
        apply le_of_not_gt
        intro hlt
        exact hless ((nvLt_iff' hlo).2 ⟨p, hp, hlt⟩)
    have hmax : ∃ hi', conv.place (dispatchOnAddNvBound conv (some b) f).max = some hi' ∧
        hi ≤ hi' ∧ ∀ p, conv.place f = some p → p ≤ hi' := by
      have heq : (dispatchOnAddNvBound conv (some b) f).max =
          if nvLt conv b.max f = true then f else b.max := by
        rw [dispatchOnAddNvBound]
        have hsame : (if nvLt conv f b.min = true then { b with min := f } else b).max = b.max := by
          split <;> rfl
        simp only [hsame]
        split
        · rfl
        · exact hsame
      rw [heq]
      by_cases hmore : nvLt conv b.max f = true
      · obtain ⟨p, hp, hlt⟩ := (nvLt_iff hhi).1 hmore
        rw [if_pos hmore]
        refine ⟨p, hp, hlt.le, ?_⟩
        intro q hq
        rw [hp] at hq
        exact (Option.some.inj hq).ge
      · rw [if_neg hmore]
        refine ⟨hi, hhi, le_rfl, ?_⟩
        intro p hp
        apply le_of_not_gt
        intro hlt
        exact hmore ((nvLt_iff hhi).2 ⟨p, hp, hlt⟩)
    obtain ⟨lo', hlo', hle, hlow⟩ := hmin
    obtain ⟨hi', hhi', hge, hhigh⟩ := hmax
    refine ⟨lo', hi', hlo', hhi', ?_⟩
    intro g hg p hp
    rcases List.mem_append.1 hg with hg | hg
    · obtain ⟨hlop, hphi⟩ := hcovers g hg p hp
      exact ⟨hle.trans hlop, hphi.trans hge⟩
    · rw [List.mem_singleton.1 hg] at hp
      exact ⟨hlow p hp, hhigh p hp⟩

theorem nvCovers_foldl {before rest : List NV} {bounds : Option (NvBounds NV)}
    (h : NvCovers conv before bounds)
    (hfirst : ∀ f, (before ++ rest).head? = some f → conv.place f ≠ none) :
    NvCovers conv (before ++ rest)
      (rest.foldl (fun b f => some (dispatchOnAddNvBound conv b f)) bounds) := by
  induction rest generalizing before bounds with
  | nil =>
    rw [List.append_nil]
    exact h
  | cons f rest ih =>
    have hassoc : before ++ f :: rest = (before ++ [f]) ++ rest := by simp
    rw [hassoc]
    apply ih
    · apply nvCovers_add h
      intro hnil
      apply hfirst f
      rw [hnil]
      rfl
    · rw [← hassoc]
      exact hfirst

theorem nvInBounds_of_mem {floats : List NV}
    (hfirst : ∀ f, floats.head? = some f → conv.place f ≠ none) {f : NV}
    (hx : subject.nok = some x) (hp : conv.place x = some p) (hf : f ∈ floats)
    (hfp : conv.place f = some p) :
    dispatchOnNvInBounds conv
      (floats.foldl (fun b f => some (dispatchOnAddNvBound conv b f)) none) subject = true := by
  have hnil : NvCovers conv [] none := rfl
  have hcovers := nvCovers_foldl hnil hfirst
  rw [List.nil_append] at hcovers
  cases hb : floats.foldl (fun b f => some (dispatchOnAddNvBound conv b f)) none with
  | none => rfl
  | some b =>
    rw [hb] at hcovers
    obtain ⟨lo, hi, hlo, hhi, hall⟩ := hcovers
    obtain ⟨hle, hge⟩ := hall f hf p hfp
    simp only [dispatchOnNvInBounds, hx, Bool.and_eq_true]
    exact ⟨nvLe_of hlo hp hle, nvLe_of hp hhi hge⟩

def PvCovers (lens : List Nat) : Option PvBounds → Prop
  | none => lens = []
  | some b => ∀ n ∈ lens, b.minlen ≤ n ∧ n ≤ b.maxlen

theorem pvCovers_add {before : List Nat} {bounds : Option PvBounds} (h : PvCovers before bounds)
    (len : Nat) : PvCovers (before ++ [len]) (some (dispatchOnAddPvBound bounds len)) := by
  intro n hn
  cases bounds with
  | none =>
    obtain rfl : before = [] := h
    rw [List.nil_append, List.mem_singleton] at hn
    rw [hn]
    exact ⟨Nat.le_refl _, Nat.le_refl _⟩
  | some b =>
    rcases List.mem_append.1 hn with hn | hn
    · have hb := h n hn
      rw [dispatchOnAddPvBound]
      split <;> split <;> simp_all <;> omega
    · rw [List.mem_singleton.1 hn, dispatchOnAddPvBound]
      split <;> split <;> simp_all

theorem pvCovers_foldl {before : List Nat} {bounds : Option PvBounds} (rest : List Nat)
    (h : PvCovers before bounds) :
    PvCovers (before ++ rest) (rest.foldl (fun b n => some (dispatchOnAddPvBound b n)) bounds) := by
  induction rest generalizing before bounds with
  | nil =>
    rw [List.append_nil]
    exact h
  | cons n rest ih =>
    have hassoc : before ++ n :: rest = (before ++ [n]) ++ rest := by simp
    rw [hassoc]
    exact ih (pvCovers_add h n)

theorem pvInBounds_of_mem {lens : List Nat} {s : Str} (hs : subject.pok = some s)
    (hmem : s.length ∈ lens) :
    dispatchOnPvInBounds (lens.foldl (fun b n => some (dispatchOnAddPvBound b n)) none) subject =
      true := by
  have hnil : PvCovers [] none := rfl
  have hcovers := pvCovers_foldl lens hnil
  rw [List.nil_append] at hcovers
  cases hb : lens.foldl (fun b n => some (dispatchOnAddPvBound b n)) none with
  | none => rfl
  | some b =>
    rw [hb] at hcovers
    simpa [dispatchOnPvInBounds, hs] using hcovers s.length hmem

end XPerl.Dispatch
