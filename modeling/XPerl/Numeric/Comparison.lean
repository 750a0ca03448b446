import XPerl.Numeric.Exact

/-! The numeric comparison operators of `pp.c` and `pp_hot.c`. -/

namespace XPerl.Numeric

open XPerl.Framework

variable {NV : Type}

/-- The two primitive comparisons of floating point; both are false on a NaN. -/
structure Comparisons (NV : Type) where
  lt : NV → NV → Bool
  eq : NV → NV → Bool

def difference (gt lt : Bool) : Int32 := (if gt then 1 else 0) - (if lt then 1 else 0)

/-- `do_ncmp` on two integers, in the four combinations of IV and UV. -/
def integerNcmp (left right : Sv NV) : Int32 :=
  if !left.isUV then
    if !right.isUV then difference (left.ivx > right.ivx) (left.ivx < right.ivx)
    else if left.ivx < 0 then -1
    else difference (left.ivx.toUInt64 > right.uvx) (left.ivx.toUInt64 < right.uvx)
  else if right.isUV then difference (left.uvx > right.uvx) (left.uvx < right.uvx)
  else if right.ivx < 0 then 1
  else difference (left.uvx > right.ivx.toUInt64) (left.uvx < right.ivx.toUInt64)

def floatNcmp (c : Comparisons NV) (lnv rnv : NV) : Int32 :=
  if c.lt lnv rnv then -1
  else if c.lt rnv lnv then 1
  else if c.eq lnv rnv then 0
  else 2

def doNcmp (f : Floats NV) (c : Comparisons NV) (left right : Sv NV) : Int32 :=
  let (right, rok) := svIVPleaseNomg f right
  if rok then
    let (left, lok) := svIVPleaseNomg f left
    if lok then integerNcmp left right else floatNcmp c (f.svNV left) (f.svNV right)
  else floatNcmp c (f.svNV left) (f.svNV right)

/-- The shared shape of the six relational operators: two IVs are compared as such, two floats
as such, and everything else by `do_ncmp`. -/
def relational (onIV : Int64 → Int64 → Bool) (onNV : NV → NV → Bool) (onNcmp : Int32 → Bool)
    (f : Floats NV) (c : Comparisons NV) (left right : Sv NV) : Bool :=
  if (left.iok && right.iok) && !(left.isUV || right.isUV) then onIV left.ivx right.ivx
  else if left.nok && right.nok then onNV left.nvx right.nvx
  else onNcmp (doNcmp f c left right)

def ppLt (f : Floats NV) (c : Comparisons NV) : Sv NV → Sv NV → Bool :=
  relational (· < ·) c.lt (· == -1) f c

def ppGt (f : Floats NV) (c : Comparisons NV) : Sv NV → Sv NV → Bool :=
  relational (· > ·) (fun l r => c.lt r l) (· == 1) f c

def ppLe (f : Floats NV) (c : Comparisons NV) : Sv NV → Sv NV → Bool :=
  relational (· ≤ ·) (fun l r => c.lt l r || c.eq l r) (· ≤ 0) f c

def ppGe (f : Floats NV) (c : Comparisons NV) : Sv NV → Sv NV → Bool :=
  relational (· ≥ ·) (fun l r => c.lt r l || c.eq l r) (fun v => v &&& 2 == 0) f c

def ppEq (f : Floats NV) (c : Comparisons NV) : Sv NV → Sv NV → Bool :=
  relational (· == ·) c.eq (· == 0) f c

def ppNe (f : Floats NV) (c : Comparisons NV) : Sv NV → Sv NV → Bool :=
  relational (· != ·) (fun l r => !c.eq l r) (· != 0) f c

def ppNcmp (f : Floats NV) (c : Comparisons NV) (targ : Targ) (left right : Sv NV) :
    Option (Value NV) :=
  let value := doNcmp f c left right
  if value == 2 then none else some (targi targ value.toInt64 true)

section Order

variable (represents : NV → Int → Prop)

/-- Floating point orders the integers that it represents. -/
structure Comparisons.Exact (c : Comparisons NV) : Prop where
  lt_iff : ∀ a b x y, represents a x → represents b y → (c.lt a b = true ↔ x < y)
  eq_iff : ∀ a b x y, represents a x → represents b y → (c.eq a b = true ↔ x = y)

/-- A scalar with the NOK flag beside IOK holds its integer in the float slot too: `sv_2nv` and
`sv_2iv` set both flags only after a round trip. -/
def Sv.Faithful (sv : Sv NV) : Prop := sv.nok = true → represents sv.nvx sv.value

end Order

/-- The sign of a difference as `do_ncmp` returns it. -/
def ncmpSign (z : Int) : Int32 := if z < 0 then -1 else if z = 0 then 0 else 1

theorem difference_eq {gt lt : Bool} {x y : Int} (hgt : gt = decide (y < x))
    (hlt : lt = decide (x < y)) : difference gt lt = ncmpSign (x - y) := by
  subst hgt hlt
  rcases lt_trichotomy x y with h | h | h
  · simp [difference, ncmpSign, h, Int.not_lt.2 h.le]
  · simp [difference, ncmpSign, h]
  · have hne : ¬ x - y = 0 := by omega
    simp [difference, ncmpSign, h, Int.not_lt.2 h.le, hne]

theorem ivx_lt (i j : Int64) : decide (i < j) = decide (i.toInt < j.toInt) := by
  simp [Int64.lt_iff_toInt_lt]

theorem uvx_lt (u v : UInt64) : decide (u < v) = decide ((u.toNat : Int) < v.toNat) := by
  simp [UInt64.lt_iff_toNat_lt]

theorem integerNcmp_spec (left right : Sv NV) :
    integerNcmp left right = ncmpSign (left.value - right.value) := by
  cases hl : left.isUV with
  | false =>
    have hlv : left.value = left.ivx.toInt := by simp [Sv.value, hl]
    cases hr : right.isUV with
    | false =>
      have hrv : right.value = right.ivx.toInt := by simp [Sv.value, hr]
      simp only [integerNcmp, hl, hr, Bool.not_false, if_true, hlv, hrv]
      exact difference_eq (ivx_lt _ _) (ivx_lt _ _)
    | true =>
      have hrv : right.value = right.uvx.toNat := by simp [Sv.value, hr]
      simp only [integerNcmp, hl, hr, Bool.not_false, Bool.not_true, if_true, Bool.false_eq_true,
        if_false, hlv, hrv]
      by_cases hneg : left.ivx < 0
      · have hlt : left.ivx.toInt < 0 := by simpa using Int64.lt_iff_toInt_lt.1 hneg
        rw [if_pos hneg, ncmpSign, if_pos (by omega)]
      · rw [if_neg hneg, ← toUInt64_of_nonneg hneg]
        exact difference_eq (uvx_lt _ _) (uvx_lt _ _)
  | true =>
    have hlv : left.value = left.uvx.toNat := by simp [Sv.value, hl]
    cases hr : right.isUV with
    | true =>
      have hrv : right.value = right.uvx.toNat := by simp [Sv.value, hr]
      simp only [integerNcmp, hl, hr, Bool.not_true, Bool.false_eq_true, if_false, if_true, hlv, hrv]
      exact difference_eq (uvx_lt _ _) (uvx_lt _ _)
    | false =>
      have hrv : right.value = right.ivx.toInt := by simp [Sv.value, hr]
      simp only [integerNcmp, hl, hr, Bool.not_true, Bool.false_eq_true, if_false, hlv, hrv]
      by_cases hneg : right.ivx < 0
      · have hlt : right.ivx.toInt < 0 := by simpa using Int64.lt_iff_toInt_lt.1 hneg
        rw [if_pos hneg, ncmpSign, if_neg (by omega), if_neg (by omega)]
      · rw [if_neg hneg, ← toUInt64_of_nonneg hneg]
        exact difference_eq (uvx_lt _ _) (uvx_lt _ _)

variable {f : Floats NV} {c : Comparisons NV} {represents : NV → Int → Prop} {left right : Sv NV}

theorem doNcmp_integer (hl : left.iok = true) (hr : right.iok = true) :
    doNcmp f c left right = ncmpSign (left.value - right.value) := by
  simp [doNcmp, svIVPleaseNomg_iok, hl, hr, integerNcmp_spec]

theorem relational_spec {onIV : Int64 → Int64 → Bool} {onNV : NV → NV → Bool}
    {onNcmp : Int32 → Bool} (rel : Int → Int → Prop)
    (hl : left.iok = true) (hr : right.iok = true) (hlf : left.Faithful represents)
    (hrf : right.Faithful represents)
    (hiv : ∀ i j : Int64, onIV i j = true ↔ rel i.toInt j.toInt)
    (hnv : ∀ a b x y, represents a x → represents b y → (onNV a b = true ↔ rel x y))
    (hncmp : ∀ x y, onNcmp (ncmpSign (x - y)) = true ↔ rel x y) :
    relational onIV onNV onNcmp f c left right = true ↔ rel left.value right.value := by
  unfold relational
  split_ifs with hplain hfloat
  · simp only [hl, hr, Bool.and_self, Bool.true_and, Bool.not_eq_true',
      Bool.or_eq_false_iff] at hplain
    rw [hiv]
    simp [Sv.value, hplain.1, hplain.2]
  · obtain ⟨hln, hrn⟩ := Bool.and_eq_true_iff.1 hfloat
    exact hnv _ _ _ _ (hlf hln) (hrf hrn)
  · rw [doNcmp_integer hl hr, hncmp]

theorem ncmpSign_cases (x y : Int) :
    (x < y ∧ ncmpSign (x - y) = -1) ∨ (x = y ∧ ncmpSign (x - y) = 0) ∨
      (y < x ∧ ncmpSign (x - y) = 1) := by
  rcases lt_trichotomy x y with h | h | h
  · exact Or.inl ⟨h, by rw [ncmpSign, if_pos (by omega)]⟩
  · exact Or.inr (Or.inl ⟨h, by rw [ncmpSign, if_neg (by omega), if_pos (by omega)]⟩)
  · exact Or.inr (Or.inr ⟨h, by rw [ncmpSign, if_neg (by omega), if_neg (by omega)]⟩)

theorem ncmpSign_toInt (x y : Int) : (ncmpSign (x - y)).toInt = (x - y).sign := by
  rcases ncmpSign_cases x y with ⟨h, hs⟩ | ⟨h, hs⟩ | ⟨h, hs⟩
  · rw [hs, Int.sign_eq_neg_one_of_neg (by omega)]
    rfl
  · rw [hs, h, Int.sub_self]
    rfl
  · rw [hs, Int.sign_eq_one_of_pos (by omega)]
    rfl

section Operators

variable (hc : c.Exact represents) (hl : left.iok = true) (hr : right.iok = true)
  (hlf : left.Faithful represents) (hrf : right.Faithful represents)
include hc hl hr hlf hrf

theorem ppLt_spec : ppLt f c left right = true ↔ left.value < right.value := by
  refine relational_spec (· < ·) hl hr hlf hrf ?_ hc.lt_iff ?_
  · intro i j
    simp [Int64.lt_iff_toInt_lt]
  · intro x y
    rcases ncmpSign_cases x y with ⟨h, hs⟩ | ⟨h, hs⟩ | ⟨h, hs⟩ <;> rw [hs] <;> simp <;> omega

theorem ppGt_spec : ppGt f c left right = true ↔ right.value < left.value := by
  refine relational_spec (fun x y => y < x) hl hr hlf hrf ?_ ?_ ?_
  · intro i j
    simp [Int64.lt_iff_toInt_lt]
  · exact fun a b x y ha hb => hc.lt_iff b a y x hb ha
  · intro x y
    rcases ncmpSign_cases x y with ⟨h, hs⟩ | ⟨h, hs⟩ | ⟨h, hs⟩ <;> rw [hs] <;> simp <;> omega

theorem ppLe_spec : ppLe f c left right = true ↔ left.value ≤ right.value := by
  refine relational_spec (· ≤ ·) hl hr hlf hrf ?_ ?_ ?_
  · intro i j
    simp [Int64.le_iff_toInt_le]
  · intro a b x y ha hb
    rw [Bool.or_eq_true, hc.lt_iff a b x y ha hb, hc.eq_iff a b x y ha hb]
    omega
  · intro x y
    rcases ncmpSign_cases x y with ⟨h, hs⟩ | ⟨h, hs⟩ | ⟨h, hs⟩ <;> rw [hs] <;> simp <;> omega

theorem ppGe_spec : ppGe f c left right = true ↔ right.value ≤ left.value := by
  refine relational_spec (fun x y => y ≤ x) hl hr hlf hrf ?_ ?_ ?_
  · intro i j
    simp [Int64.le_iff_toInt_le]
  · intro a b x y ha hb
    rw [Bool.or_eq_true, hc.lt_iff b a y x hb ha, hc.eq_iff a b x y ha hb]
    omega
  · intro x y
    have hless : ((-1 : Int32) &&& 2 == 0) = false := by decide
    have hgreater : ((1 : Int32) &&& 2 == 0) = true := by decide
    rcases ncmpSign_cases x y with ⟨h, hs⟩ | ⟨h, hs⟩ | ⟨h, hs⟩ <;> rw [hs]
    · simpa [hless] using h
    · simp [h]
    · simp only [hgreater, true_iff]
      exact h.le

theorem ppEq_spec : ppEq f c left right = true ↔ left.value = right.value := by
  refine relational_spec (· = ·) hl hr hlf hrf ?_ hc.eq_iff ?_
  · intro i j
    simp [Int64.toInt_inj]
  · intro x y
    rcases ncmpSign_cases x y with ⟨h, hs⟩ | ⟨h, hs⟩ | ⟨h, hs⟩ <;> rw [hs] <;> simp <;> omega

theorem ppNe_spec : ppNe f c left right = true ↔ left.value ≠ right.value := by
  refine relational_spec (· ≠ ·) hl hr hlf hrf ?_ ?_ ?_
  · intro i j
    simp [Int64.toInt_inj]
  · intro a b x y ha hb
    rw [Bool.not_eq_true', ← Bool.not_eq_true, hc.eq_iff a b x y ha hb]
  · intro x y
    rcases ncmpSign_cases x y with ⟨h, hs⟩ | ⟨h, hs⟩ | ⟨h, hs⟩ <;> rw [hs] <;> simp <;> omega

end Operators

theorem ppNcmp_spec (targ : Targ) (hl : left.iok = true) (hr : right.iok = true) :
    ppNcmp f c targ left right = some (.iv (Int64.ofInt (left.value - right.value).sign)) := by
  have hne : (ncmpSign (left.value - right.value) == 2) = false := by
    rcases ncmpSign_cases left.value right.value with ⟨-, hs⟩ | ⟨-, hs⟩ | ⟨-, hs⟩ <;> rw [hs] <;> rfl
  have hwide : (ncmpSign (left.value - right.value)).toInt64 =
      Int64.ofInt (left.value - right.value).sign := by
    rw [← ncmpSign_toInt]
    simp
  simp only [ppNcmp, doNcmp_integer hl hr, hne, Bool.false_eq_true, if_false, hwide, targi]
  simp [svSetiv]

/-- On every two IVs or UVs `do_ncmp` returns the sign of the difference, and the seven operators,
through each of their paths, answer as the order of the integers says; so the order they give is
transitive. -/
theorem comparison_exact (f : Floats NV) (c : Comparisons NV) (represents : NV → Int → Prop)
    (hc : c.Exact represents) (targ : Targ) (left right : Sv NV) (hl : left.iok = true)
    (hr : right.iok = true) (hlf : left.Faithful represents) (hrf : right.Faithful represents) :
    (doNcmp f c left right).toInt = (left.value - right.value).sign ∧
    (ppLt f c left right = true ↔ left.value < right.value) ∧
    (ppGt f c left right = true ↔ right.value < left.value) ∧
    (ppLe f c left right = true ↔ left.value ≤ right.value) ∧
    (ppGe f c left right = true ↔ right.value ≤ left.value) ∧
    (ppEq f c left right = true ↔ left.value = right.value) ∧
    (ppNe f c left right = true ↔ left.value ≠ right.value) ∧
    ppNcmp f c targ left right = some (.iv (Int64.ofInt (left.value - right.value).sign)) ∧
    ∀ third : Sv NV, third.iok = true → third.Faithful represents →
      (ppLt f c left right = true → ppLt f c right third = true → ppLt f c left third = true) ∧
      (ppLe f c left right = true → ppLe f c right third = true → ppLe f c left third = true) ∧
      (ppEq f c left right = true → ppEq f c right third = true → ppEq f c left third = true) := by
  have hlt := ppLt_spec (f := f) hc hl hr hlf hrf
  have hle := ppLe_spec (f := f) hc hl hr hlf hrf
  have heq := ppEq_spec (f := f) hc hl hr hlf hrf
  refine ⟨?_, hlt, ppGt_spec hc hl hr hlf hrf, hle, ppGe_spec hc hl hr hlf hrf, heq,
    ppNe_spec hc hl hr hlf hrf, ppNcmp_spec targ hl hr, ?_⟩
  · rw [doNcmp_integer hl hr, ncmpSign_toInt]
  · intro third ht htf
    rw [hlt, hle, heq, ppLt_spec hc hr ht hrf htf, ppLe_spec hc hr ht hrf htf,
      ppEq_spec hc hr ht hrf htf, ppLt_spec hc hl ht hlf htf, ppLe_spec hc hl ht hlf htf,
      ppEq_spec hc hl ht hlf htf]
    exact ⟨lt_trans, le_trans, Eq.trans⟩

def intComparisons : Comparisons Int := ⟨fun x y => decide (x < y), fun x y => decide (x = y)⟩

/-- A UV that was read as a float too, and the greatest IV. -/
theorem comparison_exact_halfway :
    ppLt intFloats intComparisons ⟨true, true, false, false, false, false, false, ivMax, 0⟩
        ⟨true, true, true, false, false, true, false, absIVMin, 2 ^ 63⟩ = true := by
  have hc : intComparisons.Exact (· = ·) := by
    refine ⟨?_, ?_⟩
    · rintro a b x y rfl rfl
      simp [intComparisons]
    · rintro a b x y rfl rfl
      simp [intComparisons]
  have hexact := comparison_exact intFloats intComparisons (· = ·) hc ⟨true, false⟩
    ⟨true, true, false, false, false, false, false, ivMax, 0⟩
    ⟨true, true, true, false, false, true, false, absIVMin, 2 ^ 63⟩ rfl rfl (by simp [Sv.Faithful])
    (by intro _; decide)
  exact hexact.2.1.2 (by decide)

end XPerl.Numeric
