import XPerl.Numeric.Arithmetic
import Mathlib.Algebra.Order.Ring.Abs

/-! The integer operators are exact whenever the result fits a word. -/

namespace XPerl.Numeric

open XPerl.Framework

variable {NV : Type}

def signedValue (u : UInt64) (nonneg : Bool) : Int := if nonneg then u.toNat else -u.toNat

/-- The form every integer result takes: an IV when it fits one, else a UV. -/
def Value.ofInt (z : Int) : Value NV :=
  if z < 2 ^ 63 then .iv (Int64.ofInt z) else .uv (UInt64.ofNat z.toNat)

def FitsWord (z : Int) : Prop := -2 ^ 63 ≤ z ∧ z < 2 ^ 64

instance (z : Int) : Decidable (FitsWord z) :=
  inferInstanceAs (Decidable (-2 ^ 63 ≤ z ∧ z < 2 ^ 64))

theorem ivMax_toNat : ivMax.toNat = 2 ^ 63 - 1 := rfl

theorem absIVMin_toNat : absIVMin.toNat = 2 ^ 63 := rfl

theorem negate2UV_spec (iv : Int64) (h : iv.toInt < 0) :
    ∃ u, negate2UV iv = some u ∧ (u.toNat : Int) = -iv.toInt := by
  have hlow := iv.le_toInt
  have hneg : iv < 0 := Int64.lt_iff_toInt_lt.2 (by simpa using h)
  have hnext : FitsSigned (iv.toInt + 1) := ⟨by omega, by omega⟩
  have hback : FitsSigned (-(iv.toInt + 1)) := ⟨by omega, by omega⟩
  refine ⟨(Int64.ofInt (-(iv.toInt + 1))).toUInt64 + 1, ?_, ?_⟩
  · simp only [negate2UV, hneg, if_true, checked_of_fits hnext, Option.bind_eq_bind,
      Option.bind_some, toInt_ofInt hnext, checked_of_fits hback]
    rfl
  · have hcast := toNat_toUInt64 (Int64.ofInt (-(iv.toInt + 1)))
    rw [toInt_ofInt hback] at hcast
    rw [UInt64.toNat_add]
    have hone : (1 : UInt64).toNat = 1 := rfl
    omega

theorem negate2IV_spec (uv : UInt64) (h : uv.toNat ≤ 2 ^ 63) :
    negate2IV uv = some (Int64.ofInt (-uv.toNat)) := by
  have hle : uv ≤ absIVMin := UInt64.le_iff_toNat_le.2 h
  have height : (8 : UInt64).toNat = 8 := rfl
  by_cases hsmall : uv < 8
  · have hlt : uv.toNat < 8 := UInt64.lt_iff_toNat_lt.1 hsmall
    have hcast : uv.toInt64.toInt = uv.toNat := toInt_toInt64 uv (by omega)
    have hfits : FitsSigned (-(uv.toNat : Int)) := ⟨by omega, by omega⟩
    simp [negate2IV, hle, hsmall, hcast, checked_of_fits hfits]
  · have hge : 8 ≤ uv.toNat := Nat.le_of_not_lt fun hlt => hsmall (UInt64.lt_iff_toNat_lt.2 hlt)
    have hsub : (uv - 8).toNat = uv.toNat - 8 := by
      rw [UInt64.toNat_sub_of_le _ _ (UInt64.le_iff_toNat_le.2 (height.symm ▸ hge)), height]
    have hcast : (uv - 8).toInt64.toInt = (uv.toNat - 8 : Nat) := by
      rw [toInt_toInt64 _ (by omega), hsub]
    have hfirst : FitsSigned (-((uv.toNat - 8 : Nat) : Int)) := ⟨by omega, by omega⟩
    have hval : -((uv.toNat - 8 : Nat) : Int) - 8 = -uv.toNat := by omega
    have hsecond : FitsSigned (-(uv.toNat : Int)) := ⟨by omega, by omega⟩
    simp only [negate2IV, hle, hsmall, hcast, if_true, if_false, checked_of_fits hfirst,
      Option.bind_eq_bind, Option.bind_some, toInt_ofInt hfirst, hval, checked_of_fits hsecond]

theorem magnitude_spec (sv : Sv NV) :
    ∃ u nonneg, magnitude sv = some (u, nonneg) ∧ signedValue u nonneg = sv.value ∧
      (nonneg = false → 0 < u.toNat ∧ u.toNat ≤ 2 ^ 63) := by
  by_cases huv : sv.isUV
  · exact ⟨sv.uvx, true, by simp [magnitude, huv], by simp [signedValue, Sv.value, huv], by simp⟩
  · by_cases hpos : 0 ≤ sv.ivx.toInt
    · have hge : sv.ivx ≥ 0 := Int64.le_iff_toInt_le.2 (by simpa using hpos)
      refine ⟨sv.ivx.toUInt64, true, by simp [magnitude, huv, hge], ?_, by simp⟩
      have hcast := toNat_toUInt64 sv.ivx
      have hlt := sv.ivx.toInt_lt
      rw [signedValue, if_pos rfl, Sv.value, if_neg huv]
      omega
    · have hge : ¬ sv.ivx ≥ 0 := by
        intro h
        have := Int64.le_iff_toInt_le.1 h
        exact hpos (by simpa using this)
      obtain ⟨u, hu, hval⟩ := negate2UV_spec sv.ivx (by omega)
      refine ⟨u, false, by simp [magnitude, huv, hge, hu], ?_, ?_⟩
      · rw [signedValue, if_neg Bool.false_ne_true, Sv.value, if_neg huv]
        omega
      · have hlow := sv.ivx.le_toInt
        intro _
        omega

theorem value_fits (sv : Sv NV) : FitsWord sv.value := by
  cases huv : sv.isUV with
  | true =>
    have hlt := sv.uvx.toNat_lt
    simp only [Sv.value, huv, if_true]
    constructor <;> omega
  | false =>
    have hlow := sv.ivx.le_toInt
    have hhigh := sv.ivx.toInt_lt
    simp only [Sv.value, huv, Bool.false_eq_true, if_false]
    constructor <;> omega

/-- The exact result of an operator. -/
def Arith.exact : Arith → Int → Int → Int
  | .add => (· + ·)
  | .subtract => (· - ·)
  | .multiply => (· * ·)

private theorem toNat_top (u : UInt64) (k : Nat) (hk : k < 64) (hpos : 0 < k) :
    ((u >>> UInt64.ofNat k) + 1).toNat = u.toNat / 2 ^ k + 1 := by
  have hlt := u.toNat_lt
  have hshift : (u >>> UInt64.ofNat k).toNat = u.toNat / 2 ^ k := by
    rw [UInt64.toNat_shiftRight, Nat.shiftRight_eq_div_pow]
    congr 2
    rw [UInt64.toNat_ofNat']
    omega
  have hbound : u.toNat / 2 ^ k < 2 ^ 63 := by
    apply Nat.div_lt_of_lt_mul
    have hpow : 2 ≤ 2 ^ k := Nat.pow_le_pow_right (n := 2) (by omega) hpos
    omega
  rw [UInt64.toNat_add, hshift]
  have hone : (1 : UInt64).toNat = 1 := rfl
  omega

private theorem tops_eq_zero (il ir : Int64) (k m : Nat) (hk : k < 64) (hpos : 0 < k)
    (mask : UInt64) (hmask : mask.toNat = 2 ^ (m + 1) - 2)
    (h : ((il.toUInt64 >>> UInt64.ofNat k) + 1 ||| (ir.toUInt64 >>> UInt64.ofNat k) + 1)
      &&& mask = 0) :
    (il.toUInt64.toNat / 2 ^ k + 1) / 2 % 2 ^ m = 0 ∧
      (ir.toUInt64.toNat / 2 ^ k + 1) / 2 % 2 ^ m = 0 := by
  have hnat := congrArg UInt64.toNat h
  rw [UInt64.toNat_and, UInt64.toNat_or, toNat_top _ k hk hpos, toNat_top _ k hk hpos, hmask]
    at hnat
  have hboth := (or_and_eq_zero _ _ _).1 hnat
  exact ⟨(and_mask_eq_zero _ _).1 hboth.1, (and_mask_eq_zero _ _).1 hboth.2⟩

private theorem window_of_top (i : Int64)
    (h : (i.toUInt64.toNat / 2 ^ 62 + 1) / 2 % 2 ^ 1 = 0) :
    -2 ^ 62 ≤ i.toInt ∧ i.toInt < 2 ^ 62 := by
  have hcast := toNat_toUInt64 i
  have hlow := i.le_toInt
  have hhigh := i.toInt_lt
  omega

private theorem window_of_half (i : Int64)
    (h : (i.toUInt64.toNat / 2 ^ 31 + 1) / 2 % 2 ^ 32 = 0) :
    -2 ^ 31 ≤ i.toInt ∧ i.toInt < 2 ^ 31 := by
  have hcast := toNat_toUInt64 i
  have hlow := i.le_toInt
  have hhigh := i.toInt_lt
  omega

theorem windows_of_ivTopBitsDiffer {il ir : Int64} (h : ivTopBitsDiffer il ir = false) :
    (-2 ^ 62 ≤ il.toInt ∧ il.toInt < 2 ^ 62) ∧ -2 ^ 62 ≤ ir.toInt ∧ ir.toInt < 2 ^ 62 := by
  have htops := tops_eq_zero il ir 62 1 (by omega) (by omega) 2 rfl (by
    simpa [ivTopBitsDiffer] using h)
  exact ⟨window_of_top il htops.1, window_of_top ir htops.2⟩

theorem windows_of_ivTopHalvesDiffer {il ir : Int64} (h : ivTopHalvesDiffer il ir = false) :
    (-2 ^ 31 ≤ il.toInt ∧ il.toInt < 2 ^ 31) ∧ -2 ^ 31 ≤ ir.toInt ∧ ir.toInt < 2 ^ 31 := by
  have htops := tops_eq_zero il ir 31 32 (by omega) (by omega) (((1 : UInt64) <<< 33) - 2) (by decide) (by
    simpa [ivTopHalvesDiffer] using h)
  exact ⟨window_of_half il htops.1, window_of_half ir htops.2⟩

private theorem mul_fits {a b : Int} (ha : -2 ^ 31 ≤ a ∧ a < 2 ^ 31)
    (hb : -2 ^ 31 ≤ b ∧ b < 2 ^ 31) : FitsSigned (a * b) := by
  have habs : |a * b| ≤ 2 ^ 31 * 2 ^ 31 := by
    rw [abs_mul]
    apply mul_le_mul (abs_le.2 ⟨ha.1, by omega⟩) (abs_le.2 ⟨hb.1, by omega⟩) (abs_nonneg b)
    omega
  have hbounds := abs_le.1 habs
  exact ⟨by omega, by omega⟩

def Accepts (answer : Option Int64) (z : Int) : Prop :=
  ∀ i, answer = some i → FitsSigned z ∧ i = Int64.ofInt z

theorem accepts_checked (z : Int) : Accepts (checked z) z := by
  intro i h
  by_cases hfits : FitsSigned z
  · rw [checked_of_fits hfits] at h
    exact ⟨hfits, (Option.some.inj h).symm⟩
  · rw [checked_of_not_fits hfits] at h
    cases h

private theorem test_spec (provided differ : Bool) (z : Int) (h : differ = false → FitsSigned z) :
    ∃ answer, (if provided then some (checked z)
      else if !differ then do
        let result ← checked z
        return some result
      else return none) = some answer ∧ Accepts answer z := by
  cases provided with
  | true => exact ⟨checked z, rfl, accepts_checked z⟩
  | false =>
    cases differ with
    | true => exact ⟨none, rfl, fun i hi => by cases hi⟩
    | false =>
      have hz := checked_of_fits (h rfl)
      refine ⟨some (Int64.ofInt z), by rw [hz]; rfl, ?_⟩
      rw [← hz]
      exact accepts_checked z

theorem mayOverflow_spec (build : Build) (op : Arith) (il ir : Int64) :
    ∃ answer, op.mayOverflow build il ir = some answer ∧
      Accepts answer (op.exact il.toInt ir.toInt) := by
  cases op with
  | add =>
    apply test_spec
    intro h
    obtain ⟨hl, hr⟩ := windows_of_ivTopBitsDiffer h
    constructor <;> omega
  | subtract =>
    apply test_spec
    intro h
    obtain ⟨hl, hr⟩ := windows_of_ivTopBitsDiffer h
    constructor <;> omega
  | multiply =>
    apply test_spec
    intro h
    obtain ⟨hl, hr⟩ := windows_of_ivTopHalvesDiffer h
    exact mul_fits hl hr

@[simp] theorem signedValue_not (u : UInt64) (nonneg : Bool) :
    signedValue u (!nonneg) = -signedValue u nonneg := by
  cases nonneg <;> simp [signedValue]

/-- What the case analysis on the signs must give for the exact result `z`. -/
structure Combines (answer : Option (UInt64 × Bool)) (z : Int) : Prop where
  good : ∀ u nonneg, answer = some (u, nonneg) → signedValue u nonneg = z
  overflow : answer = none → ¬ FitsWord z

theorem subtractMagnitudes_spec (auv buv : UInt64) (nonneg : Bool) :
    Combines (subtractMagnitudes auv nonneg buv)
      (signedValue auv nonneg - signedValue buv nonneg) := by
  by_cases hge : buv ≤ auv
  · have hnat := UInt64.le_iff_toNat_le.1 hge
    have hsub := UInt64.toNat_sub_of_le _ _ hge
    have hle : auv - buv ≤ auv := UInt64.le_iff_toNat_le.2 (by omega)
    have hval : subtractMagnitudes auv nonneg buv = some (auv - buv, nonneg) := by
      simp [subtractMagnitudes, hge, hle]
    constructor
    · intro u ok hu
      rw [hval] at hu
      cases hu
      cases nonneg <;> simp only [signedValue] <;> simp <;> omega
    · intro hnone
      rw [hval] at hnone
      cases hnone
  · have hnat : auv.toNat < buv.toNat := by
      apply Nat.lt_of_not_le
      intro hle
      exact hge (UInt64.le_iff_toNat_le.2 hle)
    have hsub := UInt64.toNat_sub_of_le buv auv (UInt64.le_iff_toNat_le.2 (by omega))
    have hle : buv - auv ≤ buv := UInt64.le_iff_toNat_le.2 (by omega)
    have hval : subtractMagnitudes auv nonneg buv = some (buv - auv, !nonneg) := by
      simp [subtractMagnitudes, hge, hle]
    constructor
    · intro u ok hu
      rw [hval] at hu
      cases hu
      cases nonneg <;> simp only [signedValue] <;> simp <;> omega
    · intro hnone
      rw [hval] at hnone
      cases hnone

theorem addMagnitudes_spec (auv buv : UInt64) (nonneg : Bool) :
    Combines (addMagnitudes auv nonneg buv)
      (signedValue auv nonneg + signedValue buv nonneg) := by
  have ha := auv.toNat_lt
  have hb := buv.toNat_lt
  have hadd := UInt64.toNat_add auv buv
  by_cases hge : auv ≤ auv + buv
  · have hnat := UInt64.le_iff_toNat_le.1 hge
    have hval : addMagnitudes auv nonneg buv = some (auv + buv, nonneg) := by
      simp [addMagnitudes, hge]
    constructor
    · intro u ok hu
      rw [hval] at hu
      cases hu
      cases nonneg <;> simp only [signedValue] <;> simp <;> omega
    · intro hnone
      rw [hval] at hnone
      cases hnone
  · have hnat : (auv + buv).toNat < auv.toNat := by
      apply Nat.lt_of_not_le
      intro hle
      exact hge (UInt64.le_iff_toNat_le.2 hle)
    have hval : addMagnitudes auv nonneg buv = none := by simp [addMagnitudes, hge]
    constructor
    · intro u ok hu
      rw [hval] at hu
      cases hu
    · intro _ hfits
      rcases hfits with ⟨hlow, hhigh⟩
      cases nonneg <;> simp only [signedValue] at hlow hhigh <;> simp at hlow hhigh <;> omega

theorem addSigned_spec (auv : UInt64) (auvok : Bool) (buv : UInt64) (buvok : Bool) :
    Combines (addSigned auv auvok buv buvok)
      (signedValue auv auvok + signedValue buv buvok) := by
  by_cases hsame : auvok = buvok
  · have h := addMagnitudes_spec auv buv auvok
    simpa [addSigned, hsame] using h
  · have hflip : buvok = !auvok := by cases auvok <;> cases buvok <;> simp_all
    have h := subtractMagnitudes_spec auv buv auvok
    rw [hflip, signedValue_not, ← sub_eq_add_neg]
    simpa [addSigned] using h

theorem subtractSigned_eq (auv : UInt64) (auvok : Bool) (buv : UInt64) (buvok : Bool) :
    subtractSigned auv auvok buv buvok = addSigned auv auvok buv (!buvok) := by
  cases auvok <;> cases buvok <;> rfl

theorem subtractSigned_spec (auv : UInt64) (auvok : Bool) (buv : UInt64) (buvok : Bool) :
    Combines (subtractSigned auv auvok buv buvok)
      (signedValue auv auvok - signedValue buv buvok) := by
  have h := addSigned_spec auv auvok buv (!buvok)
  rw [signedValue_not, ← sub_eq_add_neg] at h
  rw [subtractSigned_eq]
  exact h

theorem svSetuv_eq (u : UInt64) : (svSetuv u : Value NV) = Value.ofInt u.toNat := by
  by_cases hle : u ≤ ivMax
  · have hnat : u.toNat ≤ 2 ^ 63 - 1 := UInt64.le_iff_toNat_le.1 hle
    have hcast := toInt_toInt64 u (by omega)
    have hofInt : Int64.ofInt u.toNat = u.toInt64 := by rw [← hcast, Int64.ofInt_toInt]
    have hlt : (u.toNat : Int) < 2 ^ 63 := by omega
    simp only [svSetuv, hle, if_true, svSetiv, Value.ofInt, hlt, hofInt]
  · have hge : ¬ (u.toNat : Int) < 2 ^ 63 := by
      intro hlt
      apply hle
      apply UInt64.le_iff_toNat_le.2
      rw [ivMax_toNat]
      omega
    simp only [svSetuv, hle, if_false, Value.ofInt, hge, Int.toNat_natCast, UInt64.ofNat_toNat]

theorem targu_eq (targ : Targ) (u : UInt64) (doTaint : Bool) :
    (targu targ u doTaint : Value NV) = Value.ofInt u.toNat := by
  rw [← svSetuv_eq]
  by_cases hle : u ≤ ivMax
  · by_cases hcheap : targ.cheap doTaint <;> simp [targu, svSetuv, svSetiv, hle, hcheap]
  · simp [targu, hle]

theorem targi_eq (targ : Targ) (z : Int) (hz : FitsSigned z) (doTaint : Bool) :
    (targi targ (Int64.ofInt z) doTaint : Value NV) = Value.ofInt z := by
  have hlt : z < 2 ^ 63 := hz.2
  simp only [targi, svSetiv, ite_self, Value.ofInt, hlt, if_true]

theorem storeSigned_spec (f : Floats NV) (targ : Targ) (u : UInt64) (nonneg : Bool) :
    storeSigned f targ u nonneg =
      some (if FitsWord (signedValue u nonneg) then Value.ofInt (signedValue u nonneg)
        else .nv (f.neg (f.ofUV u))) := by
  have hlt := u.toNat_lt
  cases nonneg with
  | true =>
    have hfits : FitsWord (signedValue u true) := by
      constructor <;> simp only [signedValue, if_true] <;> omega
    rw [if_pos hfits, storeSigned, if_pos rfl, targu_eq]
    rfl
  | false =>
    have hval : signedValue u false = -u.toNat := rfl
    rw [hval, storeSigned, if_neg Bool.false_ne_true]
    by_cases hle : u ≤ absIVMin
    · have hnat : u.toNat ≤ 2 ^ 63 := UInt64.le_iff_toNat_le.1 hle
      rw [if_pos hle, negate2IV_spec u hnat, if_pos ⟨by omega, by omega⟩,
        ← targi_eq targ (-u.toNat) ⟨by omega, by omega⟩ true]
      rfl
    · have hnat : ¬ FitsWord (-(u.toNat : Int)) := by
        intro hfits
        apply hle
        apply UInt64.le_iff_toNat_le.2
        rw [absIVMin_toNat]
        have hlow := hfits.1
        omega
      rw [if_neg hle, if_neg hnat]
      rfl

theorem uvAddOverflow_spec (build : Build) (auv buv : UInt64) :
    (∀ sum, uvAddOverflow build auv buv = some sum → sum.toNat = auv.toNat + buv.toNat) ∧
      (uvAddOverflow build auv buv = none → 2 ^ 64 ≤ auv.toNat + buv.toNat) := by
  have ha := auv.toNat_lt
  have hb := buv.toNat_lt
  have hadd := UInt64.toNat_add auv buv
  by_cases hbuild : build.uvAdd
  · by_cases hlt : auv.toNat + buv.toNat < 2 ^ 64
    · simp only [uvAddOverflow, hbuild, if_true, hlt]
      constructor
      · intro sum hsum
        cases hsum
        omega
      · intro hnone
        cases hnone
    · simp only [uvAddOverflow, hbuild, if_true, hlt, if_false]
      constructor
      · intro sum hsum
        cases hsum
      · intro _
        omega
  · by_cases hwrap : auv + buv < auv
    · have hnat := UInt64.lt_iff_toNat_lt.1 hwrap
      simp only [uvAddOverflow, hbuild, hwrap, if_true]
      constructor
      · intro sum hsum
        cases hsum
      · intro _
        omega
    · have hnat : auv.toNat ≤ (auv + buv).toNat := by
        apply Nat.le_of_not_lt
        intro hlt
        exact hwrap (UInt64.lt_iff_toNat_lt.2 hlt)
      simp only [uvAddOverflow, hbuild, hwrap, if_false]
      constructor
      · intro sum hsum
        cases hsum
        omega
      · intro hnone
        cases hnone

private theorem toNat_high (u : UInt64) : (u >>> 32).toNat = u.toNat / 2 ^ 32 := by
  rw [UInt64.toNat_shiftRight, Nat.shiftRight_eq_div_pow]
  rfl

private theorem toNat_low (u : UInt64) :
    (u &&& ~~~((~~~(0 : UInt64)) <<< 32)).toNat = u.toNat % 2 ^ 32 := by
  rw [UInt64.toNat_and]
  exact Nat.and_two_pow_sub_one_eq_mod u.toNat 32

private theorem top_eq_zero (u : UInt64) :
    u &&& ((~~~(0 : UInt64)) <<< 32) = 0 ↔ u.toNat < 2 ^ 32 := by
  have hlt := u.toNat_lt
  have hmask : ((~~~(0 : UInt64)) <<< 32).toNat = (2 ^ 32 - 1) <<< 32 := rfl
  have hzero : (0 : UInt64).toNat = 0 := rfl
  rw [← UInt64.toNat_inj, UInt64.toNat_and, hmask, hzero]
  have hdiv : (u.toNat &&& (2 ^ 32 - 1) <<< 32) / 2 ^ 32 = u.toNat / 2 ^ 32 := by
    rw [Nat.and_div_two_pow, Nat.shiftLeft_eq, Nat.mul_div_cancel _ (by omega),
      Nat.and_two_pow_sub_one_eq_mod]
    omega
  have hmod : (u.toNat &&& (2 ^ 32 - 1) <<< 32) % 2 ^ 32 = 0 := by
    rw [Nat.and_mod_two_pow, Nat.shiftLeft_eq, Nat.mul_mod_left]
    simp
  omega

private theorem product_by_halves (a b : Nat) (ha : a < 2 ^ 64) (hb : b < 2 ^ 64)
    (hsmall : a / 2 ^ 32 = 0 ∨ b / 2 ^ 32 = 0) :
    a * b = (a / 2 ^ 32 * (b % 2 ^ 32) + a % 2 ^ 32 * (b / 2 ^ 32)) * 2 ^ 32 +
        a % 2 ^ 32 * (b % 2 ^ 32) ∧
      a / 2 ^ 32 * (b % 2 ^ 32) + a % 2 ^ 32 * (b / 2 ^ 32) < 2 ^ 64 ∧
      a % 2 ^ 32 * (b % 2 ^ 32) < 2 ^ 64 := by
  have hsplit (n : Nat) : n = n / 2 ^ 32 * 2 ^ 32 + n % 2 ^ 32 := by omega
  have hmul (x y : Nat) (hx : x < 2 ^ 32) (hy : y < 2 ^ 32) : x * y < 2 ^ 64 := by
    have h := Nat.mul_lt_mul_of_lt_of_lt hx hy
    omega
  have hal := Nat.mod_lt a (y := 2 ^ 32) (by omega)
  have hbl := Nat.mod_lt b (y := 2 ^ 32) (by omega)
  have hah : a / 2 ^ 32 < 2 ^ 32 := by omega
  have hbh : b / 2 ^ 32 < 2 ^ 32 := by omega
  refine ⟨?_, ?_, hmul _ _ hal hbl⟩
  · rcases hsmall with hzero | hzero
    · conv_lhs => rw [hsplit a, hsplit b]
      rw [hzero]
      ring
    · conv_lhs => rw [hsplit a, hsplit b]
      rw [hzero]
      ring
  · rcases hsmall with hzero | hzero
    · rw [hzero, Nat.zero_mul, Nat.zero_add]
      exact hmul _ _ hal hbh
    · rw [hzero, Nat.mul_zero, Nat.add_zero]
      exact hmul _ _ hah hbl

private def lowHalf (u : UInt64) : UInt64 := u &&& ~~~((~~~(0 : UInt64)) <<< 32)

private def middle (auv buv : UInt64) : UInt64 :=
  (auv >>> 32) * lowHalf buv + lowHalf auv * (buv >>> 32)

private theorem uvMulOverflow_by_halves (build : Build) (auv buv : UInt64)
    (hbuild : ¬ build.uvMul = true) (hboth : ¬ (auv >>> 32 ≠ 0 ∧ buv >>> 32 ≠ 0)) :
    uvMulOverflow build auv buv =
      if (middle auv buv).toNat < 2 ^ 32 then
        uvAddOverflow build (middle auv buv <<< 32) (lowHalf auv * lowHalf buv)
      else none := by
  have hguard : (auv >>> 32 != 0 && buv >>> 32 != 0) = false := by simpa using hboth
  by_cases heither : auv >>> 32 = 0 ∧ buv >>> 32 = 0
  · have hzero : middle auv buv = 0 := by simp [middle, heither]
    have hshift : (0 : UInt64) <<< 32 = 0 := rfl
    have hlt : (0 : UInt64).toNat < 2 ^ 32 := by decide
    rw [hzero, if_pos hlt, hshift]
    simp [uvMulOverflow, hbuild, heither, lowHalf]
  · have hone : (auv >>> 32 != 0 || buv >>> 32 != 0) = true := by
      simpa [imp_iff_not_or] using heither
    simp only [uvMulOverflow, hbuild, hguard, hone, if_true, if_false, Bool.false_eq_true]
    rw [show (auv >>> 32) * (buv &&& ~~~((~~~(0 : UInt64)) <<< 32)) +
      (auv &&& ~~~((~~~(0 : UInt64)) <<< 32)) * (buv >>> 32) = middle auv buv from rfl]
    by_cases hlt : (middle auv buv).toNat < 2 ^ 32
    · rw [if_pos hlt, (top_eq_zero _).2 hlt]
      rfl
    · have htop : (middle auv buv &&& ((~~~(0 : UInt64)) <<< 32) != 0) = true := by
        rw [bne_iff_ne]
        exact mt (top_eq_zero _).1 hlt
      rw [if_neg hlt, if_pos htop]

private theorem toNat_middle (auv buv : UInt64)
    (h : auv.toNat / 2 ^ 32 * (buv.toNat % 2 ^ 32) +
      auv.toNat % 2 ^ 32 * (buv.toNat / 2 ^ 32) < 2 ^ 64) :
    (middle auv buv).toNat = auv.toNat / 2 ^ 32 * (buv.toNat % 2 ^ 32) +
      auv.toNat % 2 ^ 32 * (buv.toNat / 2 ^ 32) := by
  rw [middle, UInt64.toNat_add, UInt64.toNat_mul, UInt64.toNat_mul, toNat_high, toNat_high,
    lowHalf, lowHalf, toNat_low, toNat_low, ← Nat.add_mod, Nat.mod_eq_of_lt h]

theorem uvMulOverflow_spec (build : Build) (auv buv : UInt64) :
    (∀ product, uvMulOverflow build auv buv = some product →
        product.toNat = auv.toNat * buv.toNat) ∧
      (uvMulOverflow build auv buv = none → 2 ^ 64 ≤ auv.toNat * buv.toNat) := by
  have ha := auv.toNat_lt
  have hb := buv.toNat_lt
  by_cases hbuild : build.uvMul
  · by_cases hlt : auv.toNat * buv.toNat < 2 ^ 64
    · simp only [uvMulOverflow, hbuild, if_true, hlt]
      constructor
      · intro product hproduct
        cases hproduct
        rw [UInt64.toNat_mul, Nat.mod_eq_of_lt hlt]
      · intro hnone
        cases hnone
    · simp only [uvMulOverflow, hbuild, if_true, hlt, if_false]
      constructor
      · intro product hproduct
        cases hproduct
      · intro _
        omega
  · have hhigh (u : UInt64) : u >>> 32 = 0 ↔ u.toNat / 2 ^ 32 = 0 := by
      rw [← UInt64.toNat_inj, toNat_high]
      rfl
    by_cases hboth : auv >>> 32 ≠ 0 ∧ buv >>> 32 ≠ 0
    · have hval : uvMulOverflow build auv buv = none := by
        simp [uvMulOverflow, hbuild, hboth]
      rw [hval]
      refine ⟨by simp, ?_⟩
      intro _
      have hal := mt (hhigh auv).2 hboth.1
      have hbl := mt (hhigh buv).2 hboth.2
      have h := Nat.mul_le_mul (show 2 ^ 32 ≤ auv.toNat by omega) (show 2 ^ 32 ≤ buv.toNat by omega)
      omega
    · have hsmall : auv.toNat / 2 ^ 32 = 0 ∨ buv.toNat / 2 ^ 32 = 0 := by
        rw [← hhigh, ← hhigh]
        exact or_iff_not_and_not.2 hboth
      obtain ⟨hsplit, hmiddle, hlow⟩ := product_by_halves _ _ ha hb hsmall
      have hmid := toNat_middle auv buv hmiddle
      have hlowVal : (lowHalf auv * lowHalf buv).toNat =
          auv.toNat % 2 ^ 32 * (buv.toNat % 2 ^ 32) := by
        rw [UInt64.toNat_mul, lowHalf, lowHalf, toNat_low, toNat_low, Nat.mod_eq_of_lt hlow]
      rw [uvMulOverflow_by_halves build auv buv hbuild hboth]
      by_cases hlt : (middle auv buv).toNat < 2 ^ 32
      · have hshift : (middle auv buv <<< 32).toNat = (middle auv buv).toNat * 2 ^ 32 := by
          rw [UInt64.toNat_shiftLeft, Nat.shiftLeft_eq]
          change (middle auv buv).toNat * 2 ^ 32 % 2 ^ 64 = _
          omega
        obtain ⟨hgood, hover⟩ := uvAddOverflow_spec build (middle auv buv <<< 32)
          (lowHalf auv * lowHalf buv)
        rw [if_pos hlt, hsplit]
        rw [hshift, hlowVal, hmid] at hgood hover
        exact ⟨hgood, hover⟩
      · rw [if_neg hlt]
        refine ⟨by simp, ?_⟩
        intro _
        rw [hsplit]
        omega

theorem svIVPleaseNomg_iok (f : Floats NV) (sv : Sv NV) (h : sv.iok = true) :
    svIVPleaseNomg f sv = (sv, true) := by
  simp [svIVPleaseNomg, h]

/-- An integer operator ends in floating point: on the operands as floats, or in the negation of the
absolute value of `z`. -/
def IsFloating (f : Floats NV) (op : Arith) (svl svr : Sv NV) (z : Int) (value : Value NV) : Prop :=
  value = .nv (op.nvOp f (f.svNV svl) (f.svNV svr)) ∨
    ∃ u : UInt64, (u.toNat : Int) = -z ∧ value = .nv (f.neg (f.ofUV u))

/-- What an integer operator must answer when the exact result is `z`. -/
def Answers (f : Floats NV) (op : Arith) (svl svr : Sv NV) (z : Int) (value : Value NV) : Prop :=
  if FitsWord z then value = Value.ofInt z else IsFloating f op svl svr z value

private theorem value_of_not_fits (u : UInt64) (nonneg : Bool)
    (h : ¬ FitsWord (signedValue u nonneg)) : (u.toNat : Int) = -signedValue u nonneg := by
  have hlt := u.toNat_lt
  cases nonneg with
  | true =>
    refine absurd ?_ h
    constructor <;> simp only [signedValue, if_true] <;> omega
  | false => simp [signedValue]

private theorem additive_spec (f : Floats NV) (op : Arith) (z : Int)
    (combine : UInt64 → Bool → UInt64 → Bool → Option (UInt64 × Bool)) (stacked : Bool)
    (targ : Targ) (svl svr : Sv NV) (hl : svl.iok = true) (hr : svr.iok = true)
    (hcombine : ∀ auv auvok buv buvok, signedValue auv auvok = svl.value →
      signedValue buv buvok = svr.value → Combines (combine auv auvok buv buvok) z) :
    ∃ value, additive f combine (op.nvOp f) stacked targ svl svr = some value ∧
      Answers f op svl svr z value := by
  obtain ⟨auv, auvok, ha, haval, -⟩ := magnitude_spec svl
  obtain ⟨buv, buvok, hb, hbval, -⟩ := magnitude_spec svr
  obtain ⟨hgood, hover⟩ := hcombine auv auvok buv buvok haval hbval
  have huse : svl.ok = true := by simp [Sv.ok, hl]
  cases hanswer : combine auv auvok buv buvok with
  | none =>
    refine ⟨.nv (op.nvOp f (f.svNV svl) (f.svNV svr)), ?_, ?_⟩
    · simp [additive, huse, svIVPleaseNomg_iok, hl, hr, leftMagnitude, ha, hb, hanswer]
    · rw [Answers, if_neg (hover hanswer)]
      exact Or.inl rfl
  | some answer =>
    have hz := hgood answer.1 answer.2 hanswer
    have hrun : additive f combine (op.nvOp f) stacked targ svl svr =
        storeSigned f targ answer.1 answer.2 := by
      simp [additive, huse, svIVPleaseNomg_iok, hl, hr, leftMagnitude, ha, hb, hanswer]
    rw [hrun, storeSigned_spec, hz]
    refine ⟨_, rfl, ?_⟩
    by_cases hfits : FitsWord z
    · rw [Answers, if_pos hfits, if_pos hfits]
    · rw [Answers, if_neg hfits, if_neg hfits]
      refine Or.inr ⟨answer.1, ?_, rfl⟩
      rw [← hz] at hfits ⊢
      exact value_of_not_fits _ _ hfits

private theorem signedValue_mul (auv buv : UInt64) (auvok buvok : Bool) :
    signedValue auv auvok * signedValue buv buvok =
      if auvok == buvok then ((auv.toNat * buv.toNat : Nat) : Int)
      else -((auv.toNat * buv.toNat : Nat) : Int) := by
  cases auvok <;> cases buvok <;> simp [signedValue]

private theorem multiplyGeneric_spec (build : Build) (f : Floats NV) (targ : Targ)
    (svl svr : Sv NV) (hl : svl.iok = true) (hr : svr.iok = true) :
    ∃ value, multiplyGeneric build f targ svl svr = some value ∧
      Answers f .multiply svl svr (svl.value * svr.value) value := by
  obtain ⟨auv, auvok, ha, haval, -⟩ := magnitude_spec svl
  obtain ⟨buv, buvok, hb, hbval, -⟩ := magnitude_spec svr
  obtain ⟨hgood, hover⟩ := uvMulOverflow_spec build auv buv
  have hz := signedValue_mul auv buv auvok buvok
  rw [haval, hbval] at hz
  rw [hz]
  cases hproduct : uvMulOverflow build auv buv with
  | none =>
    have hlarge := hover hproduct
    refine ⟨.nv (f.mul (f.svNV svl) (f.svNV svr)), ?_, ?_⟩
    · simp [multiplyGeneric, svIVPleaseNomg_iok, hl, hr, ha, hb, hproduct]
    · rw [Answers, if_neg]
      · exact Or.inl rfl
      · intro hfits
        rcases hfits with ⟨hlow, hhigh⟩
        by_cases hsame : (auvok == buvok) = true
        · rw [if_pos hsame] at hhigh
          omega
        · rw [if_neg hsame] at hlow
          omega
  | some product =>
    have hval := hgood product hproduct
    have hlt := product.toNat_lt
    rw [← hval]
    by_cases hsame : (auvok == buvok) = true
    · have heq : auvok = buvok := by simpa using hsame
      refine ⟨targu targ product true, ?_, ?_⟩
      · simp [multiplyGeneric, svIVPleaseNomg_iok, hl, hr, ha, hb, hproduct, heq]
      · rw [Answers, if_pos hsame, if_pos ⟨by omega, by omega⟩, targu_eq]
    · have hne : ¬ auvok = buvok := by simpa using hsame
      by_cases hle : product ≤ absIVMin
      · have hnat : product.toNat ≤ 2 ^ 63 := UInt64.le_iff_toNat_le.1 hle
        refine ⟨targi targ (Int64.ofInt (-product.toNat)) true, ?_, ?_⟩
        · simp [multiplyGeneric, svIVPleaseNomg_iok, hl, hr, ha, hb, hproduct, hne, hle,
            negate2IV_spec product hnat]
        · rw [Answers, if_neg hsame, if_pos ⟨by omega, by omega⟩,
            targi_eq targ _ ⟨by omega, by omega⟩]
      · refine ⟨.nv (f.mul (f.svNV svl) (f.svNV svr)), ?_, ?_⟩
        · simp [multiplyGeneric, svIVPleaseNomg_iok, hl, hr, ha, hb, hproduct, hne, hle]
        · rw [Answers, if_neg]
          · exact Or.inl rfl
          · intro hfits
            rw [if_neg hsame] at hfits
            have hlow := hfits.1
            apply hle
            apply UInt64.le_iff_toNat_le.2
            rw [absIVMin_toNat]
            omega

theorem generic_spec (build : Build) (f : Floats NV) (stacked : Bool) (op : Arith) (targ : Targ)
    (svl svr : Sv NV) (hl : svl.iok = true) (hr : svr.iok = true) :
    ∃ value, op.generic build f stacked targ svl svr = some value ∧
      Answers f op svl svr (op.exact svl.value svr.value) value := by
  cases op with
  | add =>
    apply additive_spec f .add _ addSigned stacked targ svl svr hl hr
    intro auv auvok buv buvok ha hb
    have h := addSigned_spec auv auvok buv buvok
    rw [ha, hb] at h
    exact h
  | subtract =>
    apply additive_spec f .subtract _ subtractSigned stacked targ svl svr hl hr
    intro auv auvok buv buvok ha hb
    have h := subtractSigned_spec auv auvok buv buvok
    rw [ha, hb] at h
    exact h
  | multiply => exact multiplyGeneric_spec build f targ svl svr hl hr

theorem simple_spec (build : Build) (f : Floats NV) (op : Arith) (targ : Targ)
    (svl svr : Sv NV) (hl : svl.iok = true) (hr : svr.iok = true) :
    ∃ answer, op.simple build f targ svl svr = some answer ∧
      ∀ value, answer = some value → FitsSigned (op.exact svl.value svr.value) ∧
        value = Value.ofInt (op.exact svl.value svr.value) := by
  by_cases hguard : (svl.isUV || svr.isUV || svl.gmg || svr.gmg) = true
  · exact ⟨none, by rw [Arith.simple, simpleCase, if_pos hguard]; rfl, by simp⟩
  · have hplain : svl.isUV = false ∧ svr.isUV = false := by
      simp only [Bool.or_eq_true, not_or, Bool.not_eq_true] at hguard
      exact ⟨hguard.1.1.1, hguard.1.1.2⟩
    have hlval : svl.value = svl.ivx.toInt := by simp [Sv.value, hplain.1]
    have hrval : svr.value = svr.ivx.toInt := by simp [Sv.value, hplain.2]
    obtain ⟨answer, hrun, haccepts⟩ := mayOverflow_spec build op svl.ivx svr.ivx
    refine ⟨answer.map (targi targ · false), ?_, ?_⟩
    · rw [Arith.simple, simpleCase, if_neg hguard, if_pos (by simp [hl, hr]), hrun]
      rfl
    · intro value hvalue
      rw [hlval, hrval]
      obtain ⟨i, hi, hstore⟩ := Option.map_eq_some_iff.1 hvalue
      obtain ⟨hfits, hexact⟩ := haccepts i hi
      exact ⟨hfits, by rw [← hstore, hexact, targi_eq targ _ hfits]⟩

theorem accepted_eq_generic (build : Build) (f : Floats NV) (stacked : Bool) (op : Arith)
    (targ : Targ) (svl svr : Sv NV) (hl : svl.iok = true) (hr : svr.iok = true) {value : Value NV}
    (h : op.simple build f targ svl svr = some (some value)) :
    op.generic build f stacked targ svl svr = some value := by
  obtain ⟨answer, hsimple, haccepted⟩ := simple_spec build f op targ svl svr hl hr
  obtain ⟨generic, hgeneric, hanswers⟩ := generic_spec build f stacked op targ svl svr hl hr
  rw [hsimple] at h
  obtain ⟨hfits, hval⟩ := haccepted value (Option.some.inj h)
  have hword : FitsWord (op.exact svl.value svr.value) := ⟨hfits.1, by have := hfits.2; omega⟩
  rw [Answers, if_pos hword] at hanswers
  rw [hgeneric, hval, hanswers]

theorem pp_answers (build : Build) (f : Floats NV) (stacked : Bool) (op : Arith) (targ : Targ)
    (svl svr : Sv NV) (hl : svl.iok = true) (hr : svr.iok = true) :
    ∃ value, op.pp build f stacked targ svl svr = some value ∧
      Answers f op svl svr (op.exact svl.value svr.value) value := by
  obtain ⟨answer, hsimple, -⟩ := simple_spec build f op targ svl svr hl hr
  obtain ⟨value, hgeneric, hanswers⟩ := generic_spec build f stacked op targ svl svr hl hr
  refine ⟨value, ?_, hanswers⟩
  cases answer with
  | none => simp [Arith.pp, hsimple, hgeneric]
  | some accepted =>
    have hsame := accepted_eq_generic build f stacked op targ svl svr hl hr hsimple
    rw [hgeneric] at hsame
    simp [Arith.pp, hsimple, Option.some.inj hsame]

/-- For every two IVs or UVs an operator has no signed overflow and returns the exact result,
an IV when it fits one and else a UV, whenever it lies in IV_MIN..UV_MAX, and a float otherwise;
what the special case accepts is what the general case returns. -/
theorem integer_arithmetic_exact (build : Build) (f : Floats NV) (stacked : Bool) (op : Arith)
    (targ : Targ) (svl svr : Sv NV) (hl : svl.iok = true) (hr : svr.iok = true) :
    (∃ value, op.pp build f stacked targ svl svr = some value ∧
      (FitsWord (op.exact svl.value svr.value) →
        value = Value.ofInt (op.exact svl.value svr.value)) ∧
      (¬ FitsWord (op.exact svl.value svr.value) →
        IsFloating f op svl svr (op.exact svl.value svr.value) value)) ∧
    ∀ value, op.simple build f targ svl svr = some (some value) →
      op.generic build f stacked targ svl svr = some value := by
  obtain ⟨value, hpp, hanswers⟩ := pp_answers build f stacked op targ svl svr hl hr
  refine ⟨⟨value, hpp, ?_, ?_⟩, fun accepted => accepted_eq_generic build f stacked op targ svl svr hl hr⟩
  · intro hfits
    rw [Answers, if_pos hfits] at hanswers
    exact hanswers
  · intro hfits
    rw [Answers, if_neg hfits] at hanswers
    exact hanswers

/-- A scalar with only an integer. -/
def plainIV (i : Int64) : Sv Unit :=
  ⟨true, true, false, false, false, false, false, i.toUInt64, ()⟩

def noFloats : Floats Unit :=
  ⟨fun _ _ => (), fun _ _ => (), fun _ _ => (), fun _ => (), (), fun _ => (), fun _ => none, id,
    fun _ => ()⟩

/-- Floats that are integers. -/
def intFloats : Floats Int :=
  ⟨(· + ·), (· - ·), (· * ·), (- ·), 0, fun u => u.toNat, fun _ => none, id, fun sv => sv.nvx⟩

/-- The least IV times minus one leaves the special case and comes back as a UV. -/
theorem least_times_minus_one :
    Arith.multiply.pp ⟨true, true, true, true, true⟩ noFloats false ⟨true, false⟩
      (plainIV Int64.minValue) (plainIV (-1)) = some (.uv absIVMin) := by
  obtain ⟨⟨value, hpp, hexact, -⟩, -⟩ := integer_arithmetic_exact
    ⟨true, true, true, true, true⟩ noFloats false .multiply ⟨true, false⟩
    (plainIV Int64.minValue) (plainIV (-1)) rfl rfl
  rw [hpp, hexact (by decide)]
  decide

end XPerl.Numeric
