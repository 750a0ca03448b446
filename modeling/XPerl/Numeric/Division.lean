import XPerl.Numeric.Exact

/-! `pp_divide` and `pp_modulo`. -/

namespace XPerl.Numeric

open XPerl.Framework

variable {NV : Type}

/-- The floating point that division and remainder use beside `Floats`. -/
structure Divisions (NV : Type) where
  div : NV → NV → NV
  fmod : NV → NV → NV
  floor : NV → NV
  half : NV
  lt : NV → NV → Bool
  isZero : NV → Bool
  uvMaxP1 : NV
  uV : NV → UInt64

/-- The two errors of the numeric domain. -/
inductive NumericError where
  | divisionByZero
  | modulusByZero
  deriving DecidableEq, Repr

def nvPreservesUVBits : UInt64 := 53

/-- The floating point division that `pp_divide` ends in. -/
def nvDivide (f : Floats NV) (d : Divisions NV) (svl svr : Sv NV) :
    Except NumericError (Value NV) :=
  let left := f.svNV svl
  let right := f.svNV svr
  if d.isZero right then .error .divisionByZero else .ok (.nv (d.div left right))

/-- `pp_divide` after overloading; `sloppy` is SLOPPYDIVIDE. -/
def ppDivide (sloppy : Bool) (f : Floats NV) (d : Divisions NV) (targ : Targ)
    (svl svr : Sv NV) : Defined (Except NumericError (Value NV)) :=
  let (svr, rok) := svIVPleaseNomg f svr
  if rok then
    let (svl, lok) := svIVPleaseNomg f svl
    if lok then do
      let (right, rightNonNeg) ← magnitude svr
      if right = 0 then return .error .divisionByZero
      else
        let (left, leftNonNeg) ← magnitude svl
        if left ≥ right && (sloppy || left > (1 : UInt64) <<< nvPreservesUVBits) then
          let result := left / right
          if left % right = 0 then do
            let value ← storeSigned f targ result (leftNonNeg == rightNonNeg)
            return .ok value
          else return nvDivide f d svl svr
        else return nvDivide f d svl svr
    else return nvDivide f d svl svr
  else return nvDivide f d svl svr

/-- An operand of `pp_modulo` that is not an integer: its sign and absolute value. -/
def floatMagnitude (f : Floats NV) (d : Divisions NV) (sv : Sv NV) : Bool × NV :=
  let dvalue := f.svNV sv
  let neg := d.lt dvalue f.zero
  (neg, if neg then f.neg dvalue else dvalue)

def modDouble (f : Floats NV) (d : Divisions NV) (leftNeg rightNeg : Bool) (dleft dright : NV) :
    Except NumericError (Value NV) :=
  if d.isZero dright then .error .modulusByZero
  else
    let dans := d.fmod dleft dright
    let dans := if leftNeg != rightNeg && !d.isZero dans then f.sub dright dans else dans
    .ok (.nv (if rightNeg then f.neg dans else dans))

def modUV (f : Floats NV) (leftNeg rightNeg : Bool) (left right : UInt64) :
    Defined (Except NumericError (Value NV)) :=
  if right = 0 then return .error .modulusByZero
  else
    let ans := left % right
    let ans := if leftNeg != rightNeg && ans != 0 then right - ans else ans
    if rightNeg then
      if ans ≤ absIVMin then do
        let negated ← negate2IV ans
        return .ok (svSetiv negated)
      else return .ok (.nv (f.neg (f.ofUV ans)))
    else return .ok (svSetuv ans)

/-- The left operand, once the right one is known to be in range; `dright` is there when it came
from a float. -/
def modLeft (f : Floats NV) (d : Divisions NV) (svl : Sv NV) (rightNeg : Bool) (right : UInt64)
    (dright : Option NV) : Defined (Except NumericError (Value NV)) :=
  let (svl, lok) := svIVPleaseNomg f svl
  if lok then do
    let (left, leftNonNeg) ← magnitude svl
    modUV f (!leftNonNeg) rightNeg left right
  else
    let (leftNeg, dleft) := floatMagnitude f d svl
    if d.lt dleft d.uvMaxP1 then modUV f leftNeg rightNeg (d.uV dleft) right
    else
      let dleft := d.floor (f.add dleft d.half)
      let dright := match dright with
        | some dright => d.floor (f.add dright d.half)
        | none => f.ofUV right
      return modDouble f d leftNeg rightNeg dleft dright

def ppModulo (f : Floats NV) (d : Divisions NV) (svl svr : Sv NV) :
    Defined (Except NumericError (Value NV)) :=
  let (svr, rok) := svIVPleaseNomg f svr
  if rok then do
    let (right, rightNonNeg) ← magnitude svr
    modLeft f d svl (!rightNonNeg) right none
  else
    let (rightNeg, dright) := floatMagnitude f d svr
    if d.lt dright d.uvMaxP1 then modLeft f d svl rightNeg (d.uV dright) (some dright)
    else
      let (leftNeg, dleft) := floatMagnitude f d svl
      return modDouble f d leftNeg rightNeg dleft dright

/-- Whether a result is an integer of the integer branch. -/
def Value.isInteger : Value NV → Bool
  | .iv _ => true
  | .uv _ => true
  | .nv _ => false

section Remainder

def remainderMagnitude (l r : Nat) (differ : Bool) : Nat :=
  if differ && l % r != 0 then r - l % r else l % r

theorem remainderMagnitude_lt {l r : Nat} (hr : 0 < r) (differ : Bool) :
    remainderMagnitude l r differ < r := by
  have hlt := Nat.mod_lt l hr
  unfold remainderMagnitude
  split_ifs with hc
  · simp only [Bool.and_eq_true, bne_iff_ne, ne_eq] at hc
    omega
  · exact hlt

theorem remainder_dvd {r : Nat} (hr : 0 < r) (l : Nat) (leftNeg rightNeg : Bool) :
    (r : Int) ∣ (if leftNeg then -(l : Int) else l) -
      (if rightNeg then -(remainderMagnitude l r (leftNeg != rightNeg) : Int)
        else remainderMagnitude l r (leftNeg != rightNeg)) := by
  have hsplit : (l : Int) = r * (l / r : Nat) + (l % r : Nat) := by
    exact_mod_cast (Nat.div_add_mod l r).symm
  have hsame : (r : Int) ∣ l - remainderMagnitude l r false := by
    simp only [remainderMagnitude, Bool.false_and, Bool.false_eq_true, if_false]
    exact ⟨(l / r : Nat), by omega⟩
  have hdiffer : (r : Int) ∣ l + remainderMagnitude l r true := by
    unfold remainderMagnitude
    rcases Nat.eq_zero_or_pos (l % r) with h0 | hpos
    · rw [h0] at hsplit ⊢
      exact ⟨(l / r : Nat), by simpa using hsplit⟩
    · have hlt := Nat.mod_lt l hr
      have hne : (true && l % r != 0) = true := by
        simp only [Bool.true_and, bne_iff_ne]
        omega
      rw [if_pos hne, Nat.cast_sub hlt.le]
      exact ⟨(l / r : Nat) + 1, by rw [mul_add, mul_one]; omega⟩
  have hboth : (r : Int) ∣ -l - -remainderMagnitude l r false := by
    rw [show -(l : Int) - -remainderMagnitude l r false = -(l - remainderMagnitude l r false) by ring]
    exact Int.dvd_neg.2 hsame
  have hleft : (r : Int) ∣ -l - remainderMagnitude l r true := by
    rw [show -(l : Int) - remainderMagnitude l r true = -(l + remainderMagnitude l r true) by ring]
    exact Int.dvd_neg.2 hdiffer
  cases leftNeg <;> cases rightNeg
  · exact hsame
  · simpa using hdiffer
  · exact hleft
  · exact hboth

variable (f : Floats NV)

theorem modUV_spec (leftNeg rightNeg : Bool) (left right : UInt64) (hr : 0 < right.toNat)
    (hmin : rightNeg = true → right.toNat ≤ 2 ^ 63) :
    modUV f leftNeg rightNeg left right = some (.ok (Value.ofInt
      (if rightNeg then -(remainderMagnitude left.toNat right.toNat (leftNeg != rightNeg) : Int)
        else remainderMagnitude left.toNat right.toNat (leftNeg != rightNeg)))) := by
  have hne : ¬ right = 0 := by
    rintro rfl
    exact absurd hr (by decide)
  have hmod : (left % right).toNat = left.toNat % right.toNat := UInt64.toNat_mod left right
  have hlt := Nat.mod_lt left.toNat hr
  set ans := if leftNeg != rightNeg && left % right != 0 then right - left % right
    else left % right with hans
  have hval : ans.toNat = remainderMagnitude left.toNat right.toNat (leftNeg != rightNeg) := by
    have hzero : (left % right != 0) = (left.toNat % right.toNat != 0) := by
      rw [← hmod]
      simp [bne, ← UInt64.toNat_inj]
    rw [hans, remainderMagnitude, hzero]
    split_ifs
    · rw [UInt64.toNat_sub_of_le _ _ (UInt64.le_iff_toNat_le.2 (by omega)), hmod]
    · exact hmod
  have hsmall := remainderMagnitude_lt (l := left.toNat) hr (leftNeg != rightNeg)
  rw [← hval] at hsmall ⊢
  unfold modUV
  rw [if_neg hne]
  simp only [← hans]
  cases rightNeg with
  | false => simp [svSetuv_eq]
  | true =>
    have hbound := hmin rfl
    have hle : ans ≤ absIVMin := UInt64.le_iff_toNat_le.2 (by rw [absIVMin_toNat]; omega)
    have hstore : (.iv (Int64.ofInt (-ans.toNat)) : Value NV) = Value.ofInt (-ans.toNat) := by
      simp only [Value.ofInt]
      rw [if_pos (by omega)]
    simp only [if_true, hle, negate2IV_spec ans (by omega), ← hstore]
    rfl

theorem ppModulo_spec (d : Divisions NV) (svl svr : Sv NV) (hl : svl.iok = true)
    (hr : svr.iok = true) (hne : svr.value ≠ 0) :
    ∃ r : Int, ppModulo f d svl svr = some (.ok (Value.ofInt r)) ∧ |r| < |svr.value| ∧
      (r = 0 ∨ r.sign = svr.value.sign) ∧ svr.value ∣ svl.value - r := by
  obtain ⟨left, leftNonNeg, hleft, hlv, -⟩ := magnitude_spec svl
  obtain ⟨right, rightNonNeg, hright, hrv, hrmin⟩ := magnitude_spec svr
  have hpos : 0 < right.toNat := by
    rcases Nat.eq_zero_or_pos right.toNat with h0 | hpos
    · rw [← hrv, signedValue, h0] at hne
      simp at hne
    · exact hpos
  have hrun : ppModulo f d svl svr = modUV f (!leftNonNeg) (!rightNonNeg) left right := by
    simp [ppModulo, modLeft, svIVPleaseNomg_iok, hl, hr, hleft, hright]
  have hsmall := remainderMagnitude_lt (l := left.toNat) hpos ((!leftNonNeg) != (!rightNonNeg))
  have hdvd := remainder_dvd hpos left.toNat (!leftNonNeg) (!rightNonNeg)
  have hlv' : (if (!leftNonNeg) = true then -(left.toNat : Int) else left.toNat) = svl.value := by
    rw [← hlv, signedValue]
    cases leftNonNeg <;> rfl
  rw [hlv'] at hdvd
  rw [hrun, modUV_spec f _ _ _ _ hpos (fun h => (hrmin (by simpa using h)).2)]
  refine ⟨_, rfl, ?_⟩
  generalize remainderMagnitude left.toNat right.toNat ((!leftNonNeg) != (!rightNonNeg)) = m at *
  rw [← hrv, signedValue]
  cases rightNonNeg with
  | true =>
    simp only [Bool.not_true, Bool.false_eq_true, if_false, if_true] at hdvd ⊢
    refine ⟨by rw [Nat.abs_cast, Nat.abs_cast]; exact_mod_cast hsmall, ?_, hdvd⟩
    rcases Nat.eq_zero_or_pos m with h0 | hm
    · exact Or.inl (by simp [h0])
    · exact Or.inr (by rw [Int.sign_eq_one_of_pos (by omega), Int.sign_eq_one_of_pos (by omega)])
  | false =>
    simp only [Bool.not_false, if_true, Bool.false_eq_true, if_false] at hdvd ⊢
    refine ⟨?_, ?_, Int.neg_dvd.2 hdvd⟩
    · rw [abs_neg, abs_neg, Nat.abs_cast, Nat.abs_cast]
      exact_mod_cast hsmall
    · rcases Nat.eq_zero_or_pos m with h0 | hm
      · exact Or.inl (by simp [h0])
      · exact Or.inr (by
          rw [Int.sign_eq_neg_one_of_neg (by omega), Int.sign_eq_neg_one_of_neg (by omega)])

end Remainder

section Quotient

variable (f : Floats NV) (d : Divisions NV)

/-- The integer branch: a nonzero multiple of the right operand, too large for floating point, whose
quotient fits. -/
def DividesAsIntegers (sloppy : Bool) (l r : Int) : Prop :=
  r ∣ l ∧ l ≠ 0 ∧ FitsWord (l / r) ∧ (sloppy = true ∨ 2 ^ 53 < |l|)

theorem natAbs_signedValue (u : UInt64) (nonneg : Bool) :
    (signedValue u nonneg).natAbs = u.toNat := by
  cases nonneg <;> simp [signedValue]

theorem signedValue_div (left right : UInt64) (leftNonNeg rightNonNeg : Bool)
    (hdvd : right.toNat ∣ left.toNat) :
    signedValue left leftNonNeg / signedValue right rightNonNeg =
      signedValue (left / right) (leftNonNeg == rightNonNeg) := by
  have hdvd' : (right.toNat : Int) ∣ left.toNat := by exact_mod_cast hdvd
  cases leftNonNeg <;> cases rightNonNeg <;> simp [signedValue, Int.neg_ediv_of_dvd hdvd']

theorem ppDivide_integer (sloppy : Bool) (targ : Targ) (svl svr : Sv NV) (hl : svl.iok = true)
    (hr : svr.iok = true) (hne : svr.value ≠ 0) :
    ∃ answer, ppDivide sloppy f d targ svl svr = some answer ∧
      (DividesAsIntegers sloppy svl.value svr.value →
        answer = .ok (Value.ofInt (svl.value / svr.value))) ∧
      (¬ DividesAsIntegers sloppy svl.value svr.value →
        ∀ value, answer = .ok value → value.isInteger = false) := by
  obtain ⟨left, leftNonNeg, hleft, hlv, -⟩ := magnitude_spec svl
  obtain ⟨right, rightNonNeg, hright, hrv, -⟩ := magnitude_spec svr
  have hpos : 0 < right.toNat := by
    rcases Nat.eq_zero_or_pos right.toNat with h0 | hpos
    · rw [← hrv, signedValue, h0] at hne
      simp at hne
    · exact hpos
  have hrne : ¬ right = 0 := by
    rintro rfl
    exact absurd hpos (by decide)
  have habs : |svl.value| = left.toNat := by
    rw [← hlv, Int.abs_eq_natAbs, natAbs_signedValue]
  have hdvd_iff : svr.value ∣ svl.value ↔ right.toNat ∣ left.toNat := by
    rw [← hlv, ← hrv, ← Int.natAbs_dvd_natAbs, natAbs_signedValue, natAbs_signedValue]
  have hbits : ((1 : UInt64) <<< nvPreservesUVBits).toNat = 2 ^ 53 := by decide
  have hbig : (left > (1 : UInt64) <<< nvPreservesUVBits) ↔ 2 ^ 53 < left.toNat := by
    rw [gt_iff_lt, UInt64.lt_iff_toNat_lt, hbits]
  have hzero : left % right = 0 ↔ right.toNat ∣ left.toNat := by
    rw [← UInt64.toNat_inj, UInt64.toNat_mod, Nat.dvd_iff_mod_eq_zero]
    rfl
  have hrun : ppDivide sloppy f d targ svl svr =
      if left ≥ right && (sloppy || left > (1 : UInt64) <<< nvPreservesUVBits) then
        if left % right = 0 then
          (storeSigned f targ (left / right) (leftNonNeg == rightNonNeg)).map .ok
        else some (nvDivide f d svl svr)
      else some (nvDivide f d svl svr) := by
    simp only [ppDivide, svIVPleaseNomg_iok, hl, hr, hleft, hright, if_true, Option.bind_eq_bind,
      Option.bind_some, hrne, if_false]
    cases storeSigned f targ (left / right) (leftNonNeg == rightNonNeg) <;> rfl
  have hfloat : ∀ value, nvDivide f d svl svr = .ok value → value.isInteger = false := by
    intro value hvalue
    unfold nvDivide at hvalue
    dsimp only at hvalue
    split at hvalue
    · cases hvalue
    · cases hvalue
      rfl
  by_cases hguard : (left ≥ right && (sloppy || left > (1 : UInt64) <<< nvPreservesUVBits)) = true
  · by_cases hmod : left % right = 0
    · have hquot := signedValue_div left right leftNonNeg rightNonNeg (hzero.1 hmod)
      rw [hlv, hrv] at hquot
      rw [hrun, if_pos hguard, if_pos hmod, storeSigned_spec, ← hquot]
      refine ⟨_, rfl, fun h => by rw [if_pos h.2.2.1], ?_⟩
      intro hnot value hvalue
      obtain ⟨hge, hlarge⟩ := Bool.and_eq_true_iff.1 hguard
      have hge' : right.toNat ≤ left.toNat := UInt64.le_iff_toNat_le.1 (by simpa using hge)
      have hlarge' : sloppy = true ∨ 2 ^ 53 < |svl.value| := by
        rw [habs]
        rcases Bool.or_eq_true_iff.1 hlarge with h | h
        · exact Or.inl h
        · exact Or.inr (by exact_mod_cast hbig.1 (by simpa using h))
      have hfits : ¬ FitsWord (svl.value / svr.value) := by
        intro hfits
        refine hnot ⟨hdvd_iff.2 (hzero.1 hmod), ?_, hfits, hlarge'⟩
        intro h0
        rw [h0] at habs
        simp at habs
        omega
      rw [if_neg hfits] at hvalue
      cases hvalue
      rfl
    · rw [hrun, if_pos hguard, if_neg hmod]
      exact ⟨_, rfl, fun h => absurd (hzero.2 (hdvd_iff.1 h.1)) hmod, fun _ => hfloat⟩
  · rw [hrun, if_neg hguard]
    refine ⟨_, rfl, fun h => absurd ?_ hguard, fun _ => hfloat⟩
    obtain ⟨hdvd, hl0, -, hlarge⟩ := h
    have hpos' : 0 < left.toNat := by
      rw [← abs_pos, habs] at hl0
      exact_mod_cast hl0
    have hge := UInt64.le_iff_toNat_le.2 (Nat.le_of_dvd hpos' (hdvd_iff.1 hdvd))
    rw [habs] at hlarge
    rw [Bool.and_eq_true, Bool.or_eq_true]
    refine ⟨by simpa using hge, hlarge.imp_right fun h => ?_⟩
    have hgt := hbig.2 (by exact_mod_cast h)
    simpa using hgt

end Quotient

/-- Remainders follow the sign of the right operand and are congruent to the left one. Division
goes through its integer branch exactly for the multiples that floating point might not hold, and
its quotient times the right operand gives the left one back. -/
theorem division_laws (build : Build) (sloppy : Bool) (f : Floats NV) (d : Divisions NV)
    (stacked : Bool) (targ : Targ) (svl svr : Sv NV) (hl : svl.iok = true) (hr : svr.iok = true)
    (hne : svr.value ≠ 0) :
    (∃ r : Int, ppModulo f d svl svr = some (.ok (Value.ofInt r)) ∧ |r| < |svr.value| ∧
      (r = 0 ∨ r.sign = svr.value.sign) ∧ svr.value ∣ svl.value - r) ∧
    ((∃ value, ppDivide sloppy f d targ svl svr = some (.ok value) ∧ value.isInteger = true) ↔
      DividesAsIntegers sloppy svl.value svr.value) ∧
    (DividesAsIntegers sloppy svl.value svr.value →
      ppDivide sloppy f d targ svl svr = some (.ok (Value.ofInt (svl.value / svr.value))) ∧
      ∀ quotient : Sv NV, quotient.iok = true → quotient.value = svl.value / svr.value →
        Arith.multiply.pp build f stacked targ quotient svr = some (Value.ofInt svl.value)) := by
  obtain ⟨answer, hrun, hinteger, hfloat⟩ := ppDivide_integer f d sloppy targ svl svr hl hr hne
  refine ⟨ppModulo_spec f d svl svr hl hr hne, ⟨?_, fun h => ?_⟩, fun h => ⟨?_, ?_⟩⟩
  · rintro ⟨value, hvalue, hint⟩
    by_contra hnot
    rw [hrun, Option.some.injEq] at hvalue
    rw [hfloat hnot value hvalue] at hint
    cases hint
  · refine ⟨_, by rw [hrun, hinteger h], ?_⟩
    unfold Value.ofInt
    split <;> rfl
  · rw [hrun, hinteger h]
  · intro quotient hq hqv
    obtain ⟨value, hpp, hanswers⟩ := pp_answers build f stacked .multiply targ quotient svr hq hr
    have hproduct : Arith.multiply.exact quotient.value svr.value = svl.value := by
      rw [hqv]
      exact Int.ediv_mul_cancel h.1
    rw [hproduct, Answers, if_pos (value_fits svl)] at hanswers
    rw [hpp, hanswers]

def noDivisions : Divisions Unit :=
  ⟨fun _ _ => (), fun _ _ => (), id, (), fun _ _ => false, fun _ => false, (), fun _ => 0⟩

/-- The least IV: its remainder by three, and its quotient by minus one, which is a UV. -/
theorem division_laws_least :
    (∃ r : Int, ppModulo noFloats noDivisions (plainIV Int64.minValue) (plainIV 3) =
      some (.ok (Value.ofInt r)) ∧ |r| < 3) ∧
    ppDivide false noFloats noDivisions ⟨true, false⟩ (plainIV Int64.minValue) (plainIV (-1)) =
      some (.ok (Value.ofInt (2 ^ 63))) := by
  obtain ⟨⟨r, hr, hsmall, -⟩, -⟩ := division_laws ⟨true, true, true, true, true⟩ false noFloats
    noDivisions false ⟨true, false⟩ (plainIV Int64.minValue) (plainIV 3) rfl rfl (by decide)
  obtain ⟨-, -, hquot⟩ := division_laws ⟨true, true, true, true, true⟩ false noFloats
    noDivisions false ⟨true, false⟩ (plainIV Int64.minValue) (plainIV (-1)) rfl rfl (by decide)
  have hdivides : DividesAsIntegers false (plainIV Int64.minValue).value (plainIV (-1)).value :=
    ⟨by decide, by decide, by decide, Or.inr (by decide)⟩
  exact ⟨⟨r, hr, hsmall⟩, (hquot hdivides).1⟩

/-- Six by two is left to floating point. -/
theorem small_quotient_is_float :
    ¬ ∀ svl svr : Sv Unit, svl.iok = true → svr.iok = true → svr.value ≠ 0 →
      ((∃ value, ppDivide false noFloats noDivisions ⟨true, false⟩ svl svr = some (.ok value) ∧
          value.isInteger = true) ↔
        svr.value ∣ svl.value ∧ FitsWord (svl.value / svr.value)) := by
  intro h
  obtain ⟨value, hvalue, hint⟩ := (h (plainIV 6) (plainIV 2) rfl rfl (by decide)).2
    ⟨by decide, by decide⟩
  have hrun : ppDivide false noFloats noDivisions ⟨true, false⟩ (plainIV 6) (plainIV 2) =
      some (.ok (.nv ())) := by rfl
  rw [hrun] at hvalue
  cases hvalue
  cases hint

end XPerl.Numeric
