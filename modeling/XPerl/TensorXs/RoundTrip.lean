import Mathlib.Data.Nat.Bitwise
import XPerl.TensorXs.Blob

/-! Which elements survive the way through an NV. -/

namespace XPerl.TensorXs

open XPerl.Framework.Rounding

/-- An element on its way through an NV: read, and written back. -/
def trip (dtype : Dtype) (bits : Nat) : TensorM Nat := tensorStoreNv dtype (tensorLoad dtype bits)

section Integers

def roundedInt (value : Int) : Int :=
  if value < 0 then -(rounded 52 value.natAbs : Int) else rounded 52 value.natAbs

theorem truncate_nvOfInt (value : Int) : (nvOfInt value).truncate = some (roundedInt value) := by
  rw [nvOfInt, Format.round, roundedInt]
  by_cases hzero : value.natAbs = 0
  · rw [if_pos hzero, hzero]
    have hvalue : value = 0 := Int.natAbs_eq_zero.1 hzero
    rw [hvalue]
    rfl
  · rw [if_neg hzero, Datum.truncate, truncated_units double (by decide)]
    by_cases hneg : value < 0
    · simp [hneg, double]
    · simp [hneg, double]

theorem roundedInt_of_exact {value : Int} (h : Exact 52 value.natAbs) :
    roundedInt value = value := by
  rw [roundedInt, rounded_of_exact h]
  split <;> omega

theorem roundedInt_roundedInt {value : Int} (h : ¬ Exact 52 value.natAbs) :
    roundedInt (roundedInt value) ≠ value := by
  intro htwice
  have hne : value.natAbs ≠ 0 := by
    intro hzero
    apply h
    rw [hzero]
    exact Nat.dvd_zero _
  apply h
  rw [← rounded_rounded_eq_iff 52 hne]
  by_cases hneg : value < 0
  · have hone : roundedInt value = -(rounded 52 value.natAbs : Int) := if_pos hneg
    rw [hone, roundedInt, Int.natAbs_neg, Int.natAbs_natCast] at htwice
    split at htwice <;> omega
  · have hone : roundedInt value = rounded 52 value.natAbs := if_neg hneg
    rw [hone, roundedInt, Int.natAbs_natCast] at htwice
    split at htwice <;> omega

/-- A range of integers with its bits; `store` writes those of an NV. -/
structure IntType (lower upper : Int) (ofBits : Nat → Int) (toBits : Int → Nat)
    (store : Datum → TensorM Nat) : Prop where
  store : ∀ value, store value = toBits <$> intOfNv lower upper value
  ofBits : ∀ value, lower ≤ value → value ≤ upper → ofBits (toBits value) = value

variable {lower upper : Int} {ofBits : Nat → Int} {toBits : Int → Nat} {store : Datum → TensorM Nat}

theorem IntType.store_nvOfInt (h : IntType lower upper ofBits toBits store) (value : Int) :
    store (nvOfInt value) =
      if lower ≤ roundedInt value ∧ roundedInt value ≤ upper then .ok (toBits (roundedInt value))
      else .error .undefined := by
  rw [h.store, intOfNv, truncate_nvOfInt]
  dsimp only
  split <;> rfl

variable {bits width : Nat}

theorem IntType.survives (h : IntType lower upper ofBits toBits store)
    (hbits : toBits (ofBits bits) = bits) (hrange : lower ≤ ofBits bits ∧ ofBits bits ≤ upper)
    (hexact : Exact 52 (ofBits bits).natAbs) : store (nvOfInt (ofBits bits)) = .ok bits := by
  rw [h.store_nvOfInt, roundedInt_of_exact hexact, if_pos hrange, hbits]

theorem IntType.changes (h : IntType lower upper ofBits toBits store) {bits' : Nat}
    (hexact : ¬ Exact 52 (ofBits bits).natAbs)
    (hfirst : store (nvOfInt (ofBits bits)) = .ok bits') :
    store (nvOfInt (ofBits bits')) ≠ .ok bits := by
  intro hsecond
  rw [h.store_nvOfInt] at hfirst hsecond
  by_cases hrange : lower ≤ roundedInt (ofBits bits) ∧ roundedInt (ofBits bits) ≤ upper
  · rw [if_pos hrange] at hfirst
    rw [← Except.ok.inj hfirst, h.ofBits _ hrange.1 hrange.2] at hsecond
    by_cases hrange' : lower ≤ roundedInt (roundedInt (ofBits bits)) ∧
        roundedInt (roundedInt (ofBits bits)) ≤ upper
    · rw [if_pos hrange'] at hsecond
      apply roundedInt_roundedInt hexact
      rw [← h.ofBits _ hrange'.1 hrange'.2, Except.ok.inj hsecond]
    · rw [if_neg hrange'] at hsecond
      cases hsecond
  · rw [if_neg hrange] at hfirst
    cases hfirst

theorem storeUnsigned_type (width : Nat) :
    IntType 0 ((2 ^ width : Nat) - 1) (fun bits => (bits : Int)) (bitsOf width)
      (storeUnsigned width) where
  store := fun _ => rfl
  ofBits := by
    intro value hlow hhigh
    rw [bitsOf, Int.emod_eq_of_lt hlow (by omega), Int.toNat_of_nonneg hlow]

theorem storeSigned_type (hwidth : 0 < width) :
    IntType (-(2 ^ (width - 1) : Nat)) ((2 ^ (width - 1) : Nat) - 1) (signedOf width) (bitsOf width)
      (storeSigned width) where
  store := fun _ => rfl
  ofBits := by
    intro value hlow hhigh
    have hdouble : 2 ^ width = 2 ^ (width - 1) * 2 := by
      rw [← Nat.pow_succ, Nat.succ_eq_add_one, Nat.sub_add_cancel hwidth]
    rw [bitsOf, signedOf, hdouble]
    generalize 2 ^ (width - 1) = half at hlow hhigh ⊢
    by_cases hneg : value < 0
    · have hmod : value % ((half * 2 : Nat) : Int) = value + (half * 2 : Nat) := by
        rw [← Int.add_emod_right]
        exact Int.emod_eq_of_lt (by omega) (by omega)
      rw [hmod, if_neg (by omega)]
      omega
    · have hmod : value % ((half * 2 : Nat) : Int) = value :=
        Int.emod_eq_of_lt (by omega) (by omega)
      rw [hmod, if_pos (by omega)]
      omega

def Judged (trip : Nat → TensorM Nat) (survives : Prop) (bits : Nat) : Prop :=
  (survives → trip bits = .ok bits) ∧
    (¬ survives → ∀ bits', trip bits = .ok bits' → trip bits' ≠ .ok bits)

theorem judged_unsigned (width : Nat) (hbits : bits < 2 ^ width) :
    Judged (fun bits => storeUnsigned width (nvOfInt bits)) (Exact 52 bits) bits := by
  have htype := storeUnsigned_type width
  have hback : bitsOf width bits = bits := by
    rw [bitsOf, Int.emod_eq_of_lt (Int.natCast_nonneg bits) (by omega), Int.toNat_natCast]
  exact ⟨fun hexact => htype.survives hback ⟨Int.natCast_nonneg bits, by omega⟩ hexact,
    fun hexact bits' => htype.changes hexact⟩

theorem signedOf_range (hwidth : 0 < width) (hbits : bits < 2 ^ width) :
    bitsOf width (signedOf width bits) = bits ∧
      -(2 ^ (width - 1) : Nat) ≤ signedOf width bits ∧
      signedOf width bits ≤ (2 ^ (width - 1) : Nat) - 1 := by
  have hdouble : 2 ^ width = 2 ^ (width - 1) * 2 := by
    rw [← Nat.pow_succ, Nat.succ_eq_add_one, Nat.sub_add_cancel hwidth]
  rw [hdouble] at hbits
  rw [bitsOf, signedOf, hdouble]
  generalize 2 ^ (width - 1) = half at hbits ⊢
  by_cases hlow : bits < half
  · rw [if_pos hlow, Int.emod_eq_of_lt (by omega) (by omega)]
    omega
  · have hmod : ((bits : Int) - (half * 2 : Nat)) % ((half * 2 : Nat) : Int) = bits := by
      rw [Int.sub_emod_right]
      exact Int.emod_eq_of_lt (by omega) (by omega)
    rw [if_neg hlow, hmod]
    omega

theorem judged_signed (hwidth : 0 < width) (hbits : bits < 2 ^ width) :
    Judged (fun bits => storeSigned width (nvOfInt (signedOf width bits)))
      (Exact 52 (signedOf width bits).natAbs) bits := by
  have htype := storeSigned_type hwidth
  obtain ⟨hback, hrange⟩ := signedOf_range hwidth hbits
  exact ⟨fun hexact => htype.survives hback hrange hexact,
    fun hexact bits' => htype.changes hexact⟩

theorem exact_of_lt {m : Nat} (h : m < 2 ^ 53) : Exact 52 m := by
  have hlog : m.log2 - 52 = 0 := by
    by_cases hzero : m = 0
    · rw [hzero]
      rfl
    · have hlt := (Nat.log2_lt hzero).2 h
      omega
  rw [Exact, hlog]
  exact Nat.one_dvd m

theorem Judged.always {trip : Nat → TensorM Nat} {survives : Prop}
    (h : Judged trip survives bits) (hall : survives) : Judged trip True bits :=
  ⟨fun _ => h.1 hall, fun hno => absurd trivial hno⟩

end Integers

def Signalling (bits : Nat) : Prop :=
  bits / 2 ^ 23 % 2 ^ 8 = 2 ^ 8 - 1 ∧ 0 < bits % 2 ^ 23 ∧ bits % 2 ^ 23 < 2 ^ 22

instance (bits : Nat) : Decidable (Signalling bits) := inferInstanceAs (Decidable (_ ∧ _ ∧ _))

theorem quiet_quiet (value : Datum) : quiet (quiet value) = quiet value := by
  cases value with
  | nan negative payload =>
    rw [quiet]
    split
    · rw [quiet, if_neg (by omega)]
    · rename_i hset
      rw [quiet, if_neg hset]
  | infinite negative => rfl
  | finite negative m e => rfl

variable {bits s e m : Nat}

theorem floatOfNv_nvOfFloat (hbits : bits < 2 ^ 32) :
    floatOfNv (nvOfFloat bits) = if Signalling bits then bits + 2 ^ 22 else bits := by
  have hback : single.encode (single.decode bits) = bits := encode_decode (by decide) hbits
  have hfield : bits % single.sign / single.span = bits / 2 ^ 23 % 2 ^ 8 :=
    Nat.mod_mul_left_div_self bits (2 ^ 23) (2 ^ 8)
  rw [floatOfNv, nvOfFloat, quiet_quiet]
  by_cases hnan : bits % single.sign / single.span = 2 ^ single.exponent - 1 ∧
      bits % single.span ≠ 0
  · have hdecode : single.decode bits =
        .nan (bits / single.sign % 2 == 1) (bits % 2 ^ 23 * 2 ^ 29) := by
      rw [Format.decode, if_pos hnan.1, if_neg hnan.2]
      rfl
    rw [hdecode, Format.encode] at hback
    change _ + (_ + _ / 2 ^ 29) = _ at hback
    rw [Nat.mul_div_cancel _ (by decide)] at hback
    rw [hdecode, quiet]
    by_cases hlow : bits % 2 ^ 23 < 2 ^ 22
    · have hsignal : Signalling bits := ⟨by rw [← hfield]; exact hnan.1,
        Nat.pos_of_ne_zero hnan.2, hlow⟩
      rw [if_pos (by omega), if_pos hsignal, Format.encode]
      change _ + (_ + _ / 2 ^ 29) = _
      omega
    · have hsignal : ¬ Signalling bits := fun h => hlow h.2.2
      rw [if_neg (by omega), if_neg hsignal, Format.encode]
      change _ + (_ + _ / 2 ^ 29) = _
      rw [Nat.mul_div_cancel _ (by decide)]
      exact hback
  · have hsignal : ¬ Signalling bits := fun h =>
      hnan ⟨by rw [hfield]; exact h.1, Nat.ne_of_gt h.2.1⟩
    have hquiet : quiet (single.decode bits) = single.decode bits := by
      rw [Format.decode]
      by_cases hlast : bits % single.sign / single.span = 2 ^ single.exponent - 1
      · rw [if_pos hlast, if_pos (by omega)]
        rfl
      · rw [if_neg hlast]
        split <;> rfl
    rw [hquiet, if_neg hsignal]
    exact hback

theorem or_eq_add {a b : Nat} (i : Nat) (h : b < 2 ^ i) : a * 2 ^ i ||| b = a * 2 ^ i + b := by
  rw [Nat.mul_comm, Nat.two_pow_add_eq_or_of_lt h]

theorem mul_pow_lt {x : Nat} (i j : Nat) (h : x < 2 ^ i) : x * 2 ^ j < 2 ^ (i + j) := by
  rw [Nat.pow_add]
  exact Nat.mul_lt_mul_of_pos_right h (Nat.two_pow_pos j)

theorem and_bit (x i : Nat) : x &&& 2 ^ i = x / 2 ^ i % 2 * 2 ^ i := by
  rw [Nat.and_two_pow, Nat.toNat_testBit]

theorem and_mask (x i : Nat) : x &&& (2 ^ i - 1) = x % 2 ^ i := Nat.and_two_pow_sub_one_eq_mod x i

theorem tensorFloatToBf16_tensorBf16ToFloat (hbits : bits < 2 ^ 16) :
    tensorFloatToBf16 (tensorBf16ToFloat bits) =
      if Signalling (bits * 2 ^ 16) then bits + 2 ^ 6 else bits := by
  have hround {n : Nat} (hn : n < 2 ^ 16) :
      ((n * 2 ^ 16 + (0x7fff + ((n * 2 ^ 16) >>> 16 &&& 1))) % 0x100000000) >>> 16 = n := by
    rw [Nat.and_one_is_mod, Nat.shiftRight_eq_div_pow, Nat.shiftRight_eq_div_pow,
      Nat.mul_div_cancel _ (by decide), Nat.mod_eq_of_lt (by omega)]
    omega
  rw [tensorFloatToBf16, tensorBf16ToFloat, Nat.shiftLeft_eq,
    floatOfNv_nvOfFloat (by omega : bits * 2 ^ 16 < 2 ^ 32)]
  by_cases hsignal : Signalling (bits * 2 ^ 16)
  · have hsmall : bits + 2 ^ 6 < 2 ^ 16 := by
      obtain ⟨-, -, hlow⟩ := hsignal
      omega
    have hquiet : bits * 2 ^ 16 + 2 ^ 22 = (bits + 2 ^ 6) * 2 ^ 16 := by omega
    rw [if_pos hsignal, if_pos hsignal, hquiet]
    exact hround hsmall
  · rw [if_neg hsignal, if_neg hsignal]
    exact hround hbits

def halfBits (sign exponent mantissa : Nat) : Nat :=
  sign * 2 ^ 15 + exponent * 2 ^ 10 + mantissa

def floatBits (sign exponent mantissa : Nat) : Nat :=
  sign * 2 ^ 31 + exponent * 2 ^ 23 + mantissa

theorem floatBits_fields (hs : s < 2) (he : e < 2 ^ 8) (hm : m < 2 ^ 23) :
    (floatBits s e m >>> 16) &&& 0x8000 = s * 2 ^ 15 ∧
      (floatBits s e m >>> 23) &&& 0xff = e ∧ floatBits s e m &&& 0x7fffff = m := by
  refine ⟨?_, ?_, ?_⟩
  · rw [Nat.shiftRight_eq_div_pow]
    change _ &&& 2 ^ 15 = _
    rw [and_bit, floatBits]
    omega
  · rw [Nat.shiftRight_eq_div_pow]
    change _ &&& (2 ^ 8 - 1) = _
    rw [and_mask, floatBits]
    omega
  · change _ &&& (2 ^ 23 - 1) = _
    rw [and_mask, floatBits]
    omega

theorem halfBits_fields (hs : s < 2) (he : e < 2 ^ 5) (hm : m < 2 ^ 10) :
    halfBits s e m &&& 0x8000 = s * 2 ^ 15 ∧ (halfBits s e m >>> 10) &&& 0x1f = e ∧
      halfBits s e m &&& 0x3ff = m := by
  refine ⟨?_, ?_, ?_⟩
  · change _ &&& 2 ^ 15 = _
    rw [and_bit, halfBits]
    omega
  · rw [Nat.shiftRight_eq_div_pow]
    change _ &&& (2 ^ 5 - 1) = _
    rw [and_mask, halfBits]
    omega
  · change _ &&& (2 ^ 10 - 1) = _
    rw [and_mask, halfBits]
    omega

theorem floatBits_or (he : e < 2 ^ 8) (hm : m < 2 ^ 10) :
    (s * 2 ^ 15) <<< 16 ||| e <<< 23 ||| m <<< 13 = floatBits s e (m * 2 ^ 13) := by
  rw [Nat.shiftLeft_eq, Nat.shiftLeft_eq, Nat.shiftLeft_eq, floatBits]
  have hfront : s * 2 ^ 31 + e * 2 ^ 23 = (s * 2 ^ 8 + e) * 2 ^ 23 := by omega
  have hsign : s * 2 ^ 15 * 2 ^ 16 = s * 2 ^ 31 := Nat.mul_assoc s _ _
  have hexp : e * 2 ^ 23 < 2 ^ 31 := mul_pow_lt 8 23 he
  have hman : m * 2 ^ 13 < 2 ^ 23 := mul_pow_lt 10 13 hm
  rw [hsign, or_eq_add 31 hexp, hfront, or_eq_add 23 hman]

theorem halfBits_or (he : e < 2 ^ 5) (hm : m < 2 ^ 10) :
    s * 2 ^ 15 ||| e <<< 10 ||| m = halfBits s e m := by
  rw [Nat.shiftLeft_eq, halfBits, or_eq_add 15 (by omega)]
  have hfront : s * 2 ^ 15 + e * 2 ^ 10 = (s * 2 ^ 5 + e) * 2 ^ 10 := by omega
  rw [hfront, or_eq_add 10 hm]

theorem f16OfFloatBits_normal (hs : s < 2) (he : 1 ≤ e) (he' : e ≤ 30)
    (hm : m < 2 ^ 10) : f16OfFloatBits (floatBits s (e + 112) (m * 2 ^ 13)) =
      .ok (halfBits s e m) := by
  obtain ⟨hsign, hexp, hman⟩ := floatBits_fields hs (by omega : e + 112 < 2 ^ 8)
    (by omega : m * 2 ^ 13 < 2 ^ 23)
  have hhalf : (m * 2 ^ 13) >>> 13 = m := by
    rw [Nat.shiftRight_eq_div_pow]
    omega
  have hrem : m * 2 ^ 13 &&& 0x1fff = 0 := by
    change _ &&& (2 ^ 13 - 1) = _
    rw [and_mask]
    omega
  rw [f16OfFloatBits]
  dsimp only
  rw [hsign, hexp, hman, hhalf, hrem, if_neg (by omega), if_neg (by omega), if_neg (by omega),
    if_neg (by omega), if_neg (by omega)]
  have hfield : ((((e + 112 : Nat) : Int) - 127) + 15).toNat = e := by omega
  rw [hfield, halfBits_or (by omega) hm]
  rfl

theorem f16OfFloatBits_zero (hs : s < 2) :
    f16OfFloatBits (floatBits s 0 0) = .ok (halfBits s 0 0) := by
  match s with
  | 0 => rfl
  | 1 => rfl

theorem f16OfFloatBits_special (hs : s < 2) (hm : m < 2 ^ 23) :
    f16OfFloatBits (floatBits s 255 m) = .ok (halfBits s 31 (if m = 0 then 0 else 512)) := by
  obtain ⟨hsign, hexp, hman⟩ := floatBits_fields hs (by decide : 255 < 2 ^ 8) hm
  rw [f16OfFloatBits]
  dsimp only
  rw [hsign, hexp, hman, if_pos rfl]
  have hinf : s * 2 ^ 15 ||| 0x7c00 = (s * 2 ^ 5 + 31) * 2 ^ 10 := by
    change s * 2 ^ 15 ||| 31 * 2 ^ 10 = _
    rw [or_eq_add 15 (by decide)]
    omega
  by_cases hzero : m = 0
  · rw [if_neg (fun hne => hne hzero), if_pos hzero, hinf, or_eq_add 10 (by decide), halfBits]
    exact congrArg Except.ok (by omega)
  · rw [if_pos hzero, if_neg hzero, hinf, or_eq_add 10 (by decide), halfBits]
    exact congrArg Except.ok (by omega)

theorem signalling_floatBits (he : e < 2 ^ 8) (hm : m < 2 ^ 23) :
    Signalling (floatBits s e m) ↔ e = 255 ∧ 0 < m ∧ m < 2 ^ 22 := by
  have hfield : floatBits s e m / 2 ^ 23 % 2 ^ 8 = e := by
    rw [floatBits]
    omega
  have hfraction : floatBits s e m % 2 ^ 23 = m := by
    rw [floatBits]
    omega
  rw [Signalling, hfield, hfraction]
  exact Iff.rfl

theorem tensorFloatToF16_floatBits (hs : s < 2) (he : e < 255) (hm : m < 2 ^ 23) :
    tensorFloatToF16 (nvOfFloat (floatBits s e m)) = f16OfFloatBits (floatBits s e m) := by
  have hbits : floatBits s e m < 2 ^ 32 := by
    rw [floatBits]
    omega
  have hsignal : ¬ Signalling (floatBits s e m) := by
    rw [signalling_floatBits (by omega) hm]
    omega
  rw [tensorFloatToF16, floatOfNv_nvOfFloat hbits, if_neg hsignal]

theorem f16FloatBits_normal (hs : s < 2) (he : 1 ≤ e) (he' : e ≤ 30)
    (hm : m < 2 ^ 10) :
    f16FloatBits (halfBits s e m) = floatBits s (e + 112) (m * 2 ^ 13) := by
  obtain ⟨hsign, hexp, hman⟩ := halfBits_fields hs (by omega : e < 2 ^ 5) hm
  rw [f16FloatBits]
  dsimp only
  rw [hsign, hexp, hman, if_neg (by omega), if_neg (by omega), floatBits_or (by omega) hm]

theorem trip_normal (hs : s < 2) (he : 1 ≤ e) (he' : e ≤ 30) (hm : m < 2 ^ 10) :
    trip .f16 (halfBits s e m) = .ok (halfBits s e m) := by
  have hbits := f16FloatBits_normal hs he he' hm
  change tensorFloatToF16 (nvOfFloat (f16FloatBits (halfBits s e m))) = _
  rw [hbits, tensorFloatToF16_floatBits hs (by omega) (by omega)]
  exact f16OfFloatBits_normal hs he he' hm

theorem f16FloatBits_zero (hs : s < 2) :
    f16FloatBits (halfBits s 0 0) = floatBits s 0 0 := by
  match s with
  | 0 => rfl
  | 1 => rfl

theorem trip_zero (hs : s < 2) : trip .f16 (halfBits s 0 0) = .ok (halfBits s 0 0) := by
  have hbits := f16FloatBits_zero hs
  change tensorFloatToF16 (nvOfFloat (f16FloatBits (halfBits s 0 0))) = _
  rw [hbits, tensorFloatToF16_floatBits hs (by decide) (by decide)]
  exact f16OfFloatBits_zero hs

theorem f16FloatBits_special (hs : s < 2) (hm : m < 2 ^ 10) :
    f16FloatBits (halfBits s 31 m) = floatBits s 255 (m * 2 ^ 13) := by
  obtain ⟨hsign, hexp, hman⟩ := halfBits_fields hs (by decide : 31 < 2 ^ 5) hm
  rw [f16FloatBits]
  dsimp only
  have hinf : 0x7f800000 = 255 <<< 23 := by decide
  rw [hsign, hexp, hman, if_neg (by decide), if_pos rfl, hinf, floatBits_or (by decide) hm]

theorem trip_special (hs : s < 2) (hm : m < 2 ^ 10) :
    trip .f16 (halfBits s 31 m) = .ok (halfBits s 31 (if m = 0 then 0 else 512)) := by
  have hbits := f16FloatBits_special hs hm
  have hsmall : floatBits s 255 (m * 2 ^ 13) < 2 ^ 32 := by
    rw [floatBits]
    omega
  change tensorFloatToF16 (nvOfFloat (f16FloatBits (halfBits s 31 m))) = _
  rw [hbits, tensorFloatToF16, floatOfNv_nvOfFloat hsmall]
  by_cases hsignal : Signalling (floatBits s 255 (m * 2 ^ 13))
  · have hparts := (signalling_floatBits (by decide) (by omega)).1 hsignal
    have hquiet : floatBits s 255 (m * 2 ^ 13) + 2 ^ 22 =
        floatBits s 255 (m * 2 ^ 13 + 2 ^ 22) := Nat.add_assoc _ _ _
    rw [if_pos hsignal, hquiet, f16OfFloatBits_special hs (by omega), if_neg (by omega),
      if_neg (by omega)]
  · rw [if_neg hsignal, f16OfFloatBits_special hs (by omega)]
    by_cases hzero : m = 0
    · rw [if_pos hzero, if_pos (by omega)]
    · rw [if_neg hzero, if_neg (by omega)]

theorem halfLoop_spec (rounds : Nat) {mantissa : Nat} (hpos : 0 < mantissa)
    (hlow : mantissa < 2 ^ 11) (hrounds : 2 ^ 10 ≤ mantissa * 2 ^ rounds) (adjustment : Int) :
    ∃ k ≤ rounds, halfLoop (rounds + 1) mantissa adjustment = (mantissa * 2 ^ k, adjustment - k) ∧
      2 ^ 10 ≤ mantissa * 2 ^ k ∧ mantissa * 2 ^ k < 2 ^ 11 := by
  have hset {n : Nat} (hn : n < 2 ^ 11) : n &&& 0x400 = 0 ↔ n < 2 ^ 10 := by
    change n &&& 2 ^ 10 = 0 ↔ _
    rw [and_bit]
    omega
  induction rounds generalizing mantissa adjustment with
  | zero =>
    rw [Nat.pow_zero, Nat.mul_one] at hrounds
    refine ⟨0, Nat.le_refl 0, ?_, by omega, by omega⟩
    rw [halfLoop, if_neg (fun h => absurd ((hset hlow).1 h) (Nat.not_lt.2 hrounds))]
    simp
  | succ rounds ih =>
    rw [halfLoop]
    by_cases hclear : mantissa &&& 0x400 = 0
    · have hsmall := (hset hlow).1 hclear
      rw [Nat.pow_succ] at hrounds
      have hshift : mantissa <<< 1 = mantissa * 2 := Nat.shiftLeft_eq mantissa 1
      have hnext : 2 ^ 10 ≤ mantissa * 2 * 2 ^ rounds := by
        rw [Nat.mul_assoc, Nat.mul_comm 2]
        exact hrounds
      obtain ⟨k, hk, hrun, hlow', hhigh'⟩ :=
        ih (by omega : 0 < mantissa * 2) (by omega) hnext (adjustment - 1)
      have hpow : mantissa * 2 ^ (k + 1) = mantissa * 2 * 2 ^ k := by
        rw [Nat.pow_succ, Nat.mul_comm (2 ^ k), Nat.mul_assoc]
      refine ⟨k + 1, Nat.succ_le_succ hk, ?_, by rw [hpow]; exact hlow', by rw [hpow]; exact hhigh'⟩
      rw [if_pos hclear, hshift, hrun, hpow]
      exact Prod.ext rfl (by push_cast; omega)
    · rw [if_neg hclear]
      have hlarge : ¬ mantissa < 2 ^ 10 := fun h => hclear ((hset hlow).2 h)
      refine ⟨0, Nat.zero_le _, ?_, by omega, by omega⟩
      simp

theorem f16FloatBits_subnormal (hs : s < 2) (hpos : 0 < m) (hm : m < 2 ^ 10) :
    ∃ k, 1 ≤ k ∧ k ≤ 10 ∧ 2 ^ 10 ≤ m * 2 ^ k ∧ m * 2 ^ k < 2 ^ 11 ∧
      f16FloatBits (halfBits s 0 m) =
        floatBits s (14 - k + 112) ((m * 2 ^ k &&& 0x3ff) * 2 ^ 13) := by
  obtain ⟨hsign, hexp, hman⟩ := halfBits_fields hs (by decide : 0 < 2 ^ 5) hm
  obtain ⟨k, hk, hrun, hlow, hhigh⟩ := halfLoop_spec 10 hpos (by omega) (by omega) (-1)
  have hkpos : 1 ≤ k := by
    cases k with
    | zero => omega
    | succ k => omega
  have hfield : (-1 - (k : Int) + 127).toNat = 14 - k + 112 := by omega
  have hfraction : m * 2 ^ k &&& 0x3ff < 2 ^ 10 := by
    change m * 2 ^ k &&& (2 ^ 10 - 1) < _
    rw [and_mask]
    exact Nat.mod_lt _ (by decide)
  refine ⟨k, hkpos, hk, hlow, hhigh, ?_⟩
  rw [f16FloatBits]
  dsimp only
  rw [hsign, hexp, hman, if_pos rfl, if_neg (Nat.ne_of_gt hpos), hrun]
  dsimp only
  rw [hfield, floatBits_or (by omega) hfraction]

theorem trip_subnormal (hs : s < 2) (hpos : 0 < m) (hm : m < 2 ^ 10) :
    ∃ e m', 1 ≤ e ∧ e ≤ 30 ∧ m' < 2 ^ 10 ∧
      trip .f16 (halfBits s 0 m) = .ok (halfBits s e m') := by
  obtain ⟨k, hkpos, hk, -, -, hbits⟩ := f16FloatBits_subnormal hs hpos hm
  have hfraction : m * 2 ^ k &&& 0x3ff < 2 ^ 10 := by
    change m * 2 ^ k &&& (2 ^ 10 - 1) < _
    rw [and_mask]
    exact Nat.mod_lt _ (by decide)
  refine ⟨14 - k, m * 2 ^ k &&& 0x3ff, by omega, by omega, hfraction, ?_⟩
  change tensorFloatToF16 (nvOfFloat (f16FloatBits (halfBits s 0 m))) = _
  rw [hbits, tensorFloatToF16_floatBits hs (by omega) (by omega)]
  exact f16OfFloatBits_normal hs (by omega) (by omega) hfraction

/-- Elements that come back from an NV: integers with at most 53 places between their first and last
set bit, halves that are not subnormal, and quiet NaNs. -/
def Survives (dtype : Dtype) (bits : Nat) : Prop :=
  match dtype with
  | .u64 => Exact 52 bits
  | .i64 => Exact 52 (signedOf 64 bits).natAbs
  | .f16 => (bits / 2 ^ 10 % 2 ^ 5 = 0 → bits % 2 ^ 10 = 0) ∧
      (bits / 2 ^ 10 % 2 ^ 5 = 31 → bits % 2 ^ 10 = 0 ∨ bits % 2 ^ 10 = 512)
  | .bf16 => ¬ Signalling (bits * 2 ^ 16)
  | .f32 => ¬ Signalling bits
  | _ => True

theorem Judged.once {trip : Nat → TensorM Nat} {survives : Prop} {next : Nat}
    (hstay : survives → trip bits = .ok bits)
    (hmove : ¬ survives → trip bits = .ok next ∧ trip next = .ok next ∧ next ≠ bits) :
    Judged trip survives bits := by
  refine ⟨hstay, ?_⟩
  intro hno bits' hfirst hsecond
  obtain ⟨hnext, hagain, hne⟩ := hmove hno
  rw [hnext] at hfirst
  rw [← Except.ok.inj hfirst, hagain] at hsecond
  exact hne (Except.ok.inj hsecond)

theorem judged_f16 (hbits : bits < 2 ^ 16) :
    Judged (trip .f16) (Survives .f16 bits) bits := by
  obtain ⟨s, e, m, hs, he, hm, rfl⟩ : ∃ s e m, s < 2 ∧ e < 2 ^ 5 ∧ m < 2 ^ 10 ∧
      halfBits s e m = bits :=
    ⟨bits / 2 ^ 15, bits / 2 ^ 10 % 2 ^ 5, bits % 2 ^ 10, by omega, by omega, by omega,
      by rw [halfBits]; omega⟩
  have hexp : halfBits s e m / 2 ^ 10 % 2 ^ 5 = e := by
    rw [halfBits]
    omega
  have hman : halfBits s e m % 2 ^ 10 = m := by
    rw [halfBits]
    omega
  rw [Survives, hexp, hman]
  by_cases hzero : e = 0
  · subst hzero
    by_cases hm0 : m = 0
    · subst hm0
      exact ⟨fun _ => trip_zero hs, fun hno => absurd ⟨fun _ => rfl, fun h => by omega⟩ hno⟩
    · obtain ⟨e', m', he1, he30, hm', hfirst⟩ := trip_subnormal hs (Nat.pos_of_ne_zero hm0) hm
      apply Judged.once (fun hyes => absurd (hyes.1 rfl) hm0)
      intro _
      refine ⟨hfirst, trip_normal hs he1 he30 hm', ?_⟩
      rw [halfBits, halfBits]
      omega
  · by_cases hlast : e = 31
    · subst hlast
      have hstep := trip_special hs hm
      by_cases hkept : m = 0 ∨ m = 512
      · have hsame : (if m = 0 then 0 else 512) = m := by
          split <;> omega
        rw [hsame] at hstep
        exact ⟨fun _ => hstep, fun hno => absurd ⟨fun h => by omega, fun _ => hkept⟩ hno⟩
      · rw [if_neg (by omega)] at hstep
        have hagain := trip_special hs (by decide : 512 < 2 ^ 10)
        rw [if_neg (by decide)] at hagain
        apply Judged.once (fun hyes => absurd (hyes.2 rfl) hkept)
        intro _
        refine ⟨hstep, hagain, ?_⟩
        rw [halfBits, halfBits]
        omega
    · have hstep := trip_normal hs (by omega : 1 ≤ e) (by omega) hm
      exact ⟨fun _ => hstep, fun hno => absurd ⟨fun h => by omega, fun h => by omega⟩ hno⟩

theorem judged_f32 (hbits : bits < 2 ^ 32) :
    Judged (trip .f32) (Survives .f32 bits) bits := by
  have htrip {bits : Nat} (h : bits < 2 ^ 32) :
      trip .f32 bits = .ok (if Signalling bits then bits + 2 ^ 22 else bits) :=
    congrArg Except.ok (floatOfNv_nvOfFloat h)
  have hmove (hsignal : ¬ Survives .f32 bits) : trip .f32 bits = .ok (bits + 2 ^ 22) ∧
      trip .f32 (bits + 2 ^ 22) = .ok (bits + 2 ^ 22) ∧ bits + 2 ^ 22 ≠ bits := by
    have hsignal : Signalling bits := Decidable.not_not.1 hsignal
    have hafter : ¬ Signalling (bits + 2 ^ 22) := by
      intro h
      obtain ⟨-, -, hlow⟩ := h
      obtain ⟨-, -, hlow'⟩ := hsignal
      omega
    have hsmall : bits + 2 ^ 22 < 2 ^ 32 := by
      obtain ⟨-, -, hlow⟩ := hsignal
      omega
    refine ⟨?_, ?_, by omega⟩
    · rw [htrip hbits, if_pos hsignal]
    · rw [htrip hsmall, if_neg hafter]
  exact Judged.once (fun hquiet => by rw [htrip hbits, if_neg hquiet]) hmove

theorem judged_bf16 (hbits : bits < 2 ^ 16) :
    Judged (trip .bf16) (Survives .bf16 bits) bits := by
  have htrip {bits : Nat} (h : bits < 2 ^ 16) :
      trip .bf16 bits = .ok (if Signalling (bits * 2 ^ 16) then bits + 2 ^ 6 else bits) :=
    congrArg Except.ok (tensorFloatToBf16_tensorBf16ToFloat h)
  have hmove (hsignal : ¬ Survives .bf16 bits) : trip .bf16 bits = .ok (bits + 2 ^ 6) ∧
      trip .bf16 (bits + 2 ^ 6) = .ok (bits + 2 ^ 6) ∧ bits + 2 ^ 6 ≠ bits := by
    have hsignal : Signalling (bits * 2 ^ 16) := Decidable.not_not.1 hsignal
    have hafter : ¬ Signalling ((bits + 2 ^ 6) * 2 ^ 16) := by
      intro h
      obtain ⟨-, -, hlow⟩ := h
      obtain ⟨-, -, hlow'⟩ := hsignal
      omega
    have hsmall : bits + 2 ^ 6 < 2 ^ 16 := by
      obtain ⟨-, -, hlow⟩ := hsignal
      omega
    refine ⟨?_, ?_, by omega⟩
    · rw [htrip hbits, if_pos hsignal]
    · rw [htrip hsmall, if_neg hafter]
  exact Judged.once (fun hquiet => by rw [htrip hbits, if_neg hquiet]) hmove

theorem judged_narrow {width : Nat} (hwidth : 0 < width) (hnarrow : width ≤ 32)
    (hbits : bits < 2 ^ width) :
    Judged (fun bits => storeSigned width (nvOfInt (signedOf width bits))) True bits := by
  obtain ⟨-, hlow, hhigh⟩ := signedOf_range hwidth hbits
  have hhalf : 2 ^ (width - 1) ≤ 2 ^ 31 := Nat.pow_le_pow_right (by decide) (by omega)
  exact (judged_signed hwidth hbits).always (exact_of_lt (by omega))

theorem judged_f64 (hbits : bits < 2 ^ 64) :
    Judged (fun bits => .ok (double.encode (double.decode bits))) True bits :=
  ⟨fun _ => congrArg Except.ok (encode_decode (by decide) hbits), fun hno => absurd trivial hno⟩

theorem judged (dtype : Dtype) (hbits : bits < 2 ^ (8 * tensorDtypeSize dtype)) :
    Judged (trip dtype) (Survives dtype bits) bits := by
  cases dtype with
  | u8 => exact (judged_unsigned 8 hbits).always (exact_of_lt (Nat.lt_trans hbits (by decide)))
  | u16 => exact (judged_unsigned 16 hbits).always (exact_of_lt (Nat.lt_trans hbits (by decide)))
  | u32 => exact (judged_unsigned 32 hbits).always (exact_of_lt (Nat.lt_trans hbits (by decide)))
  | u64 => exact judged_unsigned 64 hbits
  | i8 => exact judged_narrow (by decide) (by decide) hbits
  | i16 => exact judged_narrow (by decide) (by decide) hbits
  | i32 => exact judged_narrow (by decide) (by decide) hbits
  | i64 => exact judged_signed (by decide) hbits
  | f16 => exact judged_f16 hbits
  | bf16 => exact judged_bf16 hbits
  | f32 => exact judged_f32 hbits
  | f64 => exact judged_f64 hbits
  | nv => exact judged_f64 hbits

end XPerl.TensorXs
