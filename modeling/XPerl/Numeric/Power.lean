import Mathlib.Data.Nat.Prime.Pow
import Mathlib.Data.Nat.Size
import XPerl.Framework.Congruential
import XPerl.Numeric.Exact

/-! `pp_pow`. -/

namespace XPerl.Numeric

open XPerl.Framework

variable {NV : Type}

/-- Where `pp_pow` computes its result: by the loop in NVs for powers of two, by the loop in UVs,
or by the library's `pow`. -/
inductive PowBranch where
  | twos
  | integer
  | float
  deriving DecidableEq, Repr

/-- The floating point that `pp_pow` uses beside `Floats`. -/
structure Powers (NV : Type) where
  one : NV
  pow : NV → NV → NV

def powExponent (sv : Sv NV) : Option UInt64 :=
  if sv.isUV then some sv.uvx
  else if sv.ivx ≥ 0 then some sv.ivx.toUInt64
  else none

/-- The absolute value of the base, with the flag "not negative"; the plain `-iv` wraps around
(`-fwrapv`). -/
def powBase (sv : Sv NV) : UInt64 × Bool :=
  if sv.isUV then (sv.uvx, true)
  else if sv.ivx ≥ 0 then (sv.ivx.toUInt64, true)
  else ((-sv.ivx).toUInt64, false)

def highbitStep (baseuv : UInt64) (highbit diff : Nat) : Nat :=
  let highbit := highbit - diff
  if baseuv >>> UInt64.ofNat highbit != 0 then highbit + diff else highbit

def highbitOf (baseuv : UInt64) : Nat := [32, 16, 8, 4, 2, 1].foldl (highbitStep baseuv) 64

/-- `foo & (foo - 1)` is zero only for a power of 2, and for 0. -/
def isTwoPower (baseuv : UInt64) : Bool := baseuv &&& (baseuv - 1) == 0

def powTwos (f : Floats NV) (p : Powers NV) (baseuv : UInt64) (baseuok : Bool) (power : UInt64) :
    NV :=
  powerBySquaring f.mul p.one (if baseuok then f.ofUV baseuv else f.neg (f.ofUV baseuv)) 64
    power.toNat

/-- The loop in UVs, whose products are taken modulo the word size. -/
def powInteger (baseuv power : UInt64) : UInt64 := powerBySquaring (· * ·) 1 baseuv 64 power.toNat

/-- Whether the bit count allows the loop in UVs: `power * highbit <= 8 * sizeof(UV)`, a product of
UVs. -/
def powFits (baseuv power : UInt64) : Bool := power * UInt64.ofNat (highbitOf baseuv) ≤ 64

/-- `pp_pow` after overloading, and the branch that it took. -/
def ppPow (f : Floats NV) (p : Powers NV) (targ : Targ) (svl svr : Sv NV) :
    Defined (PowBranch × Value NV) :=
  let (svr, rok) := svIVPleaseNomg f svr
  let floatIt (svl : Sv NV) : PowBranch × Value NV :=
    (.float, .nv (p.pow (f.svNV svl) (f.svNV svr)))
  if rok then
    let (svl, lok) := svIVPleaseNomg f svl
    if lok then
      match powExponent svr with
      | none => return floatIt svl
      | some power =>
        let (baseuv, baseuok) := powBase svl
        if isTwoPower baseuv then return (.twos, .nv (powTwos f p baseuv baseuok power))
        else if powFits baseuv power then do
          let value ← storeSigned f targ (powInteger baseuv power)
            (baseuok || power &&& 1 == 0)
          return (.integer, value)
        else return floatIt svl
    else return floatIt svl
  else return floatIt svl

variable {u power base : UInt64} {ok : Bool}

theorem shiftRight_ne_zero {k : Nat} (hk : k < 64) :
    (u >>> UInt64.ofNat k != 0) = decide (2 ^ k ≤ u.toNat) := by
  have hshift : (u >>> UInt64.ofNat k).toNat = u.toNat / 2 ^ k := by
    rw [UInt64.toNat_shiftRight, Nat.shiftRight_eq_div_pow]
    congr 2
    rw [UInt64.toNat_ofNat']
    omega
  have hiff : u >>> UInt64.ofNat k = 0 ↔ u.toNat < 2 ^ k := by
    rw [← UInt64.toNat_inj, hshift]
    exact Nat.div_eq_zero_iff_lt (Nat.two_pow_pos k)
  rw [bne, beq_eq_decide, ← decide_not, decide_eq_decide, hiff]
  exact Nat.not_lt

theorem highbitStep_spec {highbit : Nat} (diff : Nat) (hu : 0 < u.toNat.size)
    (h64 : highbit ≤ 64) (hpos : 0 < diff) (hd : diff ≤ 32)
    (hlow : highbit < u.toNat.size + 2 * diff) (hhigh : u.toNat.size ≤ highbit) :
    highbitStep u highbit diff < u.toNat.size + diff ∧ u.toNat.size ≤ highbitStep u highbit diff ∧
      highbitStep u highbit diff ≤ 64 := by
  have hsize : 2 ^ (highbit - diff) ≤ u.toNat ↔ highbit - diff < u.toNat.size := Nat.lt_size.symm
  unfold highbitStep
  dsimp only
  rw [shiftRight_ne_zero (by omega)]
  split_ifs with h
  · rw [decide_eq_true_eq, hsize] at h
    omega
  · rw [decide_eq_true_eq, hsize] at h
    omega

theorem highbitOf_eq (hu : u ≠ 0) : highbitOf u = u.toNat.size := by
  have hpos : 0 < u.toNat := by
    rcases Nat.eq_zero_or_pos u.toNat with h | h
    · exact absurd (UInt64.toNat_inj.1 h) hu
    · exact h
  have hs : 0 < u.toNat.size := Nat.size_pos.2 hpos
  have hmax : u.toNat.size ≤ 64 := Nat.size_le.2 u.toNat_lt
  have h1 := highbitStep_spec 32 hs (Nat.le_refl 64) (by omega) (by omega) (by omega) hmax
  have h2 := highbitStep_spec 16 hs h1.2.2 (by omega) (by omega) (by omega) h1.2.1
  have h3 := highbitStep_spec 8 hs h2.2.2 (by omega) (by omega) (by omega) h2.2.1
  have h4 := highbitStep_spec 4 hs h3.2.2 (by omega) (by omega) (by omega) h3.2.1
  have h5 := highbitStep_spec 2 hs h4.2.2 (by omega) (by omega) (by omega) h4.2.1
  have h6 := highbitStep_spec 1 hs h5.2.2 (by omega) (by omega) (by omega) h5.2.1
  simp only [highbitOf, List.foldl_cons, List.foldl_nil]
  omega

def mulUV (a b : UInt64) : Option UInt64 :=
  if a.toNat * b.toNat < 2 ^ 64 then some (a * b) else none

def powProducts (baseuv power : UInt64) : Option UInt64 :=
  powerBySquaring (fun a b => a.bind fun a => b.bind (mulUV a)) (some 1) (some baseuv) 64 power.toNat

theorem powProducts_spec {baseuv : UInt64} (hpos : 0 < baseuv.toNat)
    (hfits : baseuv.toNat ^ power.toNat < 2 ^ 64) :
    (powInteger baseuv power).toNat = baseuv.toNat ^ power.toNat ∧
      powProducts baseuv power = some (powInteger baseuv power) := by
  have hbelow : ∀ e ≤ power.toNat, baseuv.toNat ^ e < 2 ^ 64 := fun e he =>
    (Nat.pow_le_pow_right hpos he).trans_lt hfits
  have hfuel : power.toNat < 2 ^ (64 + 1) := by
    have := power.toNat_lt
    omega
  have hint : (powInteger baseuv power).toNat = baseuv.toNat ^ power.toNat := by
    refine powerBySquaring_spec (R := fun (a : UInt64) e => a.toNat = baseuv.toNat ^ e) ?_ hfuel rfl
      (Nat.pow_one _).symm
    intro a b i j ha hb hle
    rw [UInt64.toNat_mul, ha, hb, ← Nat.pow_add, Nat.mod_eq_of_lt (hbelow _ hle)]
  have hprod : ∃ a, powProducts baseuv power = some a ∧ a.toNat = baseuv.toNat ^ power.toNat := by
    refine powerBySquaring_spec (R := fun o e => ∃ a, o = some a ∧ a.toNat = baseuv.toNat ^ e) ?_
      hfuel ⟨1, rfl, rfl⟩ ⟨baseuv, rfl, (Nat.pow_one _).symm⟩
    rintro _ _ i j ⟨a, rfl, ha⟩ ⟨b, rfl, hb⟩ hle
    have hlt : a.toNat * b.toNat < 2 ^ 64 := by
      rw [ha, hb, ← Nat.pow_add]
      exact hbelow _ hle
    refine ⟨a * b, by rw [Option.bind_some, Option.bind_some, mulUV, if_pos hlt], ?_⟩
    rw [UInt64.toNat_mul, Nat.mod_eq_of_lt hlt, ha, hb, Nat.pow_add]
  obtain ⟨a, ha, hval⟩ := hprod
  refine ⟨hint, ?_⟩
  rw [ha, ← UInt64.toNat_inj.1 (hval.trans hint.symm)]

theorem pow_lt_of_bits {b p : Nat} (h : p * b.size ≤ 64) : b ^ p < 2 ^ 64 := by
  rcases Nat.eq_zero_or_pos p with rfl | hp
  · simp
  · calc b ^ p < (2 ^ b.size) ^ p := Nat.pow_lt_pow_left (Nat.lt_size_self b) (by omega)
      _ = 2 ^ (b.size * p) := (Nat.pow_mul ..).symm
      _ ≤ 2 ^ 64 := Nat.pow_le_pow_right (by omega) (by rw [Nat.mul_comm]; exact h)

theorem odd_pow_lt {b p : Nat} (h : p * b.size ≤ 64) (hodd : p % 2 = 1) (hb : b < 2 ^ 63) :
    b ^ p < 2 ^ 63 := by
  have hle : p * b.size ≤ 63 := by
    by_contra hgt
    have heq : p * b.size = 64 := by omega
    have hdvd : p ∣ 2 ^ 6 := ⟨b.size, heq.symm⟩
    obtain ⟨k, -, hk⟩ := (Nat.dvd_prime_pow Nat.prime_two).1 hdvd
    rcases Nat.eq_zero_or_pos k with rfl | hkpos
    · have hsize : b.size ≤ 63 := Nat.size_le.2 hb
      rw [hk] at heq
      omega
    · have heven : p % 2 = 0 := by
        rw [hk, ← Nat.sub_add_cancel hkpos, Nat.pow_succ]
        omega
      omega
  have hp : 0 < p := by omega
  calc b ^ p < (2 ^ b.size) ^ p := Nat.pow_lt_pow_left (Nat.lt_size_self b) (by omega)
    _ = 2 ^ (b.size * p) := (Nat.pow_mul ..).symm
    _ ≤ 2 ^ 63 := Nat.pow_le_pow_right (by omega) (by rw [Nat.mul_comm]; exact hle)

theorem powExponent_spec (sv : Sv NV) (h : 0 ≤ sv.value) :
    powExponent sv = some (UInt64.ofNat sv.value.toNat) ∧
      (UInt64.ofNat sv.value.toNat).toNat = sv.value.toNat := by
  have hfits := value_fits sv
  have hval : (UInt64.ofNat sv.value.toNat).toNat = sv.value.toNat := by
    rw [UInt64.toNat_ofNat']
    have hhigh := hfits.2
    omega
  refine ⟨?_, hval⟩
  unfold powExponent
  split_ifs with huv hnonneg
  · rw [Option.some.injEq, ← UInt64.toNat_inj, hval]
    simp [Sv.value, huv]
  · have hcast := toUInt64_of_nonneg (i := sv.ivx) (Int64.not_lt.2 hnonneg)
    have hsv : sv.value = sv.ivx.toInt := by simp [Sv.value, huv]
    rw [Option.some.injEq, ← UInt64.toNat_inj, hval]
    omega
  · have hsv : sv.value = sv.ivx.toInt := by simp [Sv.value, huv]
    refine absurd (Int64.le_iff_toInt_le.2 ?_) hnonneg
    rw [← hsv]
    exact h

theorem powBase_spec (sv : Sv NV) :
    ∃ ok, powBase sv = (UInt64.ofNat sv.value.natAbs, ok) ∧
      (UInt64.ofNat sv.value.natAbs).toNat = sv.value.natAbs ∧
      signedValue (UInt64.ofNat sv.value.natAbs) ok = sv.value ∧
      (ok = false → sv.value < 0) := by
  have hfits := value_fits sv
  have hval : (UInt64.ofNat sv.value.natAbs).toNat = sv.value.natAbs := by
    rw [UInt64.toNat_ofNat']
    have hlow := hfits.1
    have hhigh := hfits.2
    omega
  unfold powBase
  split_ifs with huv hnonneg
  · have hsv : sv.value = sv.uvx.toNat := by simp [Sv.value, huv]
    have hbase : sv.uvx = UInt64.ofNat sv.value.natAbs := by
      rw [← UInt64.toNat_inj, hval]
      omega
    refine ⟨true, by rw [← hbase], hval, ?_, by simp⟩
    rw [signedValue, if_pos rfl, hval]
    omega
  · have hsv : sv.value = sv.ivx.toInt := by simp [Sv.value, huv]
    have hcast := toUInt64_of_nonneg (i := sv.ivx) (Int64.not_lt.2 hnonneg)
    have hbase : sv.ivx.toUInt64 = UInt64.ofNat sv.value.natAbs := by
      rw [← UInt64.toNat_inj, hval]
      omega
    refine ⟨true, by rw [← hbase], hval, ?_, by simp⟩
    rw [signedValue, if_pos rfl, hval]
    omega
  · have hsv : sv.value = sv.ivx.toInt := by simp [Sv.value, huv]
    have hneg : sv.ivx.toInt < 0 := by
      by_contra hge
      exact hnonneg (Int64.le_iff_toInt_le.2 (by simpa using hge))
    have hlow := sv.ivx.le_toInt
    have hbase : (-sv.ivx).toUInt64 = UInt64.ofNat sv.value.natAbs := by
      rw [← UInt64.toNat_inj, hval]
      have hcast := toNat_toUInt64 (-sv.ivx)
      rw [Int64.toInt_neg, Int.bmod_def] at hcast
      omega
    refine ⟨false, by rw [← hbase], hval, ?_, fun _ => by omega⟩
    rw [signedValue, if_neg Bool.false_ne_true, hval]
    omega

/-- The NV loop computes with powers of two alone: `nv z` is the NV of `z`, an infinity from the end
of its range on. -/
structure Powers.Exact (f : Floats NV) (p : Powers NV) (nv : Int → NV) : Prop where
  one : p.one = nv 1
  ofUV : ∀ u, isTwoPower u = true → f.ofUV u = nv u.toNat
  neg : ∀ k : Nat, f.neg (nv (2 ^ k)) = nv (-2 ^ k)
  mul : ∀ (a b : Int) (i j : Nat), a.natAbs = 2 ^ i → b.natAbs = 2 ^ j →
    f.mul (nv a) (nv b) = nv (a * b)
  mul_small : ∀ a b : Int, a = 0 ∨ a = 1 → b = 0 ∨ b = 1 → f.mul (nv a) (nv b) = nv (a * b)

theorem isTwoPower_iff : isTwoPower u = true ↔ u = 0 ∨ ∃ k, u.toNat = 2 ^ k := by
  by_cases hzero : u = 0
  · subst hzero
    exact iff_of_true (by decide) (Or.inl rfl)
  have hpos : u.toNat ≠ 0 := fun h => hzero (UInt64.toNat_inj.1 h)
  have hlt := u.toNat_lt
  have hpred : (u - 1).toNat = u.toNat - 1 := by
    rw [UInt64.toNat_sub]
    have hone : (1 : UInt64).toNat = 1 := rfl
    omega
  have hand : (u &&& (u - 1)).toNat = u.toNat &&& (u.toNat - 1) := by
    rw [UInt64.toNat_and, hpred]
  rw [isTwoPower, beq_iff_eq, ← UInt64.toNat_inj, hand]
  simp only [hzero, false_or]
  exact Nat.and_sub_one_eq_zero_iff_isPowerOfTwo hpos

theorem powTwos_spec {f : Floats NV} {p : Powers NV} {nv : Int → NV} (hexact : Powers.Exact f p nv)
    (htwo : isTwoPower base = true)
    (hok : ok = false → base ≠ 0) :
    powTwos f p base ok power = nv (signedValue base ok ^ power.toNat) := by
  have hfuel : power.toNat < 2 ^ (64 + 1) := by
    have := power.toNat_lt
    omega
  have hfirst : (if ok then f.ofUV base else f.neg (f.ofUV base)) = nv (signedValue base ok) := by
    rw [hexact.ofUV base htwo]
    cases ok with
    | true => rfl
    | false =>
      obtain ⟨k, hk⟩ := (isTwoPower_iff.1 htwo).resolve_left (hok rfl)
      have hcast : (base.toNat : Int) = 2 ^ k := by exact_mod_cast hk
      simp [signedValue, hcast, hexact.neg]
  rw [powTwos, hfirst]
  refine powerBySquaring_spec (R := fun (a : NV) e => a = nv (signedValue base ok ^ e)) ?_ hfuel
    (by rw [hexact.one, pow_zero]) (by rw [pow_one])
  rintro a b i j ha hb -
  rw [ha, hb, pow_add]
  rcases isTwoPower_iff.1 htwo with hzero | ⟨k, hk⟩
  · have hval : signedValue base ok = 0 := by simp [signedValue, hzero]
    have hsmall : ∀ e : Nat, (0 : Int) ^ e = 0 ∨ (0 : Int) ^ e = 1 := fun e => by
      rcases e with _ | e
      · exact Or.inr (pow_zero 0)
      · exact Or.inl (zero_pow (Nat.succ_ne_zero e))
    rw [hval]
    exact hexact.mul_small _ _ (hsmall i) (hsmall j)
  · have habs : (signedValue base ok).natAbs = 2 ^ k := by
      rw [← hk, signedValue]
      split_ifs <;> simp
    have hpow : ∀ e, (signedValue base ok ^ e).natAbs = 2 ^ (k * e) := fun e => by
      rw [Int.natAbs_pow, habs, ← Nat.pow_mul]
    exact hexact.mul _ _ _ _ (hpow i) (hpow j)

/-- The power as the loops must give it: the NV of it from the loop in NVs, the integer itself from
the loop in UVs, where nothing wraps around. -/
structure PowerExact (f : Floats NV) (p : Powers NV) (nv : Int → NV) (targ : Targ)
    (svl svr : Sv NV) : Prop where
  twos : ∀ value, ppPow f p targ svl svr = some (.twos, value) →
    value = .nv (nv (svl.value ^ svr.value.toNat))
  integer : ∀ value, ppPow f p targ svl svr = some (.integer, value) →
    value = Value.ofInt (svl.value ^ svr.value.toNat) ∧
    powProducts (UInt64.ofNat svl.value.natAbs) (UInt64.ofNat svr.value.toNat) ≠ none ∧
    svr.value.toNat * highbitOf (UInt64.ofNat svl.value.natAbs) < 2 ^ 64

/-- A power of two, or the product of exponent and bit count stays a word or wraps around to more
than the limit. -/
def BitCountHolds (base power : Nat) : Prop :=
  isTwoPower (UInt64.ofNat base) = true ∨ power * base.size < 2 ^ 64 ∨
    64 < power * base.size % 2 ^ 64

theorem powFits_iff (power : UInt64) (hbase : base ≠ 0) :
    powFits base power = true ↔ power.toNat * base.toNat.size % 2 ^ 64 ≤ 64 := by
  have hsize : base.toNat.size ≤ 64 := Nat.size_le.2 base.toNat_lt
  have hcast : (UInt64.ofNat base.toNat.size).toNat = base.toNat.size := by
    rw [UInt64.toNat_ofNat']
    omega
  rw [powFits, highbitOf_eq hbase, decide_eq_true_eq, UInt64.le_iff_toNat_le, UInt64.toNat_mul,
    hcast]
  rfl

theorem signedValue_pow (ok : Bool) (hpos : 0 < base.toNat)
    (hfits : base.toNat ^ power.toNat < 2 ^ 64) :
    signedValue (powInteger base power) (ok || power &&& 1 == 0) =
      signedValue base ok ^ power.toNat := by
  have hval := (powProducts_spec hpos hfits).1
  have hparity : (power &&& 1 == 0) = decide (power.toNat % 2 = 0) := by
    rw [beq_eq_decide, decide_eq_decide, ← UInt64.toNat_inj, UInt64.toNat_and]
    exact Nat.and_one_is_mod power.toNat ▸ Iff.rfl
  rw [hparity]
  cases ok with
  | true => simp [signedValue, hval]
  | false =>
    by_cases heven : power.toNat % 2 = 0
    · have hpow := (Nat.even_iff.2 heven).neg_pow (base.toNat : Int)
      simp [signedValue, hval, heven, hpow]
    · have hodd : Odd power.toNat := Nat.odd_iff.2 (by omega)
      simp [signedValue, hval, heven, hodd.neg_pow]

theorem storeSigned_pow (f : Floats NV) (targ : Targ)
    (htwo : isTwoPower base ≠ true) (hbits : power.toNat * base.toNat.size ≤ 64)
    (hok : ok = false → base.toNat ≤ 2 ^ 63) :
    storeSigned f targ (powInteger base power) (ok || power &&& 1 == 0) =
      some (Value.ofInt (signedValue base ok ^ power.toNat)) := by
  have hpos : 0 < base.toNat := by
    rcases Nat.eq_zero_or_pos base.toNat with h | h
    · exact absurd (isTwoPower_iff.2 (Or.inl (UInt64.toNat_inj.1 h))) htwo
    · exact h
  have hpow := pow_lt_of_bits hbits
  have hval := (powProducts_spec hpos hpow).1
  have hfits : FitsWord (signedValue (powInteger base power) (ok || power &&& 1 == 0)) := by
    have hlt := (powInteger base power).toNat_lt
    rw [signedValue]
    split_ifs with hsign
    · constructor <;> omega
    · obtain ⟨rfl, heven⟩ := Bool.or_eq_false_iff.1 (Bool.eq_false_iff.2 hsign)
      have hodd : power.toNat % 2 = 1 := by
        rw [beq_eq_false_iff_ne, ne_eq, ← UInt64.toNat_inj, UInt64.toNat_and] at heven
        have hmod : power.toNat &&& (1 : UInt64).toNat = power.toNat % 2 :=
          Nat.and_one_is_mod power.toNat
        have hzero : (0 : UInt64).toNat = 0 := rfl
        omega
      -- 2 ** 63 is a power of two, so that a negative base is above the least IV
      have hne : base.toNat ≠ 2 ^ 63 := fun h => htwo (isTwoPower_iff.2 (Or.inr ⟨63, h⟩))
      have hsmall := odd_pow_lt hbits hodd (by have := hok rfl; omega)
      constructor <;> omega
  rw [storeSigned_spec, if_pos hfits, signedValue_pow ok hpos hpow]

theorem ppPow_integers (f : Floats NV) (p : Powers NV) (targ : Targ) {svl svr : Sv NV}
    (hl : svl.iok = true) (hr : svr.iok = true)
    (hexp : powExponent svr = some power) (hbase : powBase svl = (base, ok)) :
    ppPow f p targ svl svr =
      if isTwoPower base then some (.twos, .nv (powTwos f p base ok power))
      else if powFits base power then
        (storeSigned f targ (powInteger base power) (ok || power &&& 1 == 0)).map
          fun value => (.integer, value)
      else some (.float, .nv (p.pow (f.svNV svl) (f.svNV svr))) := by
  simp only [ppPow, svIVPleaseNomg_iok, hl, hr, hexp, hbase, if_true]
  cases storeSigned f targ (powInteger base power) (ok || power &&& 1 == 0) <;> rfl

end XPerl.Numeric
