import XPerl.Rng.Replay

/-! The portable wide products are those of 128-bit arithmetic. -/

namespace XPerl.Rng

def sumChecked (x y : BitVec 64) : Option (BitVec 64) :=
  if x.toNat + y.toNat < 18446744073709551616 then some (x + y) else none

def productChecked (x y : BitVec 64) : Option (BitVec 64) :=
  if x.toNat * y.toNat < 18446744073709551616 then some (x * y) else none

/-- `pcg_multiply_wide_u64`, nothing where one of its sums or products wraps. -/
def pcgMultiplyWideU64Checked (left right : BitVec 64) : Option (BitVec 64 × BitVec 64) := do
  let leftLow := (left.setWidth 32).setWidth 64
  let leftHigh := left >>> 32
  let rightLow := (right.setWidth 32).setWidth 64
  let rightHigh := right >>> 32
  let lowProduct ← productChecked leftLow rightLow
  let crossLeft ← productChecked leftLow rightHigh
  let crossRight ← productChecked leftHigh rightLow
  let middle ← sumChecked (lowProduct >>> 32) ((crossLeft.setWidth 32).setWidth 64)
  let middle ← sumChecked middle ((crossRight.setWidth 32).setWidth 64)
  let high ← productChecked leftHigh rightHigh
  let high ← sumChecked high (crossLeft >>> 32)
  let high ← sumChecked high (crossRight >>> 32)
  let high ← sumChecked high (middle >>> 32)
  some (high, middle <<< 32 ||| (lowProduct.setWidth 32).setWidth 64)

/-- `wyrand_mum`, nothing where one of its sums or products wraps. -/
def wyrandMumChecked (left right : BitVec 64) : Option (BitVec 64) := do
  let leftHi := left >>> 32
  let leftLo := (left.setWidth 32).setWidth 64
  let rightHi := right >>> 32
  let rightLo := (right.setWidth 32).setWidth 64
  let product ← productChecked leftLo rightLo
  let lowWord := (product.setWidth 32).setWidth 64
  let carry := product >>> 32
  let cross ← productChecked leftHi rightLo
  let middle ← sumChecked cross carry
  let high := middle >>> 32
  let middleWord := (middle.setWidth 32).setWidth 64
  let cross ← productChecked leftLo rightHi
  let middle ← sumChecked cross middleWord
  let carry := middle >>> 32
  let top ← productChecked leftHi rightHi
  let top ← sumChecked top carry
  let high ← sumChecked high top
  let product ← sumChecked (middle <<< 32) lowWord
  some (high ^^^ product)

variable {x y : BitVec 64}

theorem sumChecked_eq (h : x.toNat + y.toNat < 18446744073709551616) :
    sumChecked x y = some (x + y) := if_pos h

theorem productChecked_eq (h : x.toNat * y.toNat < 18446744073709551616) :
    productChecked x y = some (x * y) := if_pos h

theorem toNat_sum (h : x.toNat + y.toNat < 18446744073709551616) :
    (x + y).toNat = x.toNat + y.toNat := by
  rw [BitVec.toNat_add]
  exact Nat.mod_eq_of_lt h

theorem toNat_lowHalf_le (x : BitVec 64) :
    ((x.setWidth 32).setWidth 64).toNat ≤ 4294967295 := by
  rw [toNat_lowHalf]
  omega

theorem toNat_highHalf_le (x : BitVec 64) : (x >>> 32).toNat ≤ 4294967295 := by
  have hx := x.isLt
  rw [toNat_highHalf]
  omega

theorem productChecked_halves (hx : x.toNat ≤ 4294967295)
    (hy : y.toNat ≤ 4294967295) : productChecked x y = some (x * y) := by
  obtain ⟨-, hle⟩ := toNat_mul_halves hx hy
  exact productChecked_eq (by omega)

theorem toNat_mulAdd {z : BitVec 64} (hx : x.toNat ≤ 4294967295) (hy : y.toNat ≤ 4294967295)
    (hz : z.toNat ≤ 4294967295) :
    (x * y).toNat + z.toNat < 18446744073709551616 ∧
      (x * y + z).toNat = x.toNat * y.toNat + z.toNat := by
  obtain ⟨hproduct, hle⟩ := toNat_mul_halves hx hy
  have hlt : (x * y).toNat + z.toNat < 18446744073709551616 := by omega
  refine ⟨hlt, ?_⟩
  rw [toNat_sum hlt, hproduct]

theorem toNat_middle {lowProduct : BitVec 64} (crossLeft crossRight : BitVec 64)
    (hlow : lowProduct.toNat ≤ 18446744065119617025) :
    (lowProduct >>> 32).toNat + ((crossLeft.setWidth 32).setWidth 64).toNat <
        18446744073709551616 ∧
      (lowProduct >>> 32 + (crossLeft.setWidth 32).setWidth 64).toNat +
        ((crossRight.setWidth 32).setWidth 64).toNat < 18446744073709551616 ∧
      ((lowProduct >>> 32 + (crossLeft.setWidth 32).setWidth 64 +
        (crossRight.setWidth 32).setWidth 64) >>> 32).toNat ≤ 2 := by
  have hcrossLeft := toNat_lowHalf_le crossLeft
  have hcrossRight := toNat_lowHalf_le crossRight
  have htop : (lowProduct >>> 32).toNat ≤ 4294967294 := by
    rw [toNat_highHalf]
    omega
  have hfirst : (lowProduct >>> 32).toNat + ((crossLeft.setWidth 32).setWidth 64).toNat <
      18446744073709551616 := by omega
  have hsecond : (lowProduct >>> 32 + (crossLeft.setWidth 32).setWidth 64).toNat +
      ((crossRight.setWidth 32).setWidth 64).toNat < 18446744073709551616 := by
    rw [toNat_sum hfirst]
    omega
  refine ⟨hfirst, hsecond, ?_⟩
  rw [toNat_highHalf, toNat_sum hsecond, toNat_sum hfirst]
  omega

theorem pcgMultiplyWideU64Checked_eq (left right : BitVec 64) :
    pcgMultiplyWideU64Checked left right = some (pcgMultiplyWideU64 left right) := by
  have hll := toNat_lowHalf_le left
  have hlh := toNat_highHalf_le left
  have hrl := toNat_lowHalf_le right
  have hrh := toNat_highHalf_le right
  obtain ⟨hlow, hlow'⟩ := toNat_mul_halves hll hrl
  obtain ⟨hcrossLeft, hcrossLeft'⟩ := toNat_mul_halves hll hrh
  obtain ⟨hcrossRight, hcrossRight'⟩ := toNat_mul_halves hlh hrl
  obtain ⟨hhigh, hhigh'⟩ := toNat_mul_halves hlh hrh
  rw [← hlow] at hlow'
  rw [← hcrossLeft] at hcrossLeft'
  rw [← hcrossRight] at hcrossRight'
  rw [← hhigh] at hhigh'
  rw [pcgMultiplyWideU64, pcgMultiplyWideU64Checked]
  simp only [productChecked_halves hll hrl, productChecked_halves hll hrh,
    productChecked_halves hlh hrl, productChecked_halves hlh hrh, Option.bind_eq_bind,
    Option.bind_some]
  generalize (left.setWidth 32).setWidth 64 * (right.setWidth 32).setWidth 64 = lowProduct
    at hlow' ⊢
  generalize (left.setWidth 32).setWidth 64 * right >>> 32 = crossLeft at hcrossLeft' ⊢
  generalize left >>> 32 * (right.setWidth 32).setWidth 64 = crossRight at hcrossRight' ⊢
  generalize left >>> 32 * right >>> 32 = highProduct at hhigh' ⊢
  obtain ⟨hfirst, hsecond, hcarry⟩ := toNat_middle crossLeft crossRight hlow'
  simp only [sumChecked_eq hfirst, sumChecked_eq hsecond, Option.bind_some]
  generalize lowProduct >>> 32 + (crossLeft.setWidth 32).setWidth 64 +
    (crossRight.setWidth 32).setWidth 64 = middle at hcarry ⊢
  -- the high half stays below `2 ^ 64` by one
  have htopLeft : (crossLeft >>> 32).toNat ≤ 4294967294 := by
    rw [toNat_highHalf]
    omega
  have htopRight : (crossRight >>> 32).toNat ≤ 4294967294 := by
    rw [toNat_highHalf]
    omega
  have hsumLeft : highProduct.toNat + (crossLeft >>> 32).toNat < 18446744073709551616 := by omega
  have hsumRight : (highProduct + crossLeft >>> 32).toNat + (crossRight >>> 32).toNat <
      18446744073709551616 := by
    rw [toNat_sum hsumLeft]
    omega
  have hsum : (highProduct + crossLeft >>> 32 + crossRight >>> 32).toNat +
      (middle >>> 32).toNat < 18446744073709551616 := by
    rw [toNat_sum hsumRight, toNat_sum hsumLeft]
    omega
  simp only [sumChecked_eq hsumLeft, sumChecked_eq hsumRight, sumChecked_eq hsum,
    Option.bind_some]

theorem toNat_pcgMultiplyWideU64 (left right : BitVec 64) :
    (pcgMultiplyWideU64 left right).1.toNat = left.toNat * right.toNat / 18446744073709551616 ∧
      (pcgMultiplyWideU64 left right).2.toNat =
        left.toNat * right.toNat % 18446744073709551616 := by
  have hspec := pcgMultiplyWideU64_spec left right
  have hlow := (pcgMultiplyWideU64 left right).2.isLt
  omega

theorem toNat_stepMcgWords (value : PcgXslRrData) :
    (pcgXslRrStepMcgWords value).word.toNat = value.word.toNat * pcg128Multiplier.toNat %
      340282366920938463463374607431768211456 := by
  rw [pcgXslRrStepMcgWords_eq, word_stepMcg, BitVec.toNat_mul]

theorem toNat_stepLcgWords (value : PcgXslRrData) :
    (pcgXslRrStepLcgWords value).word.toNat =
      (value.word.toNat * pcg128Multiplier.toNat + value.increment.toNat) %
        340282366920938463463374607431768211456 := by
  rw [pcgXslRrStepLcgWords_eq, word_stepLcg, BitVec.toNat_add, BitVec.toNat_mul,
    Nat.mod_add_mod]

theorem wyrandMumChecked_spec (left right : BitVec 64) :
    wyrandMumChecked left right = some (wyrandMum left right) ∧
      ∃ high low : BitVec 64, wyrandMum left right = high ^^^ low ∧
        high.toNat * 18446744073709551616 + low.toNat = left.toNat * right.toNat := by
  have hll := toNat_lowHalf_le left
  have hlh := toNat_highHalf_le left
  have hrl := toNat_lowHalf_le right
  have hrh := toNat_highHalf_le right
  have hleft : left.toNat = (left >>> 32).toNat * 4294967296 +
      ((left.setWidth 32).setWidth 64).toNat := by
    rw [toNat_highHalf, toNat_lowHalf]
    omega
  have hright : right.toNat = (right >>> 32).toNat * 4294967296 +
      ((right.setWidth 32).setWidth 64).toNat := by
    rw [toNat_highHalf, toNat_lowHalf]
    omega
  rw [wyrandMum, wyrandMumChecked]
  dsimp only
  generalize (left.setWidth 32).setWidth 64 = leftLo at hll hleft ⊢
  generalize left >>> 32 = leftHi at hlh hleft ⊢
  generalize (right.setWidth 32).setWidth 64 = rightLo at hrl hright ⊢
  generalize right >>> 32 = rightHi at hrh hright ⊢
  obtain ⟨hproduct, hproduct'⟩ := toNat_mul_halves hll hrl
  have hcarry := toNat_highHalf_le (leftLo * rightLo)
  obtain ⟨hsum, hmiddle⟩ := toNat_mulAdd hlh hrl hcarry
  have hword := toNat_lowHalf_le (leftHi * rightLo + (leftLo * rightLo) >>> 32)
  obtain ⟨hsum', hmiddle'⟩ := toNat_mulAdd hll hrh hword
  have hcarry' := toNat_highHalf_le (leftLo * rightHi +
    ((leftHi * rightLo + (leftLo * rightLo) >>> 32).setWidth 32).setWidth 64)
  obtain ⟨htop, htop'⟩ := toNat_mulAdd hlh hrh hcarry'
  obtain ⟨-, hhigh⟩ := toNat_mul_halves hlh hrh
  simp only [productChecked_halves hll hrl, productChecked_halves hlh hrl,
    productChecked_halves hll hrh, productChecked_halves hlh hrh, sumChecked_eq hsum,
    sumChecked_eq hsum', sumChecked_eq htop, Option.bind_eq_bind, Option.bind_some]
  -- the two cross products, with what is left of the lower words
  have hcross : leftLo.toNat * rightLo.toNat = (leftLo * rightLo).toNat := hproduct.symm
  generalize leftLo * rightLo = product at *
  generalize leftHi * rightLo + product >>> 32 = middle at *
  generalize leftLo * rightHi + (middle.setWidth 32).setWidth 64 = middle' at *
  generalize leftHi * rightHi + middle' >>> 32 = top at *
  have hhighSum : (middle >>> 32).toNat + top.toNat < 18446744073709551616 := by
    have hmiddleHigh := toNat_highHalf_le middle
    omega
  have hshift : (middle' <<< 32).toNat = middle'.toNat % 4294967296 * 4294967296 := by
    rw [BitVec.toNat_shiftLeft, Nat.shiftLeft_eq]
    omega
  have hlowSum : (middle' <<< 32).toNat + ((product.setWidth 32).setWidth 64).toNat <
      18446744073709551616 := by
    have hlow := toNat_lowHalf_le product
    omega
  simp only [sumChecked_eq hhighSum, sumChecked_eq hlowSum, Option.bind_some]
  refine ⟨trivial, _, _, rfl, ?_⟩
  have hexpand : left.toNat * right.toNat = leftHi.toNat * rightHi.toNat * 18446744073709551616 +
      (leftHi.toNat * rightLo.toNat + leftLo.toNat * rightHi.toNat) * 4294967296 +
      leftLo.toNat * rightLo.toNat := by
    rw [hleft, hright]
    ring
  rw [hexpand, toNat_sum hhighSum, toNat_sum hlowSum, hshift, htop']
  rw [toNat_highHalf] at hmiddle ⊢
  rw [toNat_lowHalf] at hmiddle' ⊢
  rw [toNat_highHalf]
  omega

theorem wyrandMum_eq (left right : BitVec 64) :
    wyrandMum left right =
      BitVec.ofNat 64 (left.toNat * right.toNat / 18446744073709551616) ^^^
        BitVec.ofNat 64 (left.toNat * right.toNat % 18446744073709551616) := by
  obtain ⟨-, high, low, hmum, hproduct⟩ := wyrandMumChecked_spec left right
  have hlow := low.isLt
  have hhigh : left.toNat * right.toNat / 18446744073709551616 = high.toNat := by omega
  have hrest : left.toNat * right.toNat % 18446744073709551616 = low.toNat := by omega
  rw [hmum, hhigh, hrest, BitVec.ofNat_toNat, BitVec.ofNat_toNat, BitVec.setWidth_eq,
    BitVec.setWidth_eq]

/-- The portable wide multiplications are those of 128-bit integers. -/
theorem portable_wide_multiplication (left right : BitVec 64) (value : PcgXslRrData) :
    (pcgMultiplyWideU64 left right).1.toNat = left.toNat * right.toNat / 2 ^ 64 ∧
      (pcgMultiplyWideU64 left right).2.toNat = left.toNat * right.toNat % 2 ^ 64 ∧
      pcgXslRrStepMcgWords value = pcgXslRrStepMcg value ∧
      (pcgXslRrStepMcgWords value).word.toNat =
        value.word.toNat * pcg128Multiplier.toNat % 2 ^ 128 ∧
      pcgXslRrStepLcgWords value = pcgXslRrStepLcg value ∧
      (pcgXslRrStepLcgWords value).word.toNat =
        (value.word.toNat * pcg128Multiplier.toNat + value.increment.toNat) % 2 ^ 128 ∧
      wyrandMum left right =
        BitVec.ofNat 64 (left.toNat * right.toNat / 2 ^ 64) ^^^
          BitVec.ofNat 64 (left.toNat * right.toNat % 2 ^ 64) ∧
      pcgMultiplyWideU64Checked left right = some (pcgMultiplyWideU64 left right) ∧
      wyrandMumChecked left right = some (wyrandMum left right) :=
  ⟨(toNat_pcgMultiplyWideU64 left right).1, (toNat_pcgMultiplyWideU64 left right).2,
    pcgXslRrStepMcgWords_eq value, toNat_stepMcgWords value, pcgXslRrStepLcgWords_eq value,
    toNat_stepLcgWords value, wyrandMum_eq left right, pcgMultiplyWideU64Checked_eq left right,
    (wyrandMumChecked_spec left right).1⟩

end XPerl.Rng
