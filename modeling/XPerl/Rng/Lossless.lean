import XPerl.Framework.Congruential
import XPerl.Rng.Pcg

/-! No generator loses state or reaches a degenerate one. -/

namespace XPerl.Rng

open Function XPerl.Framework.Congruential XPerl.Framework.Scrambling BitVec

theorem pcgRxsMXsOutput_injective : Injective pcgRxsMXsOutput := by
  intro x y h
  have hinverse : pcgRxsMXsMultiplier * 15009553638781119849 = 1 := by decide
  have hword := xor_shiftRight_injective (show 0 < 43 by decide) h
  have hmixed := mul_injective hinverse hword
  let choice (top : BitVec 64) : Nat := (top + 5).toNat
  have hchoice (z : BitVec 64) : 0 < choice (z >>> 59) ∧ 64 ≤ choice (z >>> 59) + 59 := by
    have hlt : (z >>> 59).toNat < 32 := by
      rw [toNat_ushiftRight, Nat.shiftRight_eq_div_pow]
      have hz := z.isLt
      omega
    have hadd : choice (z >>> 59) = (z >>> 59).toNat + 5 := by
      have hfive : (5 : BitVec 64).toNat = 5 := rfl
      rw [show choice (z >>> 59) = (z >>> 59 + 5).toNat from rfl, toNat_add, hfive]
      exact Nat.mod_eq_of_lt (by omega)
    omega
  exact xor_choice_injective hchoice hmixed

theorem toNat_pcgU128 (high low : BitVec 64) :
    (pcgU128 high low).toNat = high.toNat * 18446744073709551616 + low.toNat := by
  have hhigh := high.isLt
  have hlow := low.isLt
  have hshift : (high.setWidth 128 <<< 64).toNat = high.toNat <<< 64 := by
    rw [toNat_shiftLeft, toNat_setWidth_of_le (by decide), Nat.shiftLeft_eq]
    exact Nat.mod_eq_of_lt (by omega)
  rw [pcgU128, toNat_or, hshift, toNat_setWidth_of_le (by decide),
    ← Nat.shiftLeft_add_eq_or_of_lt hlow, Nat.shiftLeft_eq]

theorem pcgU128_halves (state : BitVec 128) :
    pcgU128 ((state >>> 64).setWidth 64) (state.setWidth 64) = state := by
  have hstate := state.isLt
  apply eq_of_toNat_eq
  rw [toNat_pcgU128, toNat_setWidth, toNat_setWidth, toNat_ushiftRight,
    Nat.shiftRight_eq_div_pow]
  omega

theorem pcgU128_inj {high low high' low' : BitVec 64} (h : pcgU128 high low = pcgU128 high' low') :
    high = high' ∧ low = low' := by
  have hnat := congrArg BitVec.toNat h
  rw [toNat_pcgU128, toNat_pcgU128] at hnat
  have hlow := low.isLt
  have hlow' := low'.isLt
  exact ⟨eq_of_toNat_eq (by omega), eq_of_toNat_eq (by omega)⟩

/-- The state as one number. -/
def PcgXslRrData.word (value : PcgXslRrData) : BitVec 128 := pcgU128 value.stateHi value.stateLo

def pcg128Multiplier : BitVec 128 := pcgU128 pcg128MultiplierHi pcg128MultiplierLo

def PcgXslRrData.increment (value : PcgXslRrData) : BitVec 128 :=
  pcgU128 value.incrementHi value.incrementLo

theorem ext_of_word {v w : PcgXslRrData} (hword : v.word = w.word)
    (hincrement : v.increment = w.increment) : v = w := by
  obtain ⟨hhigh, hlow⟩ := pcgU128_inj hword
  obtain ⟨hincrementHi, hincrementLo⟩ := pcgU128_inj hincrement
  exact PcgXslRrData.ext hhigh hlow hincrementHi hincrementLo

theorem word_stepMcg (value : PcgXslRrData) :
    (pcgXslRrStepMcg value).word = value.word * pcg128Multiplier := pcgU128_halves _

theorem word_stepLcg (value : PcgXslRrData) :
    (pcgXslRrStepLcg value).word = value.word * pcg128Multiplier + value.increment :=
  pcgU128_halves _

def PcgXslRrData.withWord (value : PcgXslRrData) (word : BitVec 128) : PcgXslRrData :=
  { value with stateHi := (word >>> 64).setWidth 64, stateLo := word.setWidth 64 }

theorem word_withWord (value : PcgXslRrData) (word : BitVec 128) :
    (value.withWord word).word = word := pcgU128_halves word

theorem toNat_lowHalf (x : BitVec 64) :
    ((x.setWidth 32).setWidth 64).toNat = x.toNat % 4294967296 := by
  rw [toNat_setWidth_of_le (by decide), toNat_setWidth]

theorem toNat_highHalf (x : BitVec 64) : (x >>> 32).toNat = x.toNat / 4294967296 := by
  rw [toNat_ushiftRight, Nat.shiftRight_eq_div_pow]

theorem toNat_mul_halves {x y : BitVec 64} (hx : x.toNat ≤ 4294967295)
    (hy : y.toNat ≤ 4294967295) :
    (x * y).toNat = x.toNat * y.toNat ∧ x.toNat * y.toNat ≤ 18446744065119617025 := by
  have hle : x.toNat * y.toNat ≤ 4294967295 * 4294967295 := Nat.mul_le_mul hx hy
  rw [toNat_mul]
  constructor
  · exact Nat.mod_eq_of_lt (by omega)
  · omega

theorem toNat_joinHalves (x y : BitVec 64) :
    (x <<< 32 ||| (y.setWidth 32).setWidth 64).toNat =
      x.toNat % 4294967296 * 4294967296 + y.toNat % 4294967296 := by
  have hlow : y.toNat % 4294967296 < 2 ^ 32 := Nat.mod_lt _ (by decide)
  have hshift : (x <<< 32).toNat = (x.toNat % 4294967296) <<< 32 := by
    rw [toNat_shiftLeft, Nat.shiftLeft_eq, Nat.shiftLeft_eq]
    omega
  rw [toNat_or, hshift, toNat_lowHalf, ← Nat.shiftLeft_add_eq_or_of_lt hlow,
    Nat.shiftLeft_eq]

theorem pcgMultiplyWideU64_spec (left right : BitVec 64) :
    (pcgMultiplyWideU64 left right).1.toNat * 18446744073709551616 +
      (pcgMultiplyWideU64 left right).2.toNat = left.toNat * right.toNat := by
  rw [pcgMultiplyWideU64]
  dsimp only
  have hbound (x : BitVec 64) : x.toNat % 4294967296 ≤ 4294967295 ∧
      x.toNat / 4294967296 ≤ 4294967295 ∧
      x.toNat = x.toNat / 4294967296 * 4294967296 + x.toNat % 4294967296 := by
    have hx := x.isLt
    omega
  obtain ⟨hll, hlh, hleft⟩ := hbound left
  obtain ⟨hrl, hrh, hright⟩ := hbound right
  rw [← toNat_lowHalf] at hll hrl hleft hright
  rw [← toNat_highHalf] at hlh hrh hleft hright
  generalize (left.setWidth 32).setWidth 64 = leftLow at hll hleft ⊢
  generalize left >>> 32 = leftHigh at hlh hleft ⊢
  generalize (right.setWidth 32).setWidth 64 = rightLow at hrl hright ⊢
  generalize right >>> 32 = rightHigh at hrh hright ⊢
  obtain ⟨hlow, hlow'⟩ := toNat_mul_halves hll hrl
  obtain ⟨hcrossLeft, hcrossLeft'⟩ := toNat_mul_halves hll hrh
  obtain ⟨hcrossRight, hcrossRight'⟩ := toNat_mul_halves hlh hrl
  obtain ⟨hhigh, hhigh'⟩ := toNat_mul_halves hlh hrh
  have hproduct : left.toNat * right.toNat = leftHigh.toNat * rightHigh.toNat *
      18446744073709551616 + (leftLow.toNat * rightHigh.toNat + leftHigh.toNat * rightLow.toNat) *
      4294967296 + leftLow.toNat * rightLow.toNat := by
    rw [hleft, hright]
    ring
  have hfits : left.toNat * right.toNat < 340282366920938463463374607431768211456 := by
    have hle := Nat.mul_le_mul (Nat.le_of_lt_succ left.isLt) (Nat.le_of_lt_succ right.isLt)
    omega
  rw [← hlow] at hlow' hproduct
  rw [← hcrossLeft] at hcrossLeft' hproduct
  rw [← hcrossRight] at hcrossRight' hproduct
  rw [← hhigh] at hhigh' hproduct
  generalize leftLow * rightLow = lowProduct at hlow' hproduct ⊢
  generalize leftLow * rightHigh = crossLeft at hcrossLeft' hproduct ⊢
  generalize leftHigh * rightLow = crossRight at hcrossRight' hproduct ⊢
  generalize leftHigh * rightHigh = highProduct at hhigh' hproduct ⊢
  have hmiddle : (lowProduct >>> 32 + (crossLeft.setWidth 32).setWidth 64 +
      (crossRight.setWidth 32).setWidth 64).toNat = lowProduct.toNat / 4294967296 +
      crossLeft.toNat % 4294967296 + crossRight.toNat % 4294967296 := by
    rw [toNat_add, toNat_add, toNat_highHalf, toNat_lowHalf, toNat_lowHalf]
    omega
  generalize lowProduct >>> 32 + (crossLeft.setWidth 32).setWidth 64 +
    (crossRight.setWidth 32).setWidth 64 = middle at hmiddle ⊢
  rw [toNat_joinHalves, toNat_add, toNat_add, toNat_add, toNat_highHalf,
    toNat_highHalf, toNat_highHalf]
  omega

theorem mod_double (outer c l : Nat) (hl : l < 18446744073709551616) :
    c % 18446744073709551616 * 18446744073709551616 + l =
      (outer * 340282366920938463463374607431768211456 + c * 18446744073709551616 + l) %
        340282366920938463463374607431768211456 := by
  omega

theorem pcgU128_mul (high low high' low' : BitVec 64) :
    pcgU128 ((pcgMultiplyWideU64 low low').1 + high * low' + low * high')
        (pcgMultiplyWideU64 low low').2 =
      pcgU128 high low * pcgU128 high' low' := by
  have hproduct := pcgMultiplyWideU64_spec low low'
  generalize (pcgMultiplyWideU64 low low').1 = productHigh at hproduct ⊢
  generalize (pcgMultiplyWideU64 low low').2 = productLow at hproduct ⊢
  have hexpand : (high.toNat * 18446744073709551616 + low.toNat) *
      (high'.toNat * 18446744073709551616 + low'.toNat) =
      high.toNat * high'.toNat * 340282366920938463463374607431768211456 +
      (productHigh.toNat + high.toNat * low'.toNat + low.toNat * high'.toNat) *
      18446744073709551616 + productLow.toNat := by
    calc
      _ = high.toNat * high'.toNat * 340282366920938463463374607431768211456 +
          (high.toNat * low'.toNat + low.toNat * high'.toNat) * 18446744073709551616 +
          low.toNat * low'.toNat := by ring
      _ = _ := by
        rw [← hproduct]
        ring
  have hsum : (productHigh + high * low' + low * high').toNat =
      (productHigh.toNat + high.toNat * low'.toNat + low.toNat * high'.toNat) %
        18446744073709551616 := by
    rw [toNat_add, toNat_add, toNat_mul, toNat_mul, Nat.add_mod_mod,
      Nat.mod_add_mod, Nat.add_right_comm productHigh.toNat, Nat.add_mod_mod]
    congr 1
    exact Nat.add_right_comm _ _ _
  apply eq_of_toNat_eq
  rw [toNat_mul, toNat_pcgU128, toNat_pcgU128, toNat_pcgU128, hexpand, hsum]
  exact mod_double _ _ _ productLow.isLt

theorem pcgU128_add (high low high' low' : BitVec 64) :
    pcgU128 (high + high' + if low + low' < low then 1 else 0) (low + low') =
      pcgU128 high low + pcgU128 high' low' := by
  have hlow := low.isLt
  have hlow' := low'.isLt
  have hone : (1 : BitVec 64).toNat = 1 := rfl
  have hzero : (0 : BitVec 64).toNat = 0 := rfl
  apply eq_of_toNat_eq
  rw [toNat_add, toNat_pcgU128, toNat_pcgU128, toNat_pcgU128, toNat_add,
    toNat_add, toNat_add]
  by_cases hcarry : low + low' < low
  · have hwrapped := BitVec.lt_def.1 hcarry
    rw [toNat_add] at hwrapped
    rw [if_pos hcarry, hone]
    omega
  · have hwhole := mt BitVec.lt_def.2 hcarry
    rw [toNat_add] at hwhole
    rw [if_neg hcarry, hzero]
    omega

theorem increment_stepMcg (value : PcgXslRrData) :
    (pcgXslRrStepMcg value).increment = value.increment := by
  rw [PcgXslRrData.increment, pcgXslRrStepMcg, PcgXslRrData.increment]

theorem increment_stepLcg (value : PcgXslRrData) :
    (pcgXslRrStepLcg value).increment = value.increment := by
  rw [PcgXslRrData.increment, pcgXslRrStepLcg, PcgXslRrData.increment]

theorem pcgXslRrStepMcgWords_eq (value : PcgXslRrData) :
    pcgXslRrStepMcgWords value = pcgXslRrStepMcg value := by
  apply ext_of_word
  · rw [word_stepMcg, PcgXslRrData.word, PcgXslRrData.word, pcg128Multiplier, ← pcgU128_mul,
      pcgXslRrStepMcgWords]
  · rw [increment_stepMcg, PcgXslRrData.increment, pcgXslRrStepMcgWords, PcgXslRrData.increment]

theorem pcgXslRrStepLcgWords_eq (value : PcgXslRrData) :
    pcgXslRrStepLcgWords value = pcgXslRrStepLcg value := by
  apply ext_of_word
  · rw [word_stepLcg, PcgXslRrData.word, PcgXslRrData.word, pcg128Multiplier, ← pcgU128_mul,
      PcgXslRrData.increment, ← pcgU128_add, pcgXslRrStepLcgWords]
  · rw [increment_stepLcg, PcgXslRrData.increment, pcgXslRrStepLcgWords, PcgXslRrData.increment]

theorem pcg128Multiplier_inverse :
    pcg128Multiplier * 10455382779074951524300553632856583309 = 1 := by
  decide

theorem word_odd_iff (value : PcgXslRrData) :
    value.word.toNat % 2 = 1 ↔ value.stateLo.toNat % 2 = 1 := by
  rw [PcgXslRrData.word, toNat_pcgU128]
  omega

theorem mul_odd {x y : BitVec 128} (hx : x.toNat % 2 = 1) (hy : y.toNat % 2 = 1) :
    (x * y).toNat % 2 = 1 := by
  rw [toNat_mul, Nat.mod_mod_of_dvd _ (by decide), Nat.mul_mod, hx, hy]

theorem stepMcg_odd {value : PcgXslRrData} (h : value.stateLo.toNat % 2 = 1) :
    (pcgXslRrStepMcg value).stateLo.toNat % 2 = 1 := by
  rw [← word_odd_iff, word_stepMcg]
  exact mul_odd ((word_odd_iff value).2 h) (by decide)

theorem stepMcg_injective : Injective pcgXslRrStepMcg := by
  intro v w h
  apply ext_of_word
  · apply mul_injective pcg128Multiplier_inverse
    dsimp only
    rw [← word_stepMcg, ← word_stepMcg, h]
  · rw [← increment_stepMcg v, ← increment_stepMcg w, h]

theorem stepLcg_injective : Injective pcgXslRrStepLcg := by
  intro v w h
  have hincrement : v.increment = w.increment := by
    rw [← increment_stepLcg v, ← increment_stepLcg w, h]
  apply ext_of_word _ hincrement
  apply mul_injective pcg128Multiplier_inverse
  have hwords : v.word * pcg128Multiplier + v.increment = w.word * pcg128Multiplier + v.increment := by
    rw [← word_stepLcg, h, word_stepLcg, hincrement]
  exact add_right_cancel hwords

theorem increment_withWord (value : PcgXslRrData) (word : BitVec 128) :
    (value.withWord word).increment = value.increment := by
  rw [PcgXslRrData.increment, PcgXslRrData.withWord, PcgXslRrData.increment]

theorem stepMcg_bijOn :
    Set.BijOn pcgXslRrStepMcg {v | v.stateLo.toNat % 2 = 1} {v | v.stateLo.toNat % 2 = 1} := by
  refine ⟨fun v hv => stepMcg_odd hv, stepMcg_injective.injOn, ?_⟩
  intro v hv
  refine ⟨v.withWord (v.word * 10455382779074951524300553632856583309), ?_, ?_⟩
  · apply (word_odd_iff _).1
    rw [word_withWord]
    exact mul_odd ((word_odd_iff v).2 hv) (by decide)
  · apply ext_of_word
    · rw [word_stepMcg, word_withWord, mul_assoc,
        mul_comm _ pcg128Multiplier, pcg128Multiplier_inverse, mul_one]
    · rw [increment_stepMcg, increment_withWord]

theorem stepLcg_bijOn (increment : BitVec 128) :
    Set.BijOn pcgXslRrStepLcg {v | v.increment = increment} {v | v.increment = increment} := by
  refine ⟨fun v hv => (increment_stepLcg v).trans hv, stepLcg_injective.injOn, ?_⟩
  intro v hv
  refine ⟨v.withWord ((v.word - increment) * 10455382779074951524300553632856583309), ?_, ?_⟩
  · exact (increment_withWord v _).trans hv
  · apply ext_of_word
    · rw [word_stepLcg, word_withWord, increment_withWord, hv, mul_assoc,
        mul_comm _ pcg128Multiplier, pcg128Multiplier_inverse, mul_one, sub_add_cancel]
    · rw [increment_stepLcg, increment_withWord]

theorem or_one_odd (x : BitVec 64) : (x ||| 1).toNat % 2 = 1 := by
  rw [toNat_or, Nat.or_mod_two_eq_one]
  exact Or.inr rfl

theorem loadRawSeed_odd (value : PcgXslRrData) (seedBytes : List Octet) :
    (pcgXslRrLoadRawSeed true value seedBytes).stateLo.toNat % 2 = 1 :=
  or_one_odd (u8to64Le seedBytes 0)

theorem loadRawSeed_increment_odd (value : PcgXslRrData) (seedBytes : List Octet) :
    (pcgXslRrLoadRawSeed false value seedBytes).increment.toNat % 2 = 1 := by
  have hlow := or_one_odd (u8to64Le seedBytes 16)
  rw [PcgXslRrData.increment, toNat_pcgU128, pcgXslRrLoadRawSeed]
  simp only [Bool.false_eq_true, if_false]
  omega

theorem pcgRxsMXsOutput_bijective : Bijective pcgRxsMXsOutput :=
  Finite.injective_iff_bijective.1 pcgRxsMXsOutput_injective

theorem iterate_pcgRxsMXs (value : PcgRxsMXsData) (n : Nat) :
    ((fun v => (pcgRxsMXsNext v).1)^[n] value).state =
      (fun y => pcg64Multiplier * y + pcg64Increment)^[n] value.state := by
  induction n with
  | zero => rfl
  | succ n ih =>
    rw [iterate_succ_apply', iterate_succ_apply', ← ih, pcgRxsMXsNext, mul_comm]

/-- No generator reaches a degenerate state and no step loses state. -/
theorem no_step_loses_state :
    (∀ value, Reached xoshiro xoshiroNext value → value ≠ ⟨0, 0, 0, 0⟩) ∧
    Bijective (fun value => (xoshiroNext value).1) ∧
    (∀ value, Reached pcgXslRrMcg pcgXslRrNextMcg value → value.word.toNat % 2 = 1) ∧
    Set.BijOn (fun value => (pcgXslRrNextMcg value).1) {v | v.word.toNat % 2 = 1}
      {v | v.word.toNat % 2 = 1} ∧
    (∀ value, Reached pcgXslRrLcg pcgXslRrNextLcg value → value.increment.toNat % 2 = 1) ∧
    (∀ value, (pcgXslRrNextLcg value).1.increment = value.increment) ∧
    (∀ increment, Set.BijOn (fun value => (pcgXslRrNextLcg value).1)
      {v | v.increment = increment} {v | v.increment = increment}) ∧
    pcgXslRrStepMcgWords = pcgXslRrStepMcg ∧ pcgXslRrStepLcgWords = pcgXslRrStepLcg ∧
    Bijective pcgRxsMXsOutput ∧
    ∀ (value : PcgRxsMXsData) (i j : Nat), i < 2 ^ 64 → j < 2 ^ 64 →
      (pcgRxsMXsNext ((fun v => (pcgRxsMXsNext v).1)^[i] value)).2 =
        (pcgRxsMXsNext ((fun v => (pcgRxsMXsNext v).1)^[j] value)).2 → i = j := by
  have hmcg : (fun value => (pcgXslRrNextMcg value).1) = pcgXslRrStepMcg := rfl
  have hlcg : (fun value => (pcgXslRrNextLcg value).1) = pcgXslRrStepLcg := rfl
  have hodd : {v : PcgXslRrData | v.word.toNat % 2 = 1} = {v | v.stateLo.toNat % 2 = 1} :=
    Set.ext word_odd_iff
  refine ⟨?_, xoshiroStep_bijective, ?_, ?_, ?_, increment_stepLcg, ?_,
    funext pcgXslRrStepMcgWords_eq, funext pcgXslRrStepLcgWords_eq, pcgRxsMXsOutput_bijective, ?_⟩
  · intro value h
    exact reached_invariant (P := fun v => v ≠ ⟨0, 0, 0, 0⟩)
      (fun v octets _ => xoshiroLoadRawSeed_ne_zero v octets) (fun _ => xoshiroStep_ne_zero) h
  · intro value h
    rw [word_odd_iff]
    exact reached_invariant (P := fun v => v.stateLo.toNat % 2 = 1)
      (fun v octets _ => loadRawSeed_odd v octets) (fun _ => stepMcg_odd) h
  · rw [hmcg, hodd]
    exact stepMcg_bijOn
  · intro value h
    have hnext (v : PcgXslRrData) (hv : v.increment.toNat % 2 = 1) :
        (pcgXslRrNextLcg v).1.increment.toNat % 2 = 1 := by
      rw [pcgXslRrNextLcg, increment_stepLcg, hv]
    exact reached_invariant (P := fun v => v.increment.toNat % 2 = 1)
      (fun v octets _ => loadRawSeed_increment_odd v octets) hnext h
  · intro increment
    rw [hlcg]
    exact stepLcg_bijOn increment
  · intro value i j hi hj h
    have hstate := pcgRxsMXsOutput_injective h
    rw [iterate_pcgRxsMXs, iterate_pcgRxsMXs] at hstate
    obtain ⟨n, -, hunique⟩ := existsUnique_iterate_affine (a := pcg64Multiplier)
      (c := pcg64Increment) (by decide) (by decide) value.state
      ((fun y => pcg64Multiplier * y + pcg64Increment)^[j] value.state)
    rw [hunique i ⟨hi, hstate⟩, hunique j ⟨hj, rfl⟩]

end XPerl.Rng
