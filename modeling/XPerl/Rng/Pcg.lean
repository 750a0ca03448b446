import Mathlib.Data.FinEnum
import XPerl.Framework.Scrambling
import XPerl.Rng.Digest

/-! The PCG and xoshiro256** providers of `RNG.xs`. -/

namespace XPerl.Rng

open Function XPerl.Framework.Scrambling

/-- `pcg_data`; the words of `extension` are two fields. -/
@[ext] structure PcgData where
  state : BitVec 64
  extension0 : BitVec 32
  extension1 : BitVec 32
  initial : BitVec 64

def pcgMultiplier : BitVec 64 := 0x5851f42d4c957f2d

def pcgIncrement : BitVec 64 := 0x14057b7ef767814f

/-- The end of `pcg_next_data`: the extension turns when the state is the initial one. -/
def pcgTurn (value : PcgData) : PcgData :=
  if value.state = value.initial then
    let extension0 := value.extension0 + 1
    { value with
      extension0 := extension0
      extension1 := if extension0 = 0 then value.extension1 + 1 else value.extension1 }
  else value

def pcgNextData (value : PcgData) : PcgData × BitVec 32 :=
  let oldstate := value.state
  let xorshifted := ((oldstate >>> 18 ^^^ oldstate) >>> 27).setWidth 32
  let rot := (oldstate >>> 59).toNat
  let result := xorshifted >>> rot ||| xorshifted <<< ((32 - rot) % 32)
  let value := { value with state := oldstate * pcgMultiplier + pcgIncrement }
  let result := result ^^^ if oldstate &&& 1 = 0 then value.extension0 else value.extension1
  (pcgTurn value, result)

def pcgNextU64 (value : PcgData) : PcgData × BitVec 64 :=
  let first := pcgNextData value
  let second := pcgNextData first.1
  (second.1, first.2.setWidth 64 <<< 32 ||| second.2.setWidth 64)

def pcgLoadRawSeed (_ : PcgData) (seedBytes : List Octet) : PcgData where
  state := u8to64Le seedBytes 0
  extension0 := u8to32Le seedBytes 8
  extension1 := u8to32Le seedBytes 12
  initial := u8to64Le seedBytes 0

def pcg : Provider PcgData where
  zeroState := ⟨0, 0, 0, 0⟩
  name := "RNG::PCG"
  label := "Perl RNG::PCG seed v1"
  width := 16
  loadRawSeed := pcgLoadRawSeed

/-- `pcg_rxs_m_xs_data`. -/
@[ext] structure PcgRxsMXsData where
  state : BitVec 64

def pcg64Multiplier : BitVec 64 := 6364136223846793005

def pcg64Increment : BitVec 64 := 1442695040888963407

def pcgRxsMXsMultiplier : BitVec 64 := 12605985483714917081

def pcgRxsMXsOutput (state : BitVec 64) : BitVec 64 :=
  let word := (state >>> (state >>> 59 + 5) ^^^ state) * pcgRxsMXsMultiplier
  word >>> 43 ^^^ word

def pcgRxsMXsNext (value : PcgRxsMXsData) : PcgRxsMXsData × BitVec 64 :=
  (⟨value.state * pcg64Multiplier + pcg64Increment⟩, pcgRxsMXsOutput value.state)

def pcgRxsMXsLoadRawSeed (_ : PcgRxsMXsData) (seedBytes : List Octet) : PcgRxsMXsData :=
  ⟨u8to64Le seedBytes 0⟩

def pcgRxsMXs : Provider PcgRxsMXsData where
  zeroState := ⟨0⟩
  name := "RNG::PCG::RXS_M_XS_64_64"
  label := "Perl PCG RXS-M-XS 64/64 seed v1"
  width := 8
  loadRawSeed := pcgRxsMXsLoadRawSeed

/-- `pcg_xsl_rr_data`. -/
@[ext] structure PcgXslRrData where
  stateHi : BitVec 64
  stateLo : BitVec 64
  incrementHi : BitVec 64
  incrementLo : BitVec 64

def pcg128MultiplierHi : BitVec 64 := 2549297995355413924

def pcg128MultiplierLo : BitVec 64 := 4865540595714422341

def pcgU128 (high low : BitVec 64) : BitVec 128 := high.setWidth 128 <<< 64 ||| low.setWidth 128

/-- `pcg_multiply_wide_u64`: the high and the low half of the product. -/
def pcgMultiplyWideU64 (left right : BitVec 64) : BitVec 64 × BitVec 64 :=
  let leftLow := (left.setWidth 32).setWidth 64
  let leftHigh := left >>> 32
  let rightLow := (right.setWidth 32).setWidth 64
  let rightHigh := right >>> 32
  let lowProduct := leftLow * rightLow
  let crossLeft := leftLow * rightHigh
  let crossRight := leftHigh * rightLow
  let middle := lowProduct >>> 32 + (crossLeft.setWidth 32).setWidth 64 +
    (crossRight.setWidth 32).setWidth 64
  (leftHigh * rightHigh + crossLeft >>> 32 + crossRight >>> 32 + middle >>> 32,
    middle <<< 32 ||| (lowProduct.setWidth 32).setWidth 64)

/-- `pcg_xsl_rr_step_mcg` where the compiler has 128-bit integers. -/
def pcgXslRrStepMcg (value : PcgXslRrData) : PcgXslRrData :=
  let state := pcgU128 value.stateHi value.stateLo
  let state := state * pcgU128 pcg128MultiplierHi pcg128MultiplierLo
  { value with stateHi := (state >>> 64).setWidth 64, stateLo := state.setWidth 64 }

def pcgXslRrStepMcgWords (value : PcgXslRrData) : PcgXslRrData :=
  let product := pcgMultiplyWideU64 value.stateLo pcg128MultiplierLo
  { value with
    stateHi := product.1 + value.stateHi * pcg128MultiplierLo +
      value.stateLo * pcg128MultiplierHi
    stateLo := product.2 }

/-- `pcg_xsl_rr_step_lcg` where the compiler has 128-bit integers. -/
def pcgXslRrStepLcg (value : PcgXslRrData) : PcgXslRrData :=
  let state := pcgU128 value.stateHi value.stateLo
  let state := state * pcgU128 pcg128MultiplierHi pcg128MultiplierLo +
    pcgU128 value.incrementHi value.incrementLo
  { value with stateHi := (state >>> 64).setWidth 64, stateLo := state.setWidth 64 }

def pcgXslRrStepLcgWords (value : PcgXslRrData) : PcgXslRrData :=
  let product := pcgMultiplyWideU64 value.stateLo pcg128MultiplierLo
  let nextLow := product.2 + value.incrementLo
  let carry : BitVec 64 := if nextLow < product.2 then 1 else 0
  { value with
    stateHi := product.1 + value.stateHi * pcg128MultiplierLo +
      value.stateLo * pcg128MultiplierHi + value.incrementHi + carry
    stateLo := nextLow }

/-- `pcg_xsl_rr_output` and the rotation that follows it. -/
def pcgXslRrOutput (value : PcgXslRrData) : BitVec 64 :=
  let rotation := (value.stateHi >>> 58).toNat
  let output := value.stateHi ^^^ value.stateLo
  output >>> rotation ||| output <<< ((64 - rotation) % 64)

def pcgXslRrNextMcg (value : PcgXslRrData) : PcgXslRrData × BitVec 64 :=
  (pcgXslRrStepMcg value, pcgXslRrOutput (pcgXslRrStepMcg value))

def pcgXslRrNextLcg (value : PcgXslRrData) : PcgXslRrData × BitVec 64 :=
  (pcgXslRrStepLcg value, pcgXslRrOutput (pcgXslRrStepLcg value))

/-- `pcg_xsl_rr_load_raw_seed`; a multiplicative generator leaves its increment as it is. -/
def pcgXslRrLoadRawSeed (mcg : Bool) (value : PcgXslRrData) (seedBytes : List Octet) :
    PcgXslRrData :=
  let low := u8to64Le seedBytes 0 ||| if mcg then 1 else 0
  let high := u8to64Le seedBytes 8
  if mcg then { value with stateHi := high, stateLo := low }
  else
    { stateHi := high, stateLo := low, incrementHi := u8to64Le seedBytes 24,
      incrementLo := u8to64Le seedBytes 16 ||| 1 }

def wordLe (value : BitVec 64) : List Octet :=
  (List.range 8).map fun i => (value >>> (8 * i)).setWidth 8

def pcgXslRrExportRawSeed (mcg : Bool) (value : PcgXslRrData) : List Octet :=
  wordLe value.stateLo ++ wordLe value.stateHi ++
    if mcg then [] else wordLe value.incrementLo ++ wordLe value.incrementHi

/-- `RNG::PCG::XSL_RR_128_64_MCG`; its seed is exported with the odd state. -/
def pcgXslRrMcg : Provider PcgXslRrData where
  zeroState := ⟨0, 0, 0, 0⟩
  name := "RNG::PCG::XSL_RR_128_64_MCG"
  label := "Perl PCG XSL-RR 128/64 MCG seed v1"
  width := 16
  loadRawSeed := pcgXslRrLoadRawSeed true
  rawSeed := fun value _ => pcgXslRrExportRawSeed true value

def pcgXslRrLcg : Provider PcgXslRrData where
  zeroState := ⟨0, 0, 0, 0⟩
  name := "RNG::PCG::XSL_RR_128_64_LCG"
  label := "Perl PCG XSL-RR 128/64 LCG seed v1"
  width := 32
  loadRawSeed := pcgXslRrLoadRawSeed false

/-! What a generator of 64-bit words answers to a mix of requests. -/

/-- `rand_U01` or `rand_bytes`. -/
inductive Request where
  | u01
  | bytes (length : Nat)

/-- A number below one, as its multiple of `2 ^ -53`, or octets. -/
inductive Answer where
  | u01 (numerator : BitVec 64)
  | bytes (octets : List Octet)

section Words

variable {σ : Type} (next : σ → σ × BitVec 64)

/-- The octets of a word as the loops of the `fill_bytes` functions take them. -/
def wordOctets (word : BitVec 64) : List Octet :=
  (List.range 8).map fun i => (word >>> (56 - 8 * i)).setWidth 8

/-- `pcg_fill_bytes`, `wyrand_fill_bytes` and the other functions of their shape. -/
def fillBytes : Nat → σ → Nat → σ × List Octet
  | 0, value, _ => (value, [])
  | fuel + 1, value, length =>
    if length = 0 then (value, [])
    else
      let word := next value
      let rest := fillBytes fuel word.1 (length - 8)
      (rest.1, (wordOctets word.2).take length ++ rest.2)

/-- The answer to a request; `rng_U64_to_NV_U01` keeps the high bits of a word. -/
def wordAnswer (value : σ) : Request → σ × Answer
  | .u01 =>
    let word := next value
    (word.1, .u01 (word.2 >>> 11))
  | .bytes length =>
    let filled := fillBytes next length value length
    (filled.1, .bytes filled.2)

variable {next} {P : σ → Prop} (hnext : ∀ value, P value → P (next value).1)

include hnext

theorem fillBytes_invariant (fuel : Nat) {value : σ} (length : Nat) (h : P value) :
    P (fillBytes next fuel value length).1 := by
  induction fuel generalizing value length with
  | zero => exact h
  | succ fuel ih =>
    rw [fillBytes]
    by_cases hlength : length = 0
    · rw [if_pos hlength]
      exact h
    · rw [if_neg hlength]
      exact ih (length - 8) (hnext value h)

theorem wordAnswer_invariant (value : σ) (r : Request) (h : P value) :
    P (wordAnswer next value r).1 := by
  cases r with
  | u01 => exact hnext value h
  | bytes length => exact fillBytes_invariant hnext length length h

end Words

section Runs

variable {σ : Type}

def answers (serve : σ → Request → σ × Answer) : σ → List Request → σ × List Answer
  | value, [] => (value, [])
  | value, r :: requests =>
    let first := serve value r
    let rest := answers serve first.1 requests
    (rest.1, first.2 :: rest.2)

theorem answers_invariant {serve : σ → Request → σ × Answer} {P : σ → Prop}
    (hserve : ∀ value r, P value → P (serve value r).1) (requests : List Request) {value : σ}
    (h : P value) : P (answers serve value requests).1 := by
  induction requests generalizing value with
  | nil => exact h
  | cons r requests ih => exact ih (hserve value r h)

/-- A state that a generator comes to: a new one, by `srand`, or by requests. -/
inductive Reached (p : Provider σ) (next : σ → σ × BitVec 64) : σ → Prop where
  | new {loaded : σ} {seed : Seed} (h : p.seed p.zeroState seed = .ok loaded) :
    Reached p next loaded
  | srand {value : σ} (h : Reached p next value) {seed : Seed} {r : σ × Seed}
    (hsrand : p.srand value seed = .ok r) : Reached p next r.1
  | answered {value : σ} (h : Reached p next value) (requests : List Request) :
    Reached p next (answers (wordAnswer next) value requests).1

theorem reached_invariant {p : Provider σ} {next : σ → σ × BitVec 64} {P : σ → Prop}
    (hload : ∀ value octets, value = p.zeroState ∨ P value → P (p.loadRawSeed value octets))
    (hnext : ∀ value, P value → P (next value).1) {value : σ} (h : Reached p next value) :
    P value := by
  induction h with
  | new h =>
    obtain ⟨octets, hoctets⟩ := Provider.seed_eq_ok h
    rw [hoctets]
    exact hload _ octets (Or.inl rfl)
  | srand h hsrand ih =>
    obtain ⟨octets, hoctets⟩ := Provider.srand_eq_ok hsrand
    rw [hoctets]
    exact hload _ octets (Or.inr ih)
  | answered h requests ih => exact answers_invariant (wordAnswer_invariant hnext) requests ih

end Runs

/-- `xoshiro_data`; the words of `state` are four fields. -/
@[ext] structure XoshiroData where
  state0 : BitVec 64
  state1 : BitVec 64
  state2 : BitVec 64
  state3 : BitVec 64
  deriving DecidableEq

def xoshiroRotl (value : BitVec 64) (shift : Nat) : BitVec 64 :=
  value <<< shift ||| value >>> (64 - shift)

def xoshiroStep (value : XoshiroData) : XoshiroData :=
  let temporary := value.state1 <<< 17
  let state2 := value.state2 ^^^ value.state0
  let state3 := value.state3 ^^^ value.state1
  let state1 := value.state1 ^^^ state2
  let state0 := value.state0 ^^^ state3
  ⟨state0, state1, state2 ^^^ temporary, xoshiroRotl state3 45⟩

def xoshiroNext (value : XoshiroData) : XoshiroData × BitVec 64 :=
  (xoshiroStep value, xoshiroRotl (value.state1 * 5) 7 * 9)

def xoshiroLoadRawSeed (_ : XoshiroData) (seedBytes : List Octet) : XoshiroData :=
  let value : XoshiroData := ⟨u8to64Le seedBytes 0, u8to64Le seedBytes 8, u8to64Le seedBytes 16,
    u8to64Le seedBytes 24⟩
  if value.state0 ||| value.state1 ||| value.state2 ||| value.state3 = 0 then
    { value with state0 := 1 }
  else value

def xoshiro : Provider XoshiroData where
  zeroState := ⟨0, 0, 0, 0⟩
  name := "RNG::Xoshiro"
  label := "Perl xoshiro seed"
  width := 32
  loadRawSeed := xoshiroLoadRawSeed

theorem xoshiroRotl_injective {x y : BitVec 64} (h : xoshiroRotl x 45 = xoshiroRotl y 45) :
    x = y :=
  rotate_injective (show 45 < 64 by decide) h

theorem xoshiroStep_injective : Injective xoshiroStep := by
  intro v w h
  rw [xoshiroStep, xoshiroStep, XoshiroData.mk.injEq] at h
  obtain ⟨h0, h1, h2, h3⟩ := h
  have hthree : v.state3 ^^^ v.state1 = w.state3 ^^^ w.state1 := xoshiroRotl_injective h3
  rw [hthree, BitVec.xor_left_inj] at h0
  rw [h0] at h1 h2
  have hone : v.state1 ^^^ v.state1 <<< 17 = w.state1 ^^^ w.state1 <<< 17 := by
    have hsum (x y : BitVec 64) : x ^^^ (y ^^^ w.state0) ^^^ (y ^^^ w.state0 ^^^ x <<< 17) =
        x ^^^ x <<< 17 := by
      rw [BitVec.xor_assoc, ← BitVec.xor_assoc (y ^^^ w.state0), BitVec.xor_self,
        BitVec.zero_xor]
    rw [← hsum v.state1 v.state2, ← hsum w.state1 w.state2, h1, h2]
  have h1' := xor_shiftLeft_injective (show 0 < 17 by decide) hone
  rw [h1', BitVec.xor_right_inj, BitVec.xor_left_inj] at h1
  rw [h1', BitVec.xor_left_inj] at hthree
  exact XoshiroData.ext h0 h1' h1 hthree

instance : Finite XoshiroData :=
  Finite.of_injective (fun v => (v.state0, v.state1, v.state2, v.state3)) (by
    intro v w h
    obtain ⟨h0, h1, h2, h3⟩ := by simpa using h
    exact XoshiroData.ext h0 h1 h2 h3)

theorem xoshiroStep_bijective : Bijective xoshiroStep :=
  Finite.injective_iff_bijective.1 xoshiroStep_injective

theorem xoshiroStep_ne_zero {value : XoshiroData} (h : value ≠ ⟨0, 0, 0, 0⟩) :
    xoshiroStep value ≠ ⟨0, 0, 0, 0⟩ := by
  have hzero : xoshiroStep ⟨0, 0, 0, 0⟩ = ⟨0, 0, 0, 0⟩ := by decide
  intro hstep
  exact h (xoshiroStep_injective (hstep.trans hzero.symm))

theorem xoshiroLoadRawSeed_ne_zero (value : XoshiroData) (seedBytes : List Octet) :
    xoshiroLoadRawSeed value seedBytes ≠ ⟨0, 0, 0, 0⟩ := by
  rw [xoshiroLoadRawSeed]
  intro h
  split at h
  · rw [XoshiroData.mk.injEq] at h
    exact absurd h.1 (by decide)
  case isFalse hsome =>
    rw [XoshiroData.mk.injEq] at h
    obtain ⟨h0, h1, h2, h3⟩ := h
    rw [h0, h1, h2, h3] at hsome
    exact hsome (by decide)

end XPerl.Rng
