import Mathlib.Algebra.Group.Nat.Defs
import Mathlib.Data.List.Basic
import XPerl.Framework.BlockStream

/-! The SHA-256 of `RNG.xs`, beside the hash that FIPS 180-4 defines. -/

namespace XPerl.Rng

open XPerl.Framework.BlockStream

abbrev Octet := BitVec 8

abbrev Word := BitVec 32

/-- The `hash` of a context, or the working variables of a transform. -/
structure Words where
  a : Word
  b : Word
  c : Word
  d : Word
  e : Word
  f : Word
  g : Word
  h : Word
  deriving DecidableEq, Repr

def Words.toList (w : Words) : List Word := [w.a, w.b, w.c, w.d, w.e, w.f, w.g, w.h]

def Words.add (v w : Words) : Words :=
  ⟨v.a + w.a, v.b + w.b, v.c + w.c, v.d + w.d, v.e + w.e, v.f + w.f, v.g + w.g, v.h + w.h⟩

/-- `hmac_sha256_ctx`. -/
structure HmacSha256Ctx where
  hash : Words
  bits : BitVec 64
  buffer : List Octet
  used : Nat

def hmacSha256RoundConstants : List Word := [
  0x428a2f98, 0x71374491, 0xb5c0fbcf, 0xe9b5dba5, 0x3956c25b, 0x59f111f1, 0x923f82a4, 0xab1c5ed5,
  0xd807aa98, 0x12835b01, 0x243185be, 0x550c7dc3, 0x72be5d74, 0x80deb1fe, 0x9bdc06a7, 0xc19bf174,
  0xe49b69c1, 0xefbe4786, 0x0fc19dc6, 0x240ca1cc, 0x2de92c6f, 0x4a7484aa, 0x5cb0a9dc, 0x76f988da,
  0x983e5152, 0xa831c66d, 0xb00327c8, 0xbf597fc7, 0xc6e00bf3, 0xd5a79147, 0x06ca6351, 0x14292967,
  0x27b70a85, 0x2e1b2138, 0x4d2c6dfc, 0x53380d13, 0x650a7354, 0x766a0abb, 0x81c2c92e, 0x92722c85,
  0xa2bfe8a1, 0xa81a664b, 0xc24b8b70, 0xc76c51a3, 0xd192e819, 0xd6990624, 0xf40e3585, 0x106aa070,
  0x19a4c116, 0x1e376c08, 0x2748774c, 0x34b0bcb5, 0x391c0cb3, 0x4ed8aa4a, 0x5b9cca4f, 0x682e6ff3,
  0x748f82ee, 0x78a5636f, 0x84c87814, 0x8cc70208, 0x90befffa, 0xa4506ceb, 0xbef9a3f7, 0xc67178f2]

def hmacRotr32 (value : Word) (shift : Nat) : Word := value >>> shift ||| value <<< (32 - shift)

def loadWord (block : List Octet) (i : Nat) : Word :=
  (block.getD (4 * i) 0).setWidth 32 <<< 24 ||| (block.getD (4 * i + 1) 0).setWidth 32 <<< 16 |||
    (block.getD (4 * i + 2) 0).setWidth 32 <<< 8 ||| (block.getD (4 * i + 3) 0).setWidth 32

def extendWords (words : List Word) (i : Nat) : List Word :=
  let x := words.getD (i - 15) 0
  let y := words.getD (i - 2) 0
  let sigma0 := hmacRotr32 x 7 ^^^ hmacRotr32 x 18 ^^^ x >>> 3
  let sigma1 := hmacRotr32 y 17 ^^^ hmacRotr32 y 19 ^^^ y >>> 10
  words ++ [words.getD (i - 16) 0 + sigma0 + words.getD (i - 7) 0 + sigma1]

def transformWords (block : List Octet) : List Word :=
  (List.range' 16 48).foldl extendWords ((List.range 16).map (loadWord block))

def transformRound (words : List Word) (v : Words) (i : Nat) : Words :=
  let sigma1 := hmacRotr32 v.e 6 ^^^ hmacRotr32 v.e 11 ^^^ hmacRotr32 v.e 25
  let choice := v.e &&& v.f ^^^ ~~~v.e &&& v.g
  let temporary1 := v.h + sigma1 + choice + hmacSha256RoundConstants.getD i 0 + words.getD i 0
  let sigma0 := hmacRotr32 v.a 2 ^^^ hmacRotr32 v.a 13 ^^^ hmacRotr32 v.a 22
  let majority := v.a &&& v.b ^^^ v.a &&& v.c ^^^ v.b &&& v.c
  let temporary2 := sigma0 + majority
  ⟨temporary1 + temporary2, v.a, v.b, v.c, v.d + temporary1, v.e, v.f, v.g⟩

/-- `hmac_sha256_transform`, on the hash of the context. -/
def hmacSha256Transform (hash : Words) (block : List Octet) : Words :=
  let words := transformWords block
  hash.add ((List.range 64).foldl (transformRound words) hash)

/-- `hmac_sha256_init`, which leaves the buffer as it is. -/
def hmacSha256Init (context : HmacSha256Ctx) : HmacSha256Ctx where
  hash := ⟨0x6a09e667, 0xbb67ae85, 0x3c6ef372, 0xa54ff53a, 0x510e527f, 0x9b05688c, 0x1f83d9ab,
    0x5be0cd19⟩
  bits := 0
  buffer := context.buffer
  used := 0

/-- The loop of `hmac_sha256_update`; the fuel is the length of the data. -/
def updateLoop : Nat → HmacSha256Ctx → List Octet → HmacSha256Ctx
  | 0, context, _ => context
  | fuel + 1, context, data =>
    if data.length = 0 then context
    else
      let copied := if 64 - context.used > data.length then data.length else 64 - context.used
      let buffer := context.buffer.take context.used ++ data.take copied ++
        context.buffer.drop (context.used + copied)
      let used := context.used + copied
      if used = 64 then
        updateLoop fuel { context with
          hash := hmacSha256Transform context.hash buffer, buffer := buffer, used := 0 }
          (data.drop copied)
      else updateLoop fuel { context with buffer := buffer, used := used } (data.drop copied)

def hmacSha256Update (context : HmacSha256Ctx) (data : List Octet) : HmacSha256Ctx :=
  updateLoop data.length { context with bits := context.bits + BitVec.ofNat 64 data.length * 8 } data

/-- The loop of `hmac_sha256_final` that pads with zeros. -/
def padLoop : Nat → HmacSha256Ctx → HmacSha256Ctx
  | 0, context => context
  | fuel + 1, context =>
    if context.used = 56 then context else padLoop fuel (hmacSha256Update context [0])

def lengthOctets (bits : BitVec 64) : List Octet :=
  (List.range 8).map fun i => (bits >>> ((7 - i) * 8)).setWidth 8

def storeWord (w : Word) : List Octet :=
  [(w >>> 24).setWidth 8, (w >>> 16).setWidth 8, (w >>> 8).setWidth 8, w.setWidth 8]

def hmacSha256Pad (context : HmacSha256Ctx) : HmacSha256Ctx :=
  let length := lengthOctets context.bits
  let context := hmacSha256Update context [0x80]
  let context := padLoop 64 context
  hmacSha256Update context length

/-- `hmac_sha256_final`: the octets of the output. -/
def hmacSha256Final (context : HmacSha256Ctx) : List Octet :=
  (hmacSha256Pad context).hash.toList.flatMap storeWord

end XPerl.Rng

/-! SHA-256 as FIPS 180-4 defines it, and what the transform of `RNG.xs` has to do with it. -/

namespace XPerl.Rng.Fips

open XPerl.Framework.BlockStream

def rotr (n : Nat) (x : Word) : Word := x.rotateRight n

def ch (x y z : Word) : Word := (x &&& y) ^^^ (~~~x &&& z)

def maj (x y z : Word) : Word := (x &&& y) ^^^ (x &&& z) ^^^ (y &&& z)

def bigSigma0 (x : Word) : Word := rotr 2 x ^^^ rotr 13 x ^^^ rotr 22 x

def bigSigma1 (x : Word) : Word := rotr 6 x ^^^ rotr 11 x ^^^ rotr 25 x

def sigma0 (x : Word) : Word := rotr 7 x ^^^ rotr 18 x ^^^ x >>> 3

def sigma1 (x : Word) : Word := rotr 17 x ^^^ rotr 19 x ^^^ x >>> 10

def primes : List Nat := [
  2, 3, 5, 7, 11, 13, 17, 19, 23, 29, 31, 37, 41, 43, 47, 53, 59, 61, 67, 71, 73, 79, 83, 89, 97,
  101, 103, 107, 109, 113, 127, 131, 137, 139, 149, 151, 157, 163, 167, 173, 179, 181, 191, 193,
  197, 199, 211, 223, 227, 229, 233, 239, 241, 251, 257, 263, 269, 271, 277, 281, 283, 293, 307,
  311]

/-- The greatest number below `2 ^ 36` whose power is at most `n`, bit by bit. -/
def root (power n : Nat) : Nat :=
  (List.range 36).reverse.foldl (fun r b => if (r + 2 ^ b) ^ power ≤ n then r + 2 ^ b else r) 0

def rootFraction (power t : Nat) : Word :=
  BitVec.ofNat 32 (root power (primes.getD t 0 * 2 ^ (32 * power)))

def constant (t : Nat) : Word := rootFraction 3 t

def initialHash : Words :=
  ⟨rootFraction 2 0, rootFraction 2 1, rootFraction 2 2, rootFraction 2 3, rootFraction 2 4,
    rootFraction 2 5, rootFraction 2 6, rootFraction 2 7⟩

def schedule (block : List Octet) (t : Nat) : Word :=
  if t < 16 then
    block.getD (4 * t) 0 ++ block.getD (4 * t + 1) 0 ++ block.getD (4 * t + 2) 0 ++
      block.getD (4 * t + 3) 0
  else
    sigma1 (schedule block (t - 2)) + schedule block (t - 7) + sigma0 (schedule block (t - 15)) +
      schedule block (t - 16)
termination_by t

/-- Step 3 of section 6.2.2. -/
def round (block : List Octet) (v : Words) (t : Nat) : Words :=
  let t1 := v.h + bigSigma1 v.e + ch v.e v.f v.g + constant t + schedule block t
  let t2 := bigSigma0 v.a + maj v.a v.b v.c
  ⟨t1 + t2, v.a, v.b, v.c, v.d + t1, v.e, v.f, v.g⟩

def compress (hash : Words) (block : List Octet) : Words :=
  hash.add ((List.range 64).foldl (round block) hash)

def zeros (length : Nat) : Nat := (119 - length % 64) % 64

def padded (message : List Octet) : List Octet :=
  message ++ 0x80 :: List.replicate (zeros message.length) 0 ++
    lengthOctets (BitVec.ofNat 64 (8 * message.length))

def sha256 (message : List Octet) : List Octet :=
  (absorb 64 compress ((padded message).length / 64) initialHash (padded message)).toList.flatMap
    storeWord

theorem hmacRotr32_eq (value : Word) (shift : Nat) (h : shift < 32) :
    hmacRotr32 value shift = rotr shift value := by
  rw [rotr, hmacRotr32, BitVec.rotateRight, Nat.mod_eq_of_lt h]
  rfl

theorem loadWord_eq (block : List Octet) (i : Nat) :
    loadWord block i = block.getD (4 * i) 0 ++ block.getD (4 * i + 1) 0 ++
      block.getD (4 * i + 2) 0 ++ block.getD (4 * i + 3) 0 := by
  rw [loadWord]
  generalize block.getD (4 * i) 0 = o₀
  generalize block.getD (4 * i + 1) 0 = o₁
  generalize block.getD (4 * i + 2) 0 = o₂
  generalize block.getD (4 * i + 3) 0 = o₃
  apply BitVec.eq_of_toNat_eq
  have hshift (o : Octet) (n : Nat) (hn : n ≤ 24) :
      (o.setWidth 32 <<< n).toNat = o.toNat <<< n := by
    rw [BitVec.toNat_shiftLeft, BitVec.toNat_setWidth_of_le (by decide)]
    apply Nat.mod_eq_of_lt
    rw [Nat.shiftLeft_eq]
    calc
      o.toNat * 2 ^ n < 2 ^ 8 * 2 ^ n := Nat.mul_lt_mul_of_pos_right o.isLt (Nat.two_pow_pos n)
      _ = 2 ^ (8 + n) := (Nat.pow_add 2 8 n).symm
      _ ≤ 2 ^ 32 := Nat.pow_le_pow_right (by decide) (by omega)
  have happend : (o₀ ++ o₁ ++ o₂ ++ o₃).toNat =
      ((o₀.toNat <<< 8 ||| o₁.toNat) <<< 8 ||| o₂.toNat) <<< 8 ||| o₃.toNat := by
    rw [BitVec.toNat_append, BitVec.toNat_append, BitVec.toNat_append]
  refine Eq.trans ?_ happend.symm
  rw [BitVec.toNat_or, BitVec.toNat_or, BitVec.toNat_or, hshift _ 24 (by decide),
    hshift _ 16 (by decide), hshift _ 8 (by decide),
    BitVec.toNat_setWidth_of_le (show 8 ≤ 32 by decide)]
  simp only [Nat.shiftLeft_or_distrib, ← Nat.shiftLeft_add, Nat.reduceAdd]

theorem roundConstants_eq : ∀ t < 64, hmacSha256RoundConstants.getD t 0 = constant t := by
  decide +kernel

theorem hmacSha256Init_hash (context : HmacSha256Ctx) :
    (hmacSha256Init context).hash = initialHash := by
  have h : initialHash = ⟨0x6a09e667, 0xbb67ae85, 0x3c6ef372, 0xa54ff53a, 0x510e527f, 0x9b05688c,
      0x1f83d9ab, 0x5be0cd19⟩ := by
    decide +kernel
  rw [h]
  rfl

theorem extendWords_spec (block : List Octet) {words : List Word} {i : Nat} (hi : 16 ≤ i)
    (h : words = (List.range i).map (schedule block)) :
    extendWords words i = (List.range (i + 1)).map (schedule block) := by
  have hget (j : Nat) (hj : j < i) : words.getD j 0 = schedule block j := by
    rw [h, List.getD_eq_getElem?_getD, List.getElem?_map, List.getElem?_range hj]
    rfl
  have hnext : schedule block i = words.getD (i - 16) 0 + sigma0 (words.getD (i - 15) 0) +
      words.getD (i - 7) 0 + sigma1 (words.getD (i - 2) 0) := by
    rw [schedule, if_neg (by omega), hget _ (by omega), hget _ (by omega), hget _ (by omega),
      hget _ (by omega)]
    ac_rfl
  rw [extendWords, List.range_succ, List.map_append, List.map_singleton, ← h, hnext]
  simp only [hmacRotr32_eq _ 7 (by decide), hmacRotr32_eq _ 18 (by decide),
    hmacRotr32_eq _ 17 (by decide), hmacRotr32_eq _ 19 (by decide), sigma0, sigma1]

theorem foldl_extendWords (block : List Octet) {n m i : Nat} (hm : i + n = m) {words : List Word}
    (hi : 16 ≤ i) (h : words = (List.range i).map (schedule block)) :
    (List.range' i n).foldl extendWords words = (List.range m).map (schedule block) := by
  induction n generalizing words i with
  | zero => rw [← hm, Nat.add_zero, ← h, List.range'_zero, List.foldl_nil]
  | succ n ih =>
    rw [List.range'_succ, List.foldl_cons]
    exact ih (by omega) (by omega) (extendWords_spec block hi h)

theorem transformWords_eq (block : List Octet) :
    transformWords block = (List.range 64).map (schedule block) := by
  have hfirst : (List.range 16).map (loadWord block) = (List.range 16).map (schedule block) := by
    apply List.map_congr_left
    intro t ht
    rw [schedule, if_pos (List.mem_range.1 ht), loadWord_eq]
  exact foldl_extendWords block (by decide) (Nat.le_refl 16) hfirst

theorem transformRound_eq (block : List Octet) (v : Words) {i : Nat} (hi : i < 64) :
    transformRound (transformWords block) v i = round block v i := by
  have hword : (transformWords block).getD i 0 = schedule block i := by
    rw [transformWords_eq, List.getD_eq_getElem?_getD, List.getElem?_map, List.getElem?_range hi]
    rfl
  rw [transformRound, round, hword, roundConstants_eq i hi]
  simp only [hmacRotr32_eq _ 6 (by decide), hmacRotr32_eq _ 11 (by decide),
    hmacRotr32_eq _ 25 (by decide), hmacRotr32_eq _ 2 (by decide), hmacRotr32_eq _ 13 (by decide),
    hmacRotr32_eq _ 22 (by decide), bigSigma0, bigSigma1, ch, maj]

theorem hmacSha256Transform_eq (hash : Words) (block : List Octet) :
    hmacSha256Transform hash block = compress hash block := by
  have hrounds : (List.range 64).foldl (transformRound (transformWords block)) hash =
      (List.range 64).foldl (round block) hash := by
    apply List.foldl_ext
    intro v i hi
    rw [transformRound_eq block v (List.mem_range.1 hi)]
  rw [hmacSha256Transform, compress, hrounds]

end XPerl.Rng.Fips
