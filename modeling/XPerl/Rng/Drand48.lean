import XPerl.Rng.Pcg

/-! `RNG::Drand48` and the built-in generator, whose seeds are numbers. -/

namespace XPerl.Rng

def isSpace (o : Octet) : Bool := o = 32 || (9 ≤ o && o ≤ 13)

def isDigit (o : Octet) : Bool := 48 ≤ o && o ≤ 57

/-- The digits of `rng_drand48_decimal_seed`: the number, whether there was one, and the rest;
none when the number does not fit into 64 bits. -/
def scanDigits : Nat → Bool → List Octet → Option (Nat × Bool × List Octet)
  | result, sawDigit, [] => some (result, sawDigit, [])
  | result, sawDigit, o :: rest =>
    if isDigit o then
      let digit := o.toNat - 48
      if result > (18446744073709551615 - digit) / 10 then none
      else scanDigits (result * 10 + digit) true rest
    else some (result, sawDigit, o :: rest)

/-- The fraction of `rng_drand48_decimal_seed`, which is left out. -/
def skipFraction (sawDigit : Bool) : List Octet → Bool × List Octet
  | [] => (sawDigit, [])
  | o :: rest =>
    if o = 46 then (sawDigit || (rest.takeWhile isDigit).length ≠ 0, rest.dropWhile isDigit)
    else (sawDigit, o :: rest)

/-- The sign of `rng_drand48_decimal_seed`, which is left out. -/
def skipSign : List Octet → List Octet
  | [] => []
  | o :: rest => if o = 43 ∨ o = 45 then rest else o :: rest

def rngDrand48DecimalSeed (bytes : List Octet) : Option Nat :=
  if bytes = labelOctets "0 but true" then some 0
  else
    match scanDigits 0 false (skipSign (bytes.dropWhile isSpace)) with
    | none => none
    | some (result, sawDigit, rest) =>
      let fraction := skipFraction sawDigit rest
      if ¬ fraction.1 then none
      else if fraction.2.dropWhile isSpace ≠ [] then none
      else some result

def decimalOctets (value : Nat) : List Octet :=
  if value < 10 then [BitVec.ofNat 8 (48 + value)]
  else decimalOctets (value / 10) ++ [BitVec.ofNat 8 (48 + value % 10)]

/-- `rng_drand48_numeric_seed`, by the text of the scalar. -/
def rngDrand48NumericSeed (value : Nat) : List Octet :=
  if value = 0 then labelOctets "0 but true" else decimalOctets value

theorem isDigit_digit {d : Nat} (hd : d < 10) : isDigit (BitVec.ofNat 8 (48 + d)) = true := by
  have hcases : ∀ d < 10, isDigit (BitVec.ofNat 8 (48 + d)) = true := by decide
  exact hcases d hd

theorem toNat_digit {d : Nat} (hd : d < 10) : (BitVec.ofNat 8 (48 + d)).toNat - 48 = d := by
  rw [BitVec.toNat_ofNat]
  omega

theorem scanDigits_digit {result d : Nat} (hd : d < 10) (sawDigit : Bool) (rest : List Octet)
    (h : result * 10 + d < 18446744073709551616) :
    scanDigits result sawDigit (BitVec.ofNat 8 (48 + d) :: rest) =
      scanDigits (result * 10 + d) true rest := by
  rw [scanDigits, if_pos (isDigit_digit hd), toNat_digit hd]
  exact if_neg (by omega)

theorem scanDigits_decimalOctets (value : Nat) (sawDigit : Bool) (rest : List Octet)
    (h : value < 18446744073709551616) :
    scanDigits 0 sawDigit (decimalOctets value ++ rest) = scanDigits value true rest := by
  induction value using Nat.strongRecOn generalizing sawDigit rest with
  | ind value ih =>
    rw [decimalOctets]
    by_cases hsmall : value < 10
    · have hfits : 0 * 10 + value < 18446744073709551616 := by omega
      rw [if_pos hsmall, List.singleton_append, scanDigits_digit hsmall _ _ hfits]
      congr 1
      omega
    · have hdigit : value % 10 < 10 := Nat.mod_lt _ (by decide)
      have hvalue : value / 10 * 10 + value % 10 = value := Nat.div_add_mod' value 10
      rw [if_neg hsmall, List.append_assoc, List.singleton_append,
        ih (value / 10) (by omega) _ _ (by omega),
        scanDigits_digit hdigit _ _ (by rw [hvalue]; exact h), hvalue]

theorem decimalOctets_cons (value : Nat) :
    ∃ d rest, d < 10 ∧ decimalOctets value = BitVec.ofNat 8 (48 + d) :: rest := by
  induction value using Nat.strongRecOn with
  | ind value ih =>
    rw [decimalOctets]
    by_cases hsmall : value < 10
    · rw [if_pos hsmall]
      exact ⟨value, [], hsmall, rfl⟩
    · obtain ⟨d, rest, hd, hrest⟩ := ih (value / 10) (by omega)
      rw [if_neg hsmall, hrest]
      exact ⟨d, _, hd, rfl⟩

theorem isDigit_of_mem_decimalOctets {value : Nat} {o : Octet} (ho : o ∈ decimalOctets value) :
    isDigit o = true := by
  induction value using Nat.strongRecOn generalizing o with
  | ind value ih =>
    rw [decimalOctets] at ho
    by_cases hsmall : value < 10
    · rw [if_pos hsmall, List.mem_singleton] at ho
      rw [ho]
      exact isDigit_digit hsmall
    · rw [if_neg hsmall, List.mem_append, List.mem_singleton] at ho
      rcases ho with ho | ho
      · exact ih (value / 10) (by omega) ho
      · rw [ho]
        exact isDigit_digit (Nat.mod_lt _ (by decide))

theorem rngDrand48DecimalSeed_numericSeed {value : Nat} (h : value < 18446744073709551616) :
    rngDrand48DecimalSeed (rngDrand48NumericSeed value) = some value := by
  rw [rngDrand48NumericSeed]
  by_cases hzero : value = 0
  · rw [if_pos hzero, rngDrand48DecimalSeed, if_pos rfl, hzero]
  · have hnotText : decimalOctets value ≠ labelOctets "0 but true" := by
      intro heq
      have hmem : (32 : Octet) ∈ decimalOctets value := by
        rw [heq]
        decide
      exact absurd (isDigit_of_mem_decimalOctets hmem) (by decide)
    obtain ⟨d, rest, hd, hcons⟩ := decimalOctets_cons value
    have hspace : ∀ d < 10, isSpace (BitVec.ofNat 8 (48 + d)) = false := by decide
    have hsign : ∀ d < 10, ¬ ((BitVec.ofNat 8 (48 + d) : Octet) = 43 ∨
        (BitVec.ofNat 8 (48 + d) : Octet) = 45) := by decide
    have hstart : skipSign ((decimalOctets value).dropWhile isSpace) = decimalOctets value := by
      rw [hcons, List.dropWhile_cons, hspace d hd, if_neg Bool.false_ne_true, skipSign,
        if_neg (hsign d hd)]
    have hscan := scanDigits_decimalOctets value false [] h
    rw [List.append_nil, scanDigits] at hscan
    rw [if_neg hzero, rngDrand48DecimalSeed, if_neg hnotText, hstart, hscan]
    rfl

def sipRound (v : BitVec 64 × BitVec 64 × BitVec 64 × BitVec 64) :
    BitVec 64 × BitVec 64 × BitVec 64 × BitVec 64 :=
  let (v0, v1, v2, v3) := v
  let v0 := v0 + v1
  let v1 := v1.rotateLeft 13 ^^^ v0
  let v0 := v0.rotateLeft 32
  let v2 := v2 + v3
  let v3 := v3.rotateLeft 16 ^^^ v2
  let v0 := v0 + v3
  let v3 := v3.rotateLeft 21 ^^^ v0
  let v2 := v2 + v1
  let v1 := v1.rotateLeft 17 ^^^ v2
  let v2 := v2.rotateLeft 32
  (v0, v1, v2, v3)

def sipWord (v : BitVec 64 × BitVec 64 × BitVec 64 × BitVec 64) (value : BitVec 64) :
    BitVec 64 × BitVec 64 × BitVec 64 × BitVec 64 :=
  let (v0, v1, v2, v3) := v
  let (v0, v1, v2, v3) := sipRound (v0, v1, v2, v3 ^^^ value)
  (v0 ^^^ value, v1, v2, v3)

def rngDrand48StringSeed (input : List Octet) : BitVec 64 :=
  let key := labelOctets "Perl srand 48 v1"
  let words := input.length / 8
  let v := (u8to64Le key 0 ^^^ 0x736f6d6570736575, u8to64Le key 8 ^^^ 0x646f72616e646f6d,
    u8to64Le key 0 ^^^ 0x6c7967656e657261, u8to64Le key 8 ^^^ 0x7465646279746573)
  let v := (List.range words).foldl (fun v i => sipWord v (u8to64Le input (8 * i))) v
  let b := BitVec.ofNat 64 input.length <<< 56 |||
    octetsLe 64 input (8 * words) (input.length % 8)
  let (v0, v1, v2, v3) := sipWord v b
  let (v0, v1, v2, v3) := sipRound (sipRound (sipRound (v0, v1, v2 ^^^ 0xff, v3)))
  v0 ^^^ v1 ^^^ v2 ^^^ v3

def u32Max : BitVec 64 := 0xffffffff

def drand48Mask : BitVec 64 := 0xffffffffffff

def rngDrand48Seed (isBuiltin : Bool) : Seed → Except String (BitVec 64)
  | .missing entropy =>
    .ok (u8to64Le (weakEntropy entropy 8) 0 &&& if isBuiltin then u32Max else drand48Mask)
  | .redacted => .error "Cannot use a redacted RNG seed"
  | .raw octets => do
    let rawLength := if isBuiltin then 4 else 6
    rngRequireRawSeedLength octets.length rawLength
      (if isBuiltin then "built-in Drand48" else "RNG::Drand48")
    return octetsLe 64 octets 0 rawLength
  | .text octets =>
    match rngDrand48DecimalSeed octets with
    | some numeric =>
      .ok (BitVec.ofNat 64 numeric &&& if isBuiltin then u32Max else drand48Mask)
    | none => .ok (rngDrand48StringSeed octets &&& u32Max)

/-- `rng_drand48_data`, and the state of the built-in generator. -/
structure RngDrand48Data where
  state : BitVec 64

def drand48Next (value : RngDrand48Data) : RngDrand48Data :=
  ⟨(value.state * 0x5deece66d + 0xb) &&& drand48Mask⟩

def drand48Seed (seed : BitVec 64) : RngDrand48Data :=
  ⟨if seed ≤ u32Max then 0x330e + seed <<< 16 else seed &&& drand48Mask⟩

/-- The loop of `drand48_fill_bytes`: the low octet of a word first. -/
def drand48FillBytes : Nat → RngDrand48Data → Nat → RngDrand48Data × List Octet
  | 0, value, _ => (value, [])
  | fuel + 1, value, length =>
    if length = 0 then (value, [])
    else
      let value := drand48Next value
      let word := value.state >>> 16
      let octets := (List.range 4).map fun i => (word >>> (8 * i)).setWidth 8
      let rest := drand48FillBytes fuel value (length - 4)
      (rest.1, octets.take length ++ rest.2)

/-- The loop of `_legacy_rand_bytes`: an octet of each state. -/
def legacyRandBytes : Nat → RngDrand48Data → RngDrand48Data × List Octet
  | 0, value => (value, [])
  | length + 1, value =>
    let value := drand48Next value
    let rest := legacyRandBytes length value
    (rest.1, (value.state >>> 40).setWidth 8 :: rest.2)

/-- The answers of both generators; a number is a multiple of `2 ^ -48`. -/
def drand48Answer (isBuiltin : Bool) (value : RngDrand48Data) : Request → RngDrand48Data × Answer
  | .u01 => (drand48Next value, .u01 (drand48Next value).state)
  | .bytes length =>
    let filled := if isBuiltin then legacyRandBytes length value
      else drand48FillBytes length value length
    (filled.1, .bytes filled.2)

/-- `_srand` of `RNG::Drand48`, and `_legacy_srand`. -/
def drand48Srand (isBuiltin : Bool) (_ : RngDrand48Data) (seed : Seed) :
    Except String (RngDrand48Data × Seed) := do
  let value ← rngDrand48Seed isBuiltin seed
  let state := if isBuiltin then ⟨0x330e + value <<< 16⟩ else drand48Seed value
  return (state, .text (rngDrand48NumericSeed value.toNat))

end XPerl.Rng
