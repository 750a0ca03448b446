import XPerl.Framework.Stream
import XPerl.Rng.Replay

/-! The buffers that the providers fill with octets. -/

namespace XPerl.Rng

open XPerl.Framework.Stream

section Words

variable {σ : Type} (next : σ → σ × BitVec 64)

/-- The inner loop of `pcg_fill_bytes` from `i` on, with `left` words of `i` to come: the offset and
the buffer behind it. -/
def fillWord (word : BitVec 64) (length : Nat) : Nat → Nat → Nat → List Octet → Nat × List Octet
  | 0, _, offset, bytes => (offset, bytes)
  | left + 1, i, offset, bytes =>
    if offset < length then
      fillWord word length left (i + 1) (offset + 1)
        (bytes.set offset ((word >>> (56 - 8 * i)).setWidth 8))
    else (offset, bytes)

def fillWordsFrom (length : Nat) : Nat → σ → Nat → List Octet → σ × List Octet
  | 0, state, _, bytes => (state, bytes)
  | fuel + 1, state, offset, bytes =>
    if offset < length then
      let word := next state
      let filled := fillWord word.2 length 8 0 offset bytes
      fillWordsFrom length fuel word.1 filled.1 filled.2
    else (state, bytes)

/-- The `fill_bytes` function of a provider of 64-bit words. -/
def fillWords (state : σ) (length : Nat) (bytes : List Octet) : σ × List Octet :=
  fillWordsFrom next length length state 0 bytes

def pcgFillBytes : PcgData → Nat → List Octet → PcgData × List Octet := fillWords pcgNextU64

def pcgRxsMXsFillBytes : PcgRxsMXsData → Nat → List Octet → PcgRxsMXsData × List Octet :=
  fillWords pcgRxsMXsNext

def pcgXslRrFillBytesLcg : PcgXslRrData → Nat → List Octet → PcgXslRrData × List Octet :=
  fillWords pcgXslRrNextLcg

def pcgXslRrFillBytesMcg : PcgXslRrData → Nat → List Octet → PcgXslRrData × List Octet :=
  fillWords pcgXslRrNextMcg

def wyrandFillBytes : WyrandData → Nat → List Octet → WyrandData × List Octet :=
  fillWords wyrandNext

def xoshiroFillBytes : XoshiroData → Nat → List Octet → XoshiroData × List Octet :=
  fillWords xoshiroNext

def wordBlock (state : σ) : σ × List Octet := ((next state).1, wordOctets (next state).2)

theorem length_wordBlock (state : σ) : (wordBlock next state).2.length = 8 := by
  rw [wordBlock, wordOctets, List.length_map, List.length_range]

def octetsFrom (word : BitVec 64) (left i : Nat) : List Octet :=
  (List.range' i left).map fun i => (word >>> (56 - 8 * i)).setWidth 8

theorem octetsFrom_zero (word : BitVec 64) : octetsFrom word 8 0 = wordOctets word := by
  rw [octetsFrom, wordOctets, List.range_eq_range']

variable {bytes : List Octet}

theorem fillWord_eq (word : BitVec 64) (length : Nat) {offset : Nat}
    (hoffset : offset ≤ length) (hbytes : length ≤ bytes.length) (left i : Nat) :
    fillWord word length left i offset bytes = (min (offset + left) length,
      overwrite offset ((octetsFrom word left i).take (length - offset)) bytes) := by
  induction left generalizing i offset bytes with
  | zero =>
    rw [fillWord, octetsFrom, List.range'_zero, List.map_nil, List.take_nil, overwrite_nil,
      Nat.add_zero, Nat.min_eq_left hoffset]
  | succ left ih =>
    rw [fillWord]
    by_cases hlt : offset < length
    · have hroom : length - offset = length - (offset + 1) + 1 := by omega
      have hend : min (offset + 1 + left) length = min (offset + (left + 1)) length := by omega
      rw [if_pos hlt, ih hlt (by rw [List.length_set]; exact hbytes), hend,
        overwrite_cons (by omega), octetsFrom, octetsFrom, List.range'_succ, List.map_cons, hroom,
        List.take_succ_cons]
    · have hzero : length - offset = 0 := by omega
      rw [if_neg hlt, hzero, List.take_zero, overwrite_nil]
      exact Prod.ext (by omega) rfl

variable {next}

theorem fillWords_eq (state : σ) {length : Nat}
    (hbytes : length ≤ bytes.length) :
    fillWords next state length bytes = ((filled (wordBlock next) 8 length state).1,
      (filled (wordBlock next) 8 length state).2 ++ bytes.drop length) := by
  have hdone : ∀ fuel s offset bytes, length ≤ offset →
      fillWordsFrom next length fuel s offset bytes = (s, bytes) := by
    intro fuel s offset bytes hle
    cases fuel with
    | zero => rfl
    | succ fuel => exact if_neg (by omega)
  have hstep : ∀ fuel s offset bytes, offset < length → length ≤ bytes.length →
      fillWordsFrom next length (fuel + 1) s offset bytes =
        fillWordsFrom next length fuel (wordBlock next s).1 (min (offset + 8) length)
          (overwrite offset ((wordBlock next s).2.take (length - offset)) bytes) := by
    intro fuel s offset bytes hlt hle
    rw [fillWordsFrom, if_pos hlt]
    dsimp only
    rw [fillWord_eq _ _ (Nat.le_of_lt hlt) hle, octetsFrom_zero]
    rfl
  rw [fillWords, run_eq_filled (length_wordBlock next) (by decide) _ hdone hstep
    (Nat.sub_le length 0) hbytes state, overwrite, List.take_zero, List.nil_append, Nat.zero_add,
    Nat.sub_zero, length_filled (length_wordBlock next) (by decide)]

end Words

/-- The `switch` of `drand48_fill_bytes` entered at a case: every case falls into the next one. -/
def drand48Case : Nat → BitVec 32 → Nat → List Octet → Nat × List Octet
  | 0, _, offset, bytes => (offset, bytes)
  | label + 1, word, offset, bytes =>
    drand48Case label (word >>> 8) (offset + 1) (bytes.set offset ((word &&& 0xff).setWidth 8))

/-- The case that a number of octets to copy selects; `default` stands in front of all others. -/
def drand48Label (bytesToCopy : Nat) : Nat :=
  if bytesToCopy = 3 then 3 else if bytesToCopy = 2 then 2 else if bytesToCopy = 1 then 1 else 4

def drand48NextU32 (state : RngDrand48Data) : RngDrand48Data × BitVec 32 :=
  (drand48Next state, ((drand48Next state).state >>> 16).setWidth 32)

def drand48FillFrom (length : Nat) :
    Nat → RngDrand48Data → Nat → List Octet → RngDrand48Data × List Octet
  | 0, state, _, bytes => (state, bytes)
  | fuel + 1, state, offset, bytes =>
    if offset < length then
      let word := drand48NextU32 state
      let copied := drand48Case (drand48Label (length - offset)) word.2 offset bytes
      drand48FillFrom length fuel word.1 copied.1 copied.2
    else (state, bytes)

def drand48Fill (state : RngDrand48Data) (length : Nat) (bytes : List Octet) :
    RngDrand48Data × List Octet := drand48FillFrom length length state 0 bytes

def drand48Block (state : RngDrand48Data) : RngDrand48Data × List Octet :=
  (drand48Next state,
    (List.range 4).map fun i => ((drand48Next state).state >>> 16 >>> (8 * i)).setWidth 8)

theorem length_drand48Block (state : RngDrand48Data) : (drand48Block state).2.length = 4 := by
  rw [drand48Block, List.length_map, List.length_range]

def caseOctets : Nat → BitVec 32 → List Octet
  | 0, _ => []
  | label + 1, word => (word &&& 0xff).setWidth 8 :: caseOctets label (word >>> 8)

theorem length_caseOctets (label : Nat) (word : BitVec 32) :
    (caseOctets label word).length = label := by
  induction label generalizing word with
  | zero => rfl
  | succ label ih => rw [caseOctets, List.length_cons, ih]

variable {bytes output : List Octet} {length : Nat}

theorem drand48Case_eq (label : Nat) (word : BitVec 32) {offset : Nat}
    (h : offset + label ≤ bytes.length) :
    drand48Case label word offset bytes =
      (offset + label, overwrite offset (caseOctets label word) bytes) := by
  induction label generalizing word offset bytes with
  | zero => rw [drand48Case, caseOctets, overwrite_nil, Nat.add_zero]
  | succ label ih =>
    have hset : offset + 1 + label ≤ (bytes.set offset ((word &&& 0xff).setWidth 8)).length := by
      rw [List.length_set]
      omega
    rw [drand48Case, ih _ hset, overwrite_cons (by omega), caseOctets, Nat.add_right_comm,
      Nat.add_assoc]

theorem take_caseOctets {n label : Nat} (hn : n ≤ label) (word : BitVec 32) :
    (caseOctets label word).take n = caseOctets n word := by
  induction n generalizing label word with
  | zero => rw [List.take_zero, caseOctets]
  | succ n ih =>
    cases label with
    | zero => omega
    | succ label =>
      rw [caseOctets, caseOctets, List.take_succ_cons, ih (Nat.le_of_succ_le_succ hn)]

theorem drand48Label_eq {bytesToCopy : Nat} (hpos : 0 < bytesToCopy) :
    drand48Label bytesToCopy = min bytesToCopy 4 := by
  rw [drand48Label]
  split_ifs <;> omega

theorem setWidth_and_octet (x : BitVec 32) : (x &&& 0xff).setWidth 8 = x.setWidth 8 := by
  apply BitVec.eq_of_toNat_eq
  have hmask : (0xff : BitVec 32).toNat = 2 ^ 8 - 1 := rfl
  rw [BitVec.toNat_setWidth, BitVec.toNat_setWidth, BitVec.toNat_and, hmask,
    Nat.and_two_pow_sub_one_eq_mod, Nat.mod_mod]

theorem setWidth_shift (x : BitVec 64) {k : Nat} (hk : k ∈ [0, 8, 16, 24]) :
    (x.setWidth 32 >>> k).setWidth 8 = (x >>> k).setWidth 8 := by
  apply BitVec.eq_of_toNat_eq
  rw [BitVec.toNat_setWidth, BitVec.toNat_setWidth, BitVec.toNat_ushiftRight,
    BitVec.toNat_ushiftRight, BitVec.toNat_setWidth, Nat.shiftRight_eq_div_pow,
    Nat.shiftRight_eq_div_pow]
  simp only [List.mem_cons, List.not_mem_nil, or_false] at hk
  rcases hk with rfl | rfl | rfl | rfl <;> omega

theorem caseOctets_four (state : RngDrand48Data) :
    caseOctets 4 (drand48NextU32 state).2 = (drand48Block state).2 := by
  have hword : (drand48NextU32 state).2 = ((drand48Next state).state >>> 16).setWidth 32 := rfl
  rw [drand48Block, hword]
  generalize (drand48Next state).state >>> 16 = word
  have hzero : (word.setWidth 32).setWidth 8 = (word >>> 0).setWidth 8 := by
    have hshift := setWidth_shift word (show 0 ∈ [0, 8, 16, 24] by decide)
    rw [BitVec.ushiftRight_zero] at hshift
    exact hshift
  have hrange : List.range 4 = [0, 1, 2, 3] := rfl
  rw [hrange]
  simp only [caseOctets, setWidth_and_octet, ← BitVec.shiftRight_add, List.map_cons, List.map_nil]
  rw [hzero, setWidth_shift word (by decide), setWidth_shift word (by decide),
    setWidth_shift word (by decide)]

theorem drand48Fill_eq (state : RngDrand48Data)
    (hbytes : length ≤ bytes.length) :
    drand48Fill state length bytes = ((filled drand48Block 4 length state).1,
      (filled drand48Block 4 length state).2 ++ bytes.drop length) := by
  have hdone : ∀ fuel s offset bytes, length ≤ offset →
      drand48FillFrom length fuel s offset bytes = (s, bytes) := by
    intro fuel s offset bytes hle
    cases fuel with
    | zero => rfl
    | succ fuel => exact if_neg (by omega)
  have hstep : ∀ fuel s offset bytes, offset < length → length ≤ bytes.length →
      drand48FillFrom length (fuel + 1) s offset bytes =
        drand48FillFrom length fuel (drand48Block s).1 (min (offset + 4) length)
          (overwrite offset ((drand48Block s).2.take (length - offset)) bytes) := by
    intro fuel s offset bytes hlt hle
    have hlabel := drand48Label_eq (Nat.sub_pos_of_lt hlt)
    have hoctets : caseOctets (drand48Label (length - offset)) (drand48NextU32 s).2 =
        (drand48Block s).2.take (length - offset) := by
      rw [← caseOctets_four, hlabel]
      by_cases hfour : length - offset ≤ 4
      · rw [Nat.min_eq_left hfour, take_caseOctets hfour]
      · rw [Nat.min_eq_right (by omega), List.take_of_length_le]
        rw [length_caseOctets]
        omega
    have hend : offset + drand48Label (length - offset) = min (offset + 4) length := by omega
    rw [drand48FillFrom, if_pos hlt]
    dsimp only
    rw [drand48Case_eq _ _ (by omega), hoctets, hend]
    rfl
  rw [drand48Fill, run_eq_filled length_drand48Block (by decide) _ hdone hstep
    (Nat.sub_le length 0) hbytes state, overwrite, List.take_zero, List.nil_append, Nat.zero_add,
    Nat.sub_zero, length_filled length_drand48Block (by decide)]

/-- The loop of `hmac_drbg_generate` on the output. -/
def generateFrom (key : List Octet) (length : Nat) :
    Nat → List Octet → Nat → List Octet → List Octet × List Octet
  | 0, value, _, output => (value, output)
  | fuel + 1, value, offset, output =>
    if offset < length then
      let value := hmacSha256Octets key value none none
      let copyLength := if length - offset > 32 then 32 else length - offset
      generateFrom key length fuel value (offset + copyLength)
        (overwrite offset (value.take copyLength) output)
    else (value, output)

def hmacDrbgFill (additional : Option (List Octet)) (state : HmacDrbgData) (length : Nat)
    (output : List Octet) : HmacDrbgData × List Octet :=
  let state := if additional.isSome ∧ (additional.getD []).length ≠ 0 then
    hmacDrbgUpdate state additional else state
  let loop := generateFrom state.key length length state.value 0 output
  let state := hmacDrbgUpdate { state with value := loop.1 } additional
  ({ state with reseedCounter := state.reseedCounter + 1 }, loop.2)

def valueBlock (key value : List Octet) : List Octet × List Octet :=
  (hmacSha256Octets key value none none, hmacSha256Octets key value none none)

theorem length_valueBlock (key value : List Octet) : (valueBlock key value).2.length = 32 := rfl

theorem generateFrom_eq (key value : List Octet)
    (houtput : length ≤ output.length) :
    generateFrom key length length value 0 output = ((filled (valueBlock key) 32 length value).1,
      (filled (valueBlock key) 32 length value).2 ++ output.drop length) := by
  have hdone : ∀ fuel value offset output, length ≤ offset →
      generateFrom key length fuel value offset output = (value, output) := by
    intro fuel value offset output hle
    cases fuel with
    | zero => rfl
    | succ fuel => exact if_neg (by omega)
  have hstep : ∀ fuel value offset output, offset < length → length ≤ output.length →
      generateFrom key length (fuel + 1) value offset output =
        generateFrom key length fuel (valueBlock key value).1 (min (offset + 32) length)
          (overwrite offset ((valueBlock key value).2.take (length - offset)) output) := by
    intro fuel value offset output hlt _
    rw [generateFrom, if_pos hlt, valueBlock]
    have hvalue : (hmacSha256Octets key value none none).length = 32 := rfl
    generalize hmacSha256Octets key value none none = next at hvalue ⊢
    dsimp only
    by_cases hlong : length - offset > 32
    · have hall : next.take (length - offset) = next := List.take_of_length_le (by omega)
      have hcopied : next.take 32 = next := List.take_of_length_le (by omega)
      rw [if_pos hlong, hall, hcopied, Nat.min_eq_left (by omega)]
    · have hend : offset + (length - offset) = min (offset + 32) length := by omega
      rw [if_neg hlong, hend]
  rw [run_eq_filled (length_valueBlock key) (by decide) _ hdone hstep (Nat.sub_le length 0) houtput
    value, overwrite, List.take_zero, List.nil_append, Nat.zero_add, Nat.sub_zero,
    length_filled (length_valueBlock key) (by decide)]

theorem generateLoop_eq (key value : List Octet) (length : Nat) :
    generateLoop key length value length = filled (valueBlock key) 32 length value := by
  refine eq_filled (length_valueBlock key) (by decide) (generateLoop key) ?_ ?_ (Nat.le_refl _)
    value
  · intro fuel value
    cases fuel with
    | zero => rfl
    | succ fuel => rfl
  · intro fuel value length hlength
    rw [generateLoop, if_neg (by omega), valueBlock]
    have hvalue : (hmacSha256Octets key value none none).length = 32 := rfl
    generalize hmacSha256Octets key value none none = next at hvalue ⊢
    dsimp only
    by_cases hlong : length > 32
    · have hall : next.take length = next := List.take_of_length_le (by omega)
      have hcopied : next.take 32 = next := List.take_of_length_le (by omega)
      rw [if_pos hlong, hall, hcopied]
    · have hrest : length - length = length - 32 := by omega
      rw [if_neg hlong, hrest]

theorem hmacDrbgFill_eq (additional : Option (List Octet)) (state : HmacDrbgData)
    (houtput : length ≤ output.length) :
    hmacDrbgFill additional state length output =
      ((hmacDrbgGenerate state length additional).1,
        (hmacDrbgGenerate state length additional).2 ++ output.drop length) := by
  rw [hmacDrbgFill, hmacDrbgGenerate]
  dsimp only
  rw [generateFrom_eq _ _ houtput, generateLoop_eq]

section Streams

variable {σ : Type}

/-- A routine writes exactly as many octets as it is asked for, and they are the first ones of what
it writes when it is asked for more. -/
structure Streams (fill : σ → Nat → List Octet → σ × List Octet) : Prop where
  exact_length : ∀ state n bytes, n ≤ bytes.length →
    ∃ octets, octets.length = n ∧ (fill state n bytes).2 = octets ++ bytes.drop n
  initial : ∀ state n m, n ≤ m → ∀ bytes bytes', n ≤ bytes.length → m ≤ bytes'.length →
    (fill state n bytes).2.take n = (fill state m bytes').2.take n

/-- Behind whole words a second call gives what one call gives, octets and state. -/
def Resumes (width : Nat) (fill : σ → Nat → List Octet → σ × List Octet) : Prop :=
  ∀ state n k, width ∣ n → ∀ first second whole, n ≤ first.length → k ≤ second.length →
    n + k ≤ whole.length →
    (fill (fill state n first).1 k second).1 = (fill state (n + k) whole).1 ∧
      (fill state n first).2.take n ++ (fill (fill state n first).1 k second).2.take k =
        (fill state (n + k) whole).2.take (n + k)

theorem streams_of_octets {fill : σ → Nat → List Octet → σ × List Octet}
    (octets : σ → Nat → List Octet) (hlen : ∀ state n, (octets state n).length = n)
    (htake : ∀ state n m, n ≤ m → octets state n = (octets state m).take n)
    (hfill : ∀ state n bytes, n ≤ bytes.length →
      (fill state n bytes).2 = octets state n ++ bytes.drop n) : Streams fill := by
  refine ⟨fun state n bytes hbytes => ⟨octets state n, hlen state n, hfill state n bytes hbytes⟩,
    fun state n m hle bytes bytes' hbytes hbytes' => ?_⟩
  rw [hfill state n bytes hbytes, hfill state m bytes' hbytes',
    List.take_append_of_le_length (Nat.le_of_eq (hlen state n).symm),
    List.take_append_of_le_length (hle.trans (Nat.le_of_eq (hlen state m).symm)), ← htake _ _ _ hle,
    List.take_of_length_le (Nat.le_of_eq (hlen state n))]

variable {block : σ → σ × List Octet} {width : Nat}
  {fill : σ → Nat → List Octet → σ × List Octet}

theorem streams_of_filled (hwidth : ∀ s, (block s).2.length = width) (hpos : 0 < width)
    (hfill : ∀ state n bytes, n ≤ bytes.length →
      fill state n bytes =
        ((filled block width n state).1, (filled block width n state).2 ++ bytes.drop n)) :
    Streams fill := by
  refine streams_of_octets (fun state n => (filled block width n state).2)
    (fun state n => length_filled hwidth hpos n state)
    (fun state n m hle => filled_take hwidth hpos hle state) fun state n bytes hbytes => ?_
  rw [hfill state n bytes hbytes]

theorem resumes_of_filled (hwidth : ∀ s, (block s).2.length = width) (hpos : 0 < width)
    (hfill : ∀ state n bytes, n ≤ bytes.length →
      fill state n bytes =
        ((filled block width n state).1, (filled block width n state).2 ++ bytes.drop n)) :
    Resumes width fill := by
  intro state n k hdvd first second whole hfirst hsecond hwhole
  have htake (n : Nat) (s : σ) (bytes : List Octet) :
      ((filled block width n s).2 ++ bytes.drop n).take n = (filled block width n s).2 :=
    List.take_left' (length_filled hwidth hpos n s)
  rw [hfill _ _ _ hfirst, hfill _ _ _ hwhole]
  dsimp only
  rw [hfill _ _ _ hsecond, htake, htake, htake, filled_append hwidth hpos hdvd]
  exact ⟨rfl, rfl⟩

theorem fillWords_streams (next : σ → σ × BitVec 64) : Streams (fillWords next) :=
  streams_of_filled (length_wordBlock next) (by decide) fun state _ _ hbytes =>
    fillWords_eq state hbytes

theorem fillWords_resumes (next : σ → σ × BitVec 64) : Resumes 8 (fillWords next) :=
  resumes_of_filled (length_wordBlock next) (by decide) fun state _ _ hbytes =>
    fillWords_eq state hbytes

theorem hmacDrbgFill_streams (additional : Option (List Octet)) :
    Streams (hmacDrbgFill additional) := by
  let prepared (state : HmacDrbgData) : HmacDrbgData :=
    if additional.isSome ∧ (additional.getD []).length ≠ 0 then hmacDrbgUpdate state additional
    else state
  refine streams_of_octets
    (fun state n => (filled (valueBlock (prepared state).key) 32 n (prepared state).value).2)
    (fun state n => length_filled (length_valueBlock _) (by decide) n _)
    (fun state n m hle => filled_take (length_valueBlock _) (by decide) hle _)
    fun state n output houtput => ?_
  rw [hmacDrbgFill_eq additional state houtput, hmacDrbgGenerate]
  dsimp only
  rw [generateLoop_eq]

/-- Every provider fills a buffer with the first octets of one stream, and the generators that are
not cryptographic go on behind whole words. -/
theorem fill_bytes_stream (additional : Option (List Octet)) :
    Streams pcgFillBytes ∧ Streams pcgRxsMXsFillBytes ∧ Streams pcgXslRrFillBytesLcg ∧
      Streams pcgXslRrFillBytesMcg ∧ Streams wyrandFillBytes ∧ Streams xoshiroFillBytes ∧
      Streams drand48Fill ∧ Streams (hmacDrbgFill additional) ∧
      Resumes 8 pcgFillBytes ∧ Resumes 8 pcgRxsMXsFillBytes ∧ Resumes 8 pcgXslRrFillBytesLcg ∧
      Resumes 8 pcgXslRrFillBytesMcg ∧ Resumes 8 wyrandFillBytes ∧ Resumes 8 xoshiroFillBytes ∧
      Resumes 4 drand48Fill :=
  ⟨fillWords_streams _, fillWords_streams _, fillWords_streams _, fillWords_streams _,
    fillWords_streams _, fillWords_streams _,
    streams_of_filled length_drand48Block (by decide) fun state _ _ hbytes =>
      drand48Fill_eq state hbytes,
    hmacDrbgFill_streams additional, fillWords_resumes _, fillWords_resumes _, fillWords_resumes _,
    fillWords_resumes _, fillWords_resumes _, fillWords_resumes _,
    resumes_of_filled length_drand48Block (by decide) fun state _ _ hbytes =>
      drand48Fill_eq state hbytes⟩

end Streams

end XPerl.Rng
