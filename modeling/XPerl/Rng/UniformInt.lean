import Mathlib.Data.Set.Card
import XPerl.Framework.PlaceValue
import XPerl.Rng.Digest

/-! `uniform_int` of `RNG.pm`. -/

namespace XPerl.Rng

open XPerl.Framework.PlaceValue

def rangeBits (bound : Nat) : Nat → Nat → Nat → Nat
  | 0, _, bits => bits
  | fuel + 1, range, bits =>
    if range < bound then rangeBits bound fuel (range * 2) (bits + 1) else bits

/-- What `uniform_int` sets up for a bound: the octets of a string, the bits that are too many and
the mask of the first octet. -/
structure Draw where
  bits : Nat
  bytes : Nat
  excess : Nat
  mask : Nat

def drawFor (bound : Nat) : Draw :=
  let bits := rangeBits bound bound 1 0
  let bytes := (bits + 7) / 8
  let excess := bytes * 8 - bits
  { bits, bytes, excess, mask := if excess ≠ 0 then 255 >>> excess else 255 }

def Draw.value (draw : Draw) (raw : List Octet) : Nat :=
  let value := (raw.getD 0 0).toNat &&& draw.mask
  if draw.bytes > 1 then
    (List.range' 1 (draw.bytes - 1)).foldl (fun value i => value * 256 + (raw.getD i 0).toNat) value
  else value

/-- The loop of `uniform_int` on the strings that `rand_bytes` gives, with those it leaves;
nothing while no string is accepted. -/
def Draw.loop (draw : Draw) (bound : Nat) :
    List (List Octet) → Option (Nat × List (List Octet))
  | [] => none
  | raw :: strings =>
    if draw.value raw < bound then some (draw.value raw, strings) else draw.loop bound strings

def uniformInt (bound : Nat) (strings : List (List Octet)) :
    Except String (Option (Nat × List (List Octet))) :=
  if ¬ 1 ≤ bound then .error "RNG::uniform_int() requires a positive integer bound"
  else if bound = 1 then .ok (some (0, strings))
  else .ok ((drawFor bound).loop bound strings)

section Bits

theorem rangeBits_spec {bound : Nat} (fuel bits : Nat) (hfuel : bound ≤ fuel + 2 ^ bits)
    (hbelow : bits = 0 ∨ 2 ^ (bits - 1) < bound) :
    bound ≤ 2 ^ rangeBits bound fuel (2 ^ bits) bits ∧
      (rangeBits bound fuel (2 ^ bits) bits = 0 ∨
        2 ^ (rangeBits bound fuel (2 ^ bits) bits - 1) < bound) := by
  induction fuel generalizing bits with
  | zero =>
    rw [rangeBits]
    exact ⟨by omega, hbelow⟩
  | succ fuel ih =>
    rw [rangeBits]
    by_cases hlt : 2 ^ bits < bound
    · have hpos : 0 < 2 ^ bits := Nat.two_pow_pos bits
      rw [if_pos hlt, ← Nat.pow_succ]
      apply ih
      · rw [Nat.pow_succ]
        omega
      · exact Or.inr hlt
    · rw [if_neg hlt]
      exact ⟨by omega, hbelow⟩

variable {bound : Nat}

theorem drawFor_bits (h : 2 ≤ bound) :
    bound ≤ 2 ^ (drawFor bound).bits ∧ 2 ^ (drawFor bound).bits < 2 * bound ∧
      0 < (drawFor bound).bits := by
  have hspec := rangeBits_spec bound 0 (Nat.le_add_right bound _) (Or.inl rfl)
  rw [Nat.pow_zero] at hspec
  have hbits : (drawFor bound).bits = rangeBits bound bound 1 0 := rfl
  rw [← hbits] at hspec
  obtain ⟨hle, hbelow⟩ := hspec
  cases hcase : (drawFor bound).bits with
  | zero =>
    rw [hcase, Nat.pow_zero] at hle
    omega
  | succ k =>
    rw [hcase] at hle hbelow
    rw [Nat.add_sub_cancel] at hbelow
    refine ⟨hle, ?_, Nat.succ_pos k⟩
    rcases hbelow with hzero | hlt
    · omega
    · rw [Nat.pow_succ]
      omega

theorem drawFor_bytes (bound : Nat) :
    8 * (drawFor bound).bytes = (drawFor bound).bits + (drawFor bound).excess ∧
      (drawFor bound).excess < 8 := by
  have hbytes : (drawFor bound).bytes = ((drawFor bound).bits + 7) / 8 := rfl
  have hexcess : (drawFor bound).excess = (drawFor bound).bytes * 8 - (drawFor bound).bits := rfl
  omega

theorem drawFor_mask (bound : Nat) :
    (drawFor bound).mask = 2 ^ (8 - (drawFor bound).excess) - 1 := by
  have hmask : (drawFor bound).mask =
      if (drawFor bound).excess ≠ 0 then 255 >>> (drawFor bound).excess else 255 := rfl
  have hlt := (drawFor_bytes bound).2
  rw [hmask]
  generalize (drawFor bound).excess = excess at hlt ⊢
  revert hlt
  revert excess
  decide

end Bits

section Strings

def stringValue (raw : List Octet) : Nat := readFrom 256 0 (raw.map BitVec.toNat)

theorem numeral_toNat (raw : List Octet) : Numeral 256 (raw.map BitVec.toNat) := by
  intro d hd
  obtain ⟨o, -, rfl⟩ := List.mem_map.1 hd
  exact o.isLt

theorem foldl_indexes (first : Octet) (rest : List Octet) (value : Nat) :
    (List.range' 1 rest.length).foldl
        (fun value i => value * 256 + ((first :: rest).getD i 0).toNat) value =
      readFrom 256 value (rest.map BitVec.toNat) := by
  induction rest using List.reverseRecOn with
  | nil => rfl
  | append_singleton rest o ih =>
    have hlast : (first :: (rest ++ [o])).getD (1 + rest.length) 0 = o := by
      simp [List.getD, Nat.add_comm 1]
    have hbefore : (List.range' 1 rest.length).foldl
        (fun value i => value * 256 + ((first :: (rest ++ [o])).getD i 0).toNat) value =
        (List.range' 1 rest.length).foldl
          (fun value i => value * 256 + ((first :: rest).getD i 0).toNat) value := by
      apply List.foldl_ext
      intro value i hi
      have hlt : i < (first :: rest).length := by
        rw [List.mem_range'_1] at hi
        rw [List.length_cons]
        omega
      rw [← List.cons_append, List.getD_eq_getElem?_getD, List.getD_eq_getElem?_getD,
        List.getElem?_append_left hlt]
    rw [List.length_append, List.length_singleton, List.range'_concat, List.foldl_append, hbefore, ih,
      List.map_append, readFrom_append]
    simp only [List.foldl_cons, List.foldl_nil, List.map_cons, List.map_nil, readFrom_cons,
      readFrom_nil, Nat.one_mul, hlast]

variable {bound : Nat}

theorem value_eq (h : 2 ≤ bound) {raw : List Octet} (hraw : raw.length = (drawFor bound).bytes) :
    (drawFor bound).value raw = stringValue raw % 2 ^ (drawFor bound).bits := by
  obtain ⟨hbytes, hexcess⟩ := drawFor_bytes bound
  obtain ⟨-, -, hbits⟩ := drawFor_bits h
  cases raw with
  | nil =>
    rw [List.length_nil] at hraw
    omega
  | cons first rest =>
    rw [List.length_cons] at hraw
    have hfirst : first.toNat &&& (drawFor bound).mask =
        first.toNat % 2 ^ (8 - (drawFor bound).excess) := by
      rw [drawFor_mask, Nat.and_two_pow_sub_one_eq_mod]
    have hread : (drawFor bound).value (first :: rest) =
        readFrom 256 (first.toNat % 2 ^ (8 - (drawFor bound).excess)) (rest.map BitVec.toNat) := by
      rw [Draw.value, List.getD_cons_zero, hfirst, ← hraw, Nat.add_sub_cancel, foldl_indexes]
      by_cases hmore : rest.length + 1 > 1
      · rw [if_pos hmore]
      · rw [if_neg hmore, List.eq_nil_of_length_eq_zero (by omega : rest.length = 0)]
        rfl
    have hrest : readFrom 256 0 (rest.map BitVec.toNat) <
        (0 + 1) * 256 ^ (rest.map BitVec.toNat).length := readFrom_lt (numeral_toNat rest)
    rw [Nat.zero_add, Nat.one_mul] at hrest
    have hrange : 2 ^ (drawFor bound).bits =
        256 ^ (rest.map BitVec.toNat).length * 2 ^ (8 - (drawFor bound).excess) := by
      rw [show 256 = 2 ^ 8 from rfl, ← Nat.pow_mul, ← Nat.pow_add, List.length_map]
      congr 1
      omega
    rw [hread, stringValue, List.map_cons, readFrom_cons, Nat.zero_mul, Nat.zero_add,
      readFrom_eq_add, readFrom_eq_add 256 first.toNat, hrange, Nat.mod_mul,
      Nat.mul_add_mod_of_lt hrest, Nat.mul_comm first.toNat, Nat.mul_add_div (by omega),
      Nat.div_eq_of_lt hrest, Nat.add_zero, Nat.mul_comm, Nat.add_comm]

def stringOf (n v : Nat) : List Octet := (digits 256 n v).map (BitVec.ofNat 8)

theorem length_stringOf (n v : Nat) : (stringOf n v).length = n := by
  rw [stringOf, List.length_map, length_digits]

theorem stringValue_stringOf (n v : Nat) : stringValue (stringOf n v) = v % 256 ^ n := by
  have hdigits : ((digits 256 n v).map (BitVec.ofNat 8)).map BitVec.toNat = digits 256 n v := by
    rw [List.map_map]
    refine (List.map_congr_left fun d hd => ?_).trans (List.map_id _)
    exact (BitVec.toNat_ofNat d 8).trans (Nat.mod_eq_of_lt (numeral_digits (by decide) n v d hd))
  rw [stringValue, stringOf, hdigits, readFrom_digits, Nat.zero_mul, Nat.zero_add]

theorem stringOf_stringValue (raw : List Octet) : stringOf raw.length (stringValue raw) = raw := by
  have hdigits := digits_readFrom (numeral_toNat raw) 0
  rw [List.length_map] at hdigits
  rw [stringOf, stringValue, hdigits, List.map_map]
  apply List.map_id''
  intro o
  exact (BitVec.ofNat_toNat 8 o).trans (BitVec.setWidth_eq o)

theorem stringValue_lt (raw : List Octet) : stringValue raw < 256 ^ raw.length := by
  have hlt : stringValue raw < (0 + 1) * 256 ^ (raw.map BitVec.toNat).length :=
    readFrom_lt (numeral_toNat raw)
  rw [Nat.zero_add, Nat.one_mul, List.length_map] at hlt
  exact hlt

theorem ncard_remainder {n bits v : Nat} (hbits : bits ≤ 8 * n) (hv : v < 2 ^ bits) :
    {raw : List Octet | raw.length = n ∧ stringValue raw % 2 ^ bits = v}.ncard =
      2 ^ (8 * n - bits) := by
  have hpower : 256 ^ n = 2 ^ bits * 2 ^ (8 * n - bits) := by
    rw [← Nat.pow_add, show 256 = 2 ^ 8 from rfl, ← Nat.pow_mul]
    congr 1
    omega
  have hpos : 0 < 2 ^ bits := Nat.two_pow_pos bits
  have hlt {j : Nat} (hj : j < 2 ^ (8 * n - bits)) : 2 ^ bits * j + v < 256 ^ n := by
    calc 2 ^ bits * j + v < 2 ^ bits * j + 2 ^ bits := Nat.add_lt_add_left hv _
      _ = 2 ^ bits * (j + 1) := by rw [Nat.mul_succ]
      _ ≤ 256 ^ n := by
        rw [hpower]
        exact Nat.mul_le_mul_left _ hj
  have himage : {raw : List Octet | raw.length = n ∧ stringValue raw % 2 ^ bits = v} =
      (fun j => stringOf n (2 ^ bits * j + v)) '' ↑(Finset.range (2 ^ (8 * n - bits))) := by
    ext raw
    simp only [Set.mem_ofPred_eq, Set.mem_image, Finset.coe_range, Set.mem_Iio]
    constructor
    · intro hraw
      obtain ⟨hlen, hvalue⟩ := hraw
      have hdiv := Nat.div_add_mod (stringValue raw) (2 ^ bits)
      have hbelow := stringValue_lt raw
      rw [hlen, hpower] at hbelow
      refine ⟨stringValue raw / 2 ^ bits, Nat.div_lt_of_lt_mul hbelow, ?_⟩
      rw [← hvalue, hdiv, ← hlen]
      exact stringOf_stringValue raw
    · intro hraw
      obtain ⟨j, hj, rfl⟩ := hraw
      refine ⟨length_stringOf n _, ?_⟩
      rw [stringValue_stringOf, Nat.mod_eq_of_lt (hlt hj), Nat.mul_add_mod, Nat.mod_eq_of_lt hv]
  have hinjective : Set.InjOn (fun j => stringOf n (2 ^ bits * j + v))
      ↑(Finset.range (2 ^ (8 * n - bits))) := by
    intro j hj k hk h
    rw [Finset.coe_range, Set.mem_Iio] at hj hk
    have hvalue := congrArg stringValue h
    dsimp only at hvalue
    rw [stringValue_stringOf, stringValue_stringOf, Nat.mod_eq_of_lt (hlt hj),
      Nat.mod_eq_of_lt (hlt hk)] at hvalue
    exact Nat.eq_of_mul_eq_mul_left hpos (Nat.add_right_cancel hvalue)
  rw [himage, hinjective.ncard_image, Set.ncard_coe_finset, Finset.card_range]

end Strings

section Exactness

variable {bound : Nat}

/-- The strings that a bound asks for. -/
def drawStrings (bound : Nat) : Set (List Octet) := {raw | raw.length = (drawFor bound).bytes}

theorem setOf_value (h : 2 ≤ bound) (v : Nat) :
    {raw ∈ drawStrings bound | (drawFor bound).value raw = v} =
      {raw | raw.length = (drawFor bound).bytes ∧
        stringValue raw % 2 ^ (drawFor bound).bits = v} := by
  ext raw
  simp only [drawStrings, Set.mem_ofPred_eq]
  constructor
  · intro hraw
    rw [← value_eq h hraw.1]
    exact hraw
  · intro hraw
    rw [value_eq h hraw.1]
    exact hraw

theorem ncard_value (h : 2 ≤ bound) {v : Nat} (hv : v < bound) :
    {raw ∈ drawStrings bound | (drawFor bound).value raw = v}.ncard =
      2 ^ (drawFor bound).excess := by
  obtain ⟨hbytes, -⟩ := drawFor_bytes bound
  have hlt : v < 2 ^ (drawFor bound).bits := hv.trans_le (drawFor_bits h).1
  rw [setOf_value h, ncard_remainder (by omega) hlt]
  congr 1
  omega

theorem finite_value (h : 2 ≤ bound) {v : Nat} (hv : v < bound) :
    {raw ∈ drawStrings bound | (drawFor bound).value raw = v}.Finite := by
  apply Set.finite_of_ncard_pos
  rw [ncard_value h hv]
  exact Nat.two_pow_pos _

theorem ncard_accepted_below (h : 2 ≤ bound) {n : Nat} (hn : n ≤ bound) :
    {raw ∈ drawStrings bound | (drawFor bound).value raw < n}.Finite ∧
      {raw ∈ drawStrings bound | (drawFor bound).value raw < n}.ncard =
        n * 2 ^ (drawFor bound).excess := by
  induction n with
  | zero => simp
  | succ n ih =>
    obtain ⟨hfinite, hcard⟩ := ih (Nat.le_of_succ_le hn)
    have hsplit : {raw ∈ drawStrings bound | (drawFor bound).value raw < n + 1} =
        {raw ∈ drawStrings bound | (drawFor bound).value raw < n} ∪
          {raw ∈ drawStrings bound | (drawFor bound).value raw = n} := by
      ext raw
      simp only [Set.mem_ofPred_eq, Set.mem_union, ← and_or_left, Nat.lt_succ_iff,
        Nat.le_iff_lt_or_eq]
    have hapart : Disjoint {raw ∈ drawStrings bound | (drawFor bound).value raw < n}
        {raw ∈ drawStrings bound | (drawFor bound).value raw = n} := by
      rw [Set.disjoint_left]
      intro raw hlt heq
      exact absurd heq.2 (Nat.ne_of_lt hlt.2)
    have hlast := finite_value h hn
    rw [hsplit]
    refine ⟨hfinite.union hlast, ?_⟩
    rw [Set.ncard_union_eq hapart hfinite hlast, hcard, ncard_value h hn, Nat.succ_mul]

theorem accepted_more_than_half (h : 2 ≤ bound) :
    (drawStrings bound).ncard = 256 ^ (drawFor bound).bytes ∧
      (drawStrings bound).ncard <
        2 * {raw ∈ drawStrings bound | (drawFor bound).value raw < bound}.ncard := by
  obtain ⟨hbytes, -⟩ := drawFor_bytes bound
  obtain ⟨-, hhalf, -⟩ := drawFor_bits h
  have hpower : 256 ^ (drawFor bound).bytes = 2 ^ (drawFor bound).bits *
      2 ^ (drawFor bound).excess := by
    rw [← Nat.pow_add, ← hbytes, show 256 = 2 ^ 8 from rfl, ← Nat.pow_mul]
  have hall : drawStrings bound = {raw | raw.length = (drawFor bound).bytes ∧
      stringValue raw % 2 ^ 0 = 0} := by
    ext raw
    simp [drawStrings, Nat.mod_one]
  have hcard : (drawStrings bound).ncard = 256 ^ (drawFor bound).bytes := by
    rw [hall, ncard_remainder (Nat.zero_le _) (by decide), Nat.sub_zero, Nat.pow_mul]
  refine ⟨hcard, ?_⟩
  rw [hcard, (ncard_accepted_below h (Nat.le_refl bound)).2, hpower, ← Nat.mul_assoc]
  exact Nat.mul_lt_mul_of_pos_right hhalf (Nat.two_pow_pos _)

theorem uniformInt_cons (h : 2 ≤ bound) (raw : List Octet) (strings : List (List Octet)) :
    uniformInt bound (raw :: strings) =
      if (drawFor bound).value raw < bound then .ok (some ((drawFor bound).value raw, strings))
      else uniformInt bound strings := by
  have hpos : ¬ ¬ 1 ≤ bound := by omega
  have hne : ¬ bound = 1 := by omega
  have hloop (strings : List (List Octet)) :
      uniformInt bound strings = .ok ((drawFor bound).loop bound strings) := by
    rw [uniformInt, if_neg hpos, if_neg hne]
  rw [hloop, hloop, Draw.loop]
  by_cases hlt : (drawFor bound).value raw < bound
  · rw [if_pos hlt, if_pos hlt]
  · rw [if_neg hlt, if_neg hlt]

end Exactness

end XPerl.Rng
