import XPerl.Framework.Coding
import XPerl.Framework.PlaceValue
import XPerl.Utf8.Codec
import XPerl.Utf8.Upgrade

/-! A number as a first byte and six bits in each byte behind it, and the encoder that writes it. -/

namespace XPerl.Utf8

open XPerl.Framework.PlaceValue

variable {c x : U8} {cs ds : List U8} {n v : Nat}

def sixBits (c : U8) : Nat := c.toNat % 64

def continuation (d : Nat) : U8 := BitVec.ofNat 8 (0x80 + d)

def lead (c : U8) : Nat := (c &&& utfStartMask (utf8Skip c)).toNat

def Continuations (cs : List U8) : Prop := ∀ c ∈ cs, isContinuation c

instance (cs : List U8) : Decidable (Continuations cs) :=
  inferInstanceAs (Decidable (∀ c ∈ cs, isContinuation c = true))

/-- The number that a first byte and those behind it stand for. -/
def value (c : U8) (cs : List U8) : Nat := readFrom 64 (lead c) (cs.map sixBits)

/-- Bytes of the form of one character above ASCII. -/
structure Whole (c : U8) (cs : List U8) : Prop where
  first : 0xC0 ≤ c.toNat
  length : cs.length + 1 = utf8Skip c
  continues : Continuations cs

theorem isContinuation_iff (c : U8) :
    isContinuation c = true ↔ 0x80 ≤ c.toNat ∧ c.toNat ≤ 0xBF := by
  revert c
  decide

theorem toNat_of_continuation (h : isContinuation c = true) : c.toNat = 0x80 + sixBits c := by
  have hrange := (isContinuation_iff c).1 h
  rw [sixBits]
  omega

theorem sixBits_lt (c : U8) : sixBits c < 64 := Nat.mod_lt _ (by decide)

theorem continuation_sixBits (h : isContinuation c = true) : continuation (sixBits c) = c := by
  rw [continuation, ← toNat_of_continuation h]
  exact BitVec.ofNat_toNat 8 c

theorem continuation_spec (h : n < 64) :
    isContinuation (continuation n) = true ∧ sixBits (continuation n) = n := by
  have hnat : (continuation n).toNat = 0x80 + n := by
    rw [continuation, BitVec.toNat_ofNat]
    omega
  refine ⟨(isContinuation_iff _).2 ?_, ?_⟩
  · rw [hnat]
    omega
  · rw [sixBits, hnat]
    omega

theorem numeral_sixBits (cs : List U8) : Numeral 64 (cs.map sixBits) := by
  intro d hd
  obtain ⟨c, -, hc⟩ := List.mem_map.1 hd
  rw [← hc]
  exact sixBits_lt c

theorem map_continuation_sixBits (h : Continuations cs) :
    (cs.map sixBits).map continuation = cs := by
  rw [List.map_map]
  conv_rhs => rw [← List.map_id cs]
  exact List.map_congr_left fun c hc => continuation_sixBits (h c hc)

theorem and_fffe (v : Nat) : v &&& 0xFFFE = v % 65536 / 2 * 2 := by
  have hmask (i : Nat) : (0xFFFE : Nat).testBit i = (decide (1 ≤ i) && decide (i < 16)) := by
    rw [show (0xFFFE : Nat) = (2 ^ 15 - 1) <<< 1 by decide, Nat.testBit_shiftLeft,
      Nat.testBit_two_pow_sub_one]
    congr 1
    apply decide_eq_decide.2
    omega
  have hcut : v % 65536 / 2 * 2 = ((v % 2 ^ 16) >>> 1) <<< 1 := by
    rw [Nat.shiftLeft_eq, Nat.shiftRight_eq_div_pow]
    rfl
  rw [hcut]
  apply Nat.eq_of_testBit_eq
  intro i
  rw [Nat.testBit_and, hmask, Nat.testBit_shiftLeft, Nat.testBit_shiftRight,
    Nat.testBit_mod_two_pow]
  by_cases hi : 1 ≤ i
  · rw [show 1 + (i - 1) = i by omega, decide_eq_true hi, Bool.true_and, Bool.true_and,
      Bool.and_comm]
  · rw [decide_eq_false hi, Bool.false_and, Bool.and_false, Bool.false_and]

theorem noncharGivenNotSuper_iff (v : Nat) :
    unicodeIsNoncharGivenNotSuper v ↔ (0xFDD0 ≤ v ∧ v ≤ 0xFDEF) ∨ 65534 ≤ v % 65536 := by
  rw [unicodeIsNoncharGivenNotSuper, and_fffe]
  omega

/-- How many bytes a character above ASCII may take. -/
def lengths : List Nat := [2, 3, 4, 5, 6, 7, 13]

def least : Nat → Nat
  | 2 => 0x80
  | 3 => 0x800
  | 4 => 0x10000
  | 5 => 0x200000
  | 6 => 0x4000000
  | 7 => 0x80000000
  | _ => 0x1000000000

/-- The numbers that fit into so many bytes. -/
def limit (n : Nat) : Nat := 2 ^ (7 - n) * 64 ^ (n - 1)

/-- How many bytes a number needs. -/
def width (v : Nat) : Nat :=
  if v < 0x80 then 1
  else if v < 0x800 then 2
  else if v < 0x10000 then 3
  else if v < 0x200000 then 4
  else if v < 0x4000000 then 5
  else if v < 0x80000000 then 6
  else if v < 0x1000000000 then 7
  else 13

/-- The shortest bytes for a number. -/
def encoding (v : Nat) : List U8 :=
  if v < 0x80 then [BitVec.ofNat 8 v]
  else BitVec.ofNat 8 ((utfStartMark (width v)).toNat + v / 64 ^ (width v - 1)) ::
    (digits 64 (width v - 1) v).map continuation

theorem two_le (hn : n ∈ lengths) : 2 ≤ n := by
  revert n
  decide

theorem width_mem (h : 0x80 ≤ v) : width v ∈ lengths := by
  rw [width, if_neg (by omega)]
  split_ifs <;> decide

theorem least_width_le (h : 0x80 ≤ v) : least (width v) ≤ v := by
  rw [width, if_neg (by omega)]
  split_ifs <;> simp only [least] <;> omega

theorem lt_limit_width (h : 0x80 ≤ v) (h' : v < 64 ^ 12) : v < limit (width v) := by
  rw [width, if_neg (by omega)]
  split_ifs <;> simp only [limit] <;> omega

theorem width_eq (hn : n ∈ lengths) (hle : least n ≤ v) (hlt : v < limit n) : width v = n := by
  simp only [lengths, List.mem_cons, List.not_mem_nil, or_false] at hn
  rcases hn with rfl | rfl | rfl | rfl | rfl | rfl | rfl <;>
    simp only [least, limit] at hle hlt <;> rw [width] <;> split_ifs <;> omega

theorem offuniskip_eq (v : Nat) : offuniskip v = width v := by
  rw [offuniskip, width]
  split_ifs <;> try omega
  all_goals
    have hne : v ≠ 0 := by omega
    rw [uniskipByMsb]
  · have hlo : 7 ≤ Nat.log2 v := (Nat.le_log2 hne).2 (by omega)
    have hhi : Nat.log2 v < 11 := (Nat.log2_lt hne).2 (by omega)
    omega
  · have hlo : 11 ≤ Nat.log2 v := (Nat.le_log2 hne).2 (by omega)
    have hhi : Nat.log2 v < 16 := (Nat.log2_lt hne).2 (by omega)
    omega
  · have hlo : 16 ≤ Nat.log2 v := (Nat.le_log2 hne).2 (by omega)
    have hhi : Nat.log2 v < 21 := (Nat.log2_lt hne).2 (by omega)
    omega
  · have hlo : 21 ≤ Nat.log2 v := (Nat.le_log2 hne).2 (by omega)
    have hhi : Nat.log2 v < 26 := (Nat.log2_lt hne).2 (by omega)
    omega
  · have hlo : 26 ≤ Nat.log2 v := (Nat.le_log2 hne).2 (by omega)
    have hhi : Nat.log2 v < 31 := (Nat.log2_lt hne).2 (by omega)
    omega
  · have hlo : 31 ≤ Nat.log2 v := (Nat.le_log2 hne).2 (by omega)
    have hhi : Nat.log2 v < 36 := (Nat.log2_lt hne).2 (by omega)
    omega

theorem utf8Skip_mem (h : 0xC0 ≤ c.toNat) : utf8Skip c ∈ lengths := by
  revert c
  decide

theorem lead_lt (h : 0xC0 ≤ c.toNat) : lead c < 2 ^ (7 - utf8Skip c) := by
  revert c
  decide

theorem eq_mark_add_lead (h : 0xC0 ≤ c.toNat) :
    c = BitVec.ofNat 8 ((utfStartMark (utf8Skip c)).toNat + lead c) := by
  revert c
  decide

theorem first_of_mark_add {l : Nat} (hn : n ∈ lengths) (hl : l < 2 ^ (7 - n)) :
    0xC0 ≤ (BitVec.ofNat 8 ((utfStartMark n).toNat + l)).toNat ∧
      utf8Skip (BitVec.ofNat 8 ((utfStartMark n).toNat + l)) = n ∧
      lead (BitVec.ofNat 8 ((utfStartMark n).toNat + l)) = l := by
  have hall : ∀ n ∈ lengths, ∀ l < 2 ^ (7 - n),
      0xC0 ≤ (BitVec.ofNat 8 ((utfStartMark n).toNat + l)).toNat ∧
        utf8Skip (BitVec.ofNat 8 ((utfStartMark n).toNat + l)) = n ∧
        lead (BitVec.ofNat 8 ((utfStartMark n).toNat + l)) = l := by decide
  exact hall n hn l hl

theorem Whole.value_lt (h : Whole c cs) : value c cs < limit (utf8Skip c) := by
  have hlead := lead_lt h.first
  have hlength := h.length
  calc value c cs
      < (lead c + 1) * 64 ^ (cs.map sixBits).length := readFrom_lt (numeral_sixBits cs)
    _ ≤ 2 ^ (7 - utf8Skip c) * 64 ^ (cs.map sixBits).length := Nat.mul_le_mul_right _ hlead
    _ = limit (utf8Skip c) := by
        rw [limit, List.length_map, show cs.length = utf8Skip c - 1 by omega]

theorem Whole.width_value (h : Whole c cs) (hle : least (utf8Skip c) ≤ value c cs) :
    width (value c cs) = utf8Skip c := width_eq (utf8Skip_mem h.first) hle h.value_lt

theorem least_ge (hn : n ∈ lengths) : 0x80 ≤ least n := by
  revert n
  decide

theorem Whole.encoding_value (h : Whole c cs) (hle : least (utf8Skip c) ≤ value c cs) :
    encoding (value c cs) = c :: cs := by
  have hlength := h.length
  have hge := least_ge (utf8Skip_mem h.first)
  have hcs : (cs.map sixBits).length = utf8Skip c - 1 := by
    rw [List.length_map]
    omega
  rw [encoding, if_neg (by omega), h.width_value hle]
  have hdiv : value c cs / 64 ^ (utf8Skip c - 1) = lead c := by
    rw [← hcs]
    exact Nat.div_eq_of_lt_le (le_readFrom 64 (lead c) _) (readFrom_lt (numeral_sixBits cs))
  rw [hdiv, ← eq_mark_add_lead h.first, value, ← hcs, digits_readFrom (numeral_sixBits cs),
    map_continuation_sixBits h.continues]

theorem exists_encoding (h : 0x80 ≤ v) (h' : v < 64 ^ 12) :
    ∃ c cs, encoding v = c :: cs ∧ Whole c cs ∧ value c cs = v ∧ utf8Skip c = width v := by
  have hlimit := lt_limit_width h h'
  have hmem := width_mem h
  have hl : v / 64 ^ (width v - 1) < 2 ^ (7 - width v) := by
    rw [limit, Nat.mul_comm] at hlimit
    exact Nat.div_lt_of_lt_mul hlimit
  obtain ⟨hfirst, hskip, hlead⟩ := first_of_mark_add hmem hl
  have hsix : ((digits 64 (width v - 1) v).map continuation).map sixBits =
      digits 64 (width v - 1) v := by
    rw [List.map_map]
    conv_rhs => rw [← List.map_id (digits 64 (width v - 1) v)]
    exact List.map_congr_left fun d hd =>
      (continuation_spec (numeral_digits (by decide) (width v - 1) v d hd)).2
  refine ⟨_, _, by rw [encoding, if_neg (by omega)], ⟨hfirst, ?_, ?_⟩, ?_, hskip⟩
  · have hpos := two_le hmem
    rw [List.length_map, length_digits, hskip]
    omega
  · intro x hx
    obtain ⟨d, hd, hdx⟩ := List.mem_map.1 hx
    rw [← hdx]
    exact (continuation_spec (numeral_digits (by decide) (width v - 1) v d hd)).1
  · rw [value, hsix, hlead, readFrom_digits, Nat.mul_comm, Nat.div_add_mod]

theorem length_encoding (v : Nat) : (encoding v).length = width v := by
  rw [encoding]
  split_ifs with h
  · rw [width, if_pos h]
    rfl
  · have hpos := two_le (width_mem (Nat.not_lt.1 h))
    rw [List.length_cons, List.length_map, length_digits]
    omega

/-! UTF-8 as a code: a character can be told apart wherever its first byte stands. -/

open XPerl.Framework

/-- The characters of Perl: the numbers up to `IV_MAX`. -/
abbrev CodePoint := Fin 0x8000000000000000

theorem CodePoint.lt (v : CodePoint) : v.val < 64 ^ 12 :=
  Nat.lt_of_lt_of_le v.isLt (by decide)

private theorem not_continuation_of_ascii {c : U8} (h : c.toNat < 0x80) :
    isContinuation c = false := by
  rw [← Bool.not_eq_true, isContinuation_iff]
  omega

private theorem not_continuation_of_first {c : U8} (h : 0xC0 ≤ c.toNat) :
    isContinuation c = false := by
  rw [← Bool.not_eq_true, isContinuation_iff]
  omega

private theorem toNat_ascii {v : Nat} (h : v < 0x80) : (BitVec.ofNat 8 v).toNat = v := by
  rw [BitVec.toNat_ofNat]
  omega

theorem encoding_form (v : CodePoint) :
    ∃ b bs, encoding v = b :: bs ∧ isContinuation b = false ∧
      ∀ x ∈ bs, isContinuation x = true := by
  by_cases hascii : v.val < 0x80
  · refine ⟨BitVec.ofNat 8 v, [], if_pos hascii, ?_, by simp⟩
    apply not_continuation_of_ascii
    rw [toNat_ascii hascii]
    exact hascii
  · obtain ⟨c, cs, hencoding, hwhole, -⟩ := exists_encoding (Nat.not_lt.1 hascii) v.lt
    exact ⟨c, cs, hencoding, not_continuation_of_first hwhole.first, hwhole.continues⟩

theorem encoding_decides {v v' : CodePoint} {r r' : List U8}
    (h : encoding v ++ r = encoding v' ++ r') : v = v' := by
  apply Fin.ext
  by_cases hv : v.val < 0x80
  · have hbytes : encoding v = [BitVec.ofNat 8 v] := if_pos hv
    by_cases hv' : v'.val < 0x80
    · have hbytes' : encoding v' = [BitVec.ofNat 8 v'] := if_pos hv'
      rw [hbytes, hbytes'] at h
      rw [← toNat_ascii hv, ← toNat_ascii hv', (List.cons.inj h).1]
    · obtain ⟨c, cs, hbytes', hwhole, -⟩ := exists_encoding (Nat.not_lt.1 hv') v'.lt
      rw [hbytes, hbytes'] at h
      have hfirst := hwhole.first
      rw [← (List.cons.inj h).1, toNat_ascii hv] at hfirst
      omega
  · obtain ⟨c, cs, hbytes, hwhole, hvalue, hskip⟩ := exists_encoding (Nat.not_lt.1 hv) v.lt
    by_cases hv' : v'.val < 0x80
    · have hbytes' : encoding v' = [BitVec.ofNat 8 v'] := if_pos hv'
      rw [hbytes, hbytes'] at h
      have hfirst := hwhole.first
      rw [(List.cons.inj h).1, toNat_ascii hv'] at hfirst
      omega
    · obtain ⟨c', cs', hbytes', hwhole', hvalue', hskip'⟩ :=
        exists_encoding (Nat.not_lt.1 hv') v'.lt
      rw [hbytes, hbytes'] at h
      obtain ⟨rfl, hrest⟩ := List.cons.inj h
      have hlength : cs.length = cs'.length := by
        have hlen := hwhole.length
        have hlen' := hwhole'.length
        omega
      rw [← hvalue, ← hvalue', (List.append_inj hrest hlength).1]

/-- UTF-8, whose words start with what is no continuation byte. -/
def characters : Coding CodePoint U8 where
  encode v := encoding v
  start b := !isContinuation b
  form v := by
    obtain ⟨b, bs, hencoding, hb, hbs⟩ := encoding_form v
    refine ⟨b, bs, hencoding, by rw [hb]; rfl, ?_⟩
    intro x hx
    rw [hbs x hx]
    rfl
  decides := encoding_decides

/-- The character with the number of a byte. -/
def ofByte (c : U8) : CodePoint := ⟨c.toNat, Nat.lt_of_lt_of_le c.isLt (by decide)⟩

theorem encodeByte_eq (c : U8) : encodeByte c = encoding (ofByte c) := by
  revert c
  decide +kernel

theorem upgrade_eq (bytes : List U8) : upgrade bytes = characters.encodeAll (bytes.map ofByte) := by
  rw [upgrade, Coding.encodeAll, List.flatMap_map]
  exact List.flatMap_congr fun c _ => encodeByte_eq c

variable {uv : UV} {flags : U32} {k : Nat} {w : Writing}

@[simp] theorem has_zero (mask : U32) : has 0#32 mask = false := by
  simp [has]

def unicodeDisallowed (flags : U32) (v : Nat) : Prop :=
  (has flags unicodeDisallowPerlExtended ∧ unicodeIsPerlExtended v) ∨
    (has flags unicodeDisallowSuper ∧ unicodeIsSuper v) ∨
    (has flags unicodeDisallowNonchar ∧ unicodeIsNonchar v) ∨
    (has flags unicodeDisallowSurrogate ∧ unicodeIsSurrogate v)

instance (flags : U32) (v : Nat) : Decidable (unicodeDisallowed flags v) :=
  inferInstanceAs (Decidable (_ ∨ _ ∨ _ ∨ _))

theorem not_unicodeDisallowed_zero (v : Nat) : ¬ unicodeDisallowed 0 v := by
  simp [unicodeDisallowed]

/-- The last `k` groups of six bits are written. -/
structure Writing.Holds (v k : Nat) (w : Writing) : Prop where
  shifted : w.shiftedUV.toNat = v / 64 ^ k
  written : w.written = (digits 64 k v).map continuation

theorem lowByte_eq (uv : UV) :
    ((uv &&& 0x3F) ||| 0x80).setWidth 8 = continuation (uv.toNat % 64) := by
  have hall : ∀ d < 64, (d ||| 0x80) % 256 = (0x80 + d) % 256 := by decide
  have hlow : (uv &&& 0x3F).toNat = uv.toNat % 64 := by
    rw [BitVec.toNat_and]
    exact Nat.and_two_pow_sub_one_eq_mod _ 6
  apply BitVec.eq_of_toNat_eq
  rw [BitVec.toNat_setWidth, BitVec.toNat_or, hlow, continuation, BitVec.toNat_ofNat]
  exact hall _ (Nat.mod_lt _ (by decide))

theorem Writing.Holds.put (h : w.Holds v k) : w.put.Holds v (k + 1) := by
  refine ⟨?_, ?_⟩
  · have hsix : v / 64 ^ k / 2 ^ 6 = v / 64 ^ (k + 1) := by
      rw [Nat.div_div_eq_div_mul]
      rfl
    rw [Writing.put, BitVec.toNat_ushiftRight, h.shifted, Nat.shiftRight_eq_div_pow, hsix]
  · rw [Writing.put, lowByte_eq, h.shifted, h.written, digits_succ, List.map_cons]

theorem Writing.Holds.putMany (h : w.Holds v k) (n : Nat) : (w.putMany n).Holds v (k + n) := by
  induction n generalizing w k with
  | zero => exact h
  | succ n ih =>
    have hput := ih h.put
    rw [show k + 1 + n = k + (n + 1) by omega] at hput
    exact hput

theorem start_eq {l : Nat} (hn : n ∈ lengths) (hl : l < 2 ^ (7 - n)) :
    BitVec.ofNat 8 l &&& utfStartMask n ||| utfStartMark n =
      BitVec.ofNat 8 ((utfStartMark n).toNat + l) := by
  have hall : ∀ n ∈ lengths, ∀ l < 2 ^ (7 - n),
      BitVec.ofNat 8 l &&& utfStartMask n ||| utfStartMark n =
        BitVec.ofNat 8 ((utfStartMark n).toNat + l) := by decide
  exact hall n hn l hl

theorem caseTwo_eq (hlow : 0x80 ≤ v) (hhigh : v < 64 ^ 12) (h : w.Holds v (width v - 2)) :
    caseTwo (width v) w = some (encoding v) := by
  have hmem := width_mem hlow
  have hpos := two_le hmem
  have hlimit := lt_limit_width hlow hhigh
  have hput := h.put
  rw [show width v - 2 + 1 = width v - 1 by omega] at hput
  have hl : v / 64 ^ (width v - 1) < 2 ^ (7 - width v) := by
    rw [limit, Nat.mul_comm] at hlimit
    exact Nat.div_lt_of_lt_mul hlimit
  have hbyte : w.put.shiftedUV.setWidth 8 = BitVec.ofNat 8 (v / 64 ^ (width v - 1)) := by
    apply BitVec.eq_of_toNat_eq
    rw [BitVec.toNat_setWidth, hput.shifted, BitVec.toNat_ofNat]
  rw [caseTwo, hbyte, start_eq hmem hl, hput.written, encoding, if_neg (by omega)]

theorem caseThree_eq (huv : uv.toNat = v) (hwidth : 3 ≤ width v) (hlow : 0x80 ≤ v)
    (hhigh : v < 64 ^ 12) (h : w.Holds v (width v - 3)) :
    caseThree uv flags (width v) w =
      if (has flags unicodeDisallowNonchar ∧ unicodeIsNonchar v) ∨
        (has flags unicodeDisallowSurrogate ∧ unicodeIsSurrogate v) then none
      else some (encoding v) := by
  have hput := h.put
  rw [show width v - 3 + 1 = width v - 2 by omega] at hput
  rw [caseThree, huv, caseTwo_eq hlow hhigh hput]
  by_cases hnonchar : unicodeIsNonchar v
  · have hcases := (noncharGivenNotSuper_iff v).1 hnonchar.2
    have hproblematic : 0xD800 ≤ v := by omega
    have hsurrogate : ¬ unicodeIsSurrogate v := fun hs => by
      rw [unicodeIsSurrogate] at hs
      omega
    simp [hproblematic, hnonchar, hsurrogate]
  · by_cases hsurrogate : unicodeIsSurrogate v
    · have hproblematic : 0xD800 ≤ v := hsurrogate.1
      simp [hproblematic, hnonchar, hsurrogate]
    · simp [hnonchar, hsurrogate]

theorem caseFour_eq (huv : uv.toNat = v) (hwidth : 4 ≤ width v) (hlow : 0x80 ≤ v)
    (hhigh : v < 64 ^ 12) (h : w.Holds v (width v - 4)) :
    caseFour uv flags (width v) w =
      if unicodeDisallowed flags v then none else some (encoding v) := by
  have hput := h.put
  rw [show width v - 4 + 1 = width v - 3 by omega] at hput
  have hextended : unicodeIsPerlExtended v → unicodeIsSuper v := by
    rw [unicodeIsPerlExtended, unicodeIsSuper]
    omega
  rw [caseFour, huv, caseThree_eq huv (by omega) hlow hhigh hput]
  rw [← ite_or]
  apply if_congr _ rfl rfl
  rw [unicodeDisallowed]
  tauto

theorem not_unicodeDisallowed (h : v < 0xD800) : ¬ unicodeDisallowed flags v := by
  have hextended : ¬ unicodeIsPerlExtended v := by
    rw [unicodeIsPerlExtended]
    omega
  have hsuper : ¬ unicodeIsSuper v := by
    rw [unicodeIsSuper]
    omega
  have hnonchar : ¬ unicodeIsNonchar v := fun hn => by
    have hcases := (noncharGivenNotSuper_iff v).1 hn.2
    omega
  have hsurrogate : ¬ unicodeIsSurrogate v := fun hs => by
    have hfirst := hs.1
    omega
  simp only [unicodeDisallowed, hextended, hsuper, hnonchar, hsurrogate, and_false, or_self,
    not_false_eq_true]

theorem unicodeDisallowed_small (h : v < 0x10000) :
    unicodeDisallowed flags v ↔ (has flags unicodeDisallowNonchar ∧ unicodeIsNonchar v) ∨
      (has flags unicodeDisallowSurrogate ∧ unicodeIsSurrogate v) := by
  have hsuper : ¬ unicodeIsSuper v := by
    rw [unicodeIsSuper]
    omega
  have hextended : ¬ unicodeIsPerlExtended v := by
    rw [unicodeIsPerlExtended]
    omega
  simp only [unicodeDisallowed, hsuper, hextended, and_false, false_or]

theorem extended_eq {r : Option (List U8)} (hextended : unicodeIsPerlExtended v)
    (h : r = if unicodeDisallowed flags v then none else some (encoding v)) :
    (if has flags unicodeDisallowPerlExtended then .ok none else .ok r) =
      (.ok r : Except Croak (Option (List U8))) := by
  by_cases hflag : has flags unicodeDisallowPerlExtended
  · rw [if_pos hflag, h, if_pos (.inl ⟨hflag, hextended⟩)]
  · rw [if_neg hflag]

theorem uvoffuni_eq (uv : UV) (flags : U32) :
    uvoffuniToUtf8FlagsMsgs uv flags =
      if maxLegalCP < uv.toNat ∧ !has flags unicodeAllowAboveIVMax then
        .error (.codePointTooLarge uv)
      else .ok (if unicodeDisallowed flags uv.toNat then none else some (encoding uv.toNat)) := by
  have hlt := uv.isLt
  generalize huv : uv.toNat = v at hlt
  have hhigh : v < 64 ^ 12 := by omega
  have hnone : Writing.Holds v 0 ⟨uv, []⟩ := ⟨by rw [huv, Nat.pow_zero, Nat.div_one], rfl⟩
  rw [uvoffuniToUtf8FlagsMsgs, huv, offuniskip_eq]
  by_cases hcroak : maxLegalCP < v ∧ !has flags unicodeAllowAboveIVMax
  · have hwidth : width v = 13 := by
      have habove := hcroak.1
      rw [maxLegalCP] at habove
      rw [width]
      split_ifs <;> omega
    rw [hwidth, if_pos hcroak, if_pos hcroak]
    rfl
  rw [if_neg hcroak, if_neg hcroak]
  by_cases hlow : v < 0x80
  · have hwidth : width v = 1 := if_pos hlow
    have hbyte : uv.setWidth 8 = BitVec.ofNat 8 v := by
      apply BitVec.eq_of_toNat_eq
      rw [BitVec.toNat_setWidth, huv, BitVec.toNat_ofNat]
    rw [hwidth, if_neg (not_unicodeDisallowed (by omega)), encoding, if_pos hlow, ← hbyte]
    rfl
  have hlow : 0x80 ≤ v := Nat.not_lt.1 hlow
  have hmem := width_mem hlow
  have hlimit := lt_limit_width hlow hhigh
  have hleast := least_width_le hlow
  simp only [lengths, List.mem_cons, List.not_mem_nil, or_false] at hmem
  -- the cases of two and three bytes skip some tests, which no code point of that length fails
  rcases hmem with hwidth | hwidth | hwidth | hwidth | hwidth | hwidth | hwidth <;>
    rw [hwidth] at hlimit hleast <;> simp only [limit] at hlimit <;> simp only [least] at hleast
  · have hcase := caseTwo_eq hlow hhigh (by rw [hwidth]; exact hnone)
    rw [hwidth] at hcase ⊢
    rw [if_neg (not_unicodeDisallowed (by omega)), ← hcase]
    rfl
  · have hcase : caseThree uv flags _ _ = _ :=
      caseThree_eq huv (by omega) hlow hhigh (by rw [hwidth]; exact hnone)
    rw [hwidth, ← if_congr (unicodeDisallowed_small (by omega)) rfl rfl] at hcase
    rw [hwidth, ← hcase]
    rfl
  · have hcase : caseFour uv flags _ _ = _ :=
      caseFour_eq huv (by omega) hlow hhigh (by rw [hwidth]; exact hnone)
    rw [hwidth] at hcase
    rw [hwidth, ← hcase]
    rfl
  · have hcase : caseFour uv flags _ _ = _ :=
      caseFour_eq huv (by omega) hlow hhigh (by rw [hwidth]; exact hnone.put)
    rw [hwidth] at hcase
    rw [hwidth, ← hcase]
    rfl
  · have hcase : caseFour uv flags _ _ = _ :=
      caseFour_eq huv (by omega) hlow hhigh (by rw [hwidth]; exact hnone.put.put)
    rw [hwidth] at hcase
    rw [hwidth, ← hcase]
    rfl
  · have hcase : caseFour uv flags _ _ = _ :=
      caseFour_eq huv (by omega) hlow hhigh (by rw [hwidth]; exact (hnone.putMany 1).put.put)
    rw [hwidth] at hcase
    rw [hwidth, ← hcase]
    have hextended : unicodeIsPerlExtended v := by
      rw [unicodeIsPerlExtended]
      omega
    exact extended_eq hextended hcase
  · have hcase : caseFour uv flags _ _ = _ :=
      caseFour_eq huv (by omega) hlow hhigh (by rw [hwidth]; exact (hnone.putMany 7).put.put)
    rw [hwidth] at hcase
    rw [hwidth, ← hcase]
    have hextended : unicodeIsPerlExtended v := by
      rw [unicodeIsPerlExtended]
      omega
    exact extended_eq hextended hcase

end XPerl.Utf8
