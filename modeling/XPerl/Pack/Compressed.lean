import Mathlib.Tactic.Ring
import XPerl.Framework.PlaceValue

/-! Compressed integers: base 128, a set high bit on every octet but the last. -/

namespace XPerl.Pack

open XPerl.Framework.PlaceValue

abbrev U8 := BitVec 8

abbrev UV := BitVec 64

variable {c : U8} {d m n len bytes v : Nat} {s octets pre : List U8} {ds : List Nat} {auv : UV}

inductive Croak where
  | unterminatedCompressedInteger
  | negativeCompressedInteger
  | nonUnsignedInteger
deriving DecidableEq

def digit (d : Nat) : U8 := BitVec.ofNat 8 (0x30 + d)

/-- A number as it is printed. -/
def decimal (v : Nat) : List U8 := (numeral 10 v).map digit

/-- One place of the loop of `mul128`, with the carry out of the places behind it. -/
def mulDigit (t : U8) (acc : List U8 × Nat) : List U8 × Nat :=
  let i := (t.toNat - 0x30) <<< 7 + acc.2
  (digit (i % 10) :: acc.1, i / 10)

/-- `mul128`: the loop runs from the last digit and leaves the first one as it is. -/
def mul128 (sv : List U8) (m : Nat) : List U8 :=
  let sv := if sv.take 4 = List.replicate 4 0x30 then sv else List.replicate 10 0x30 ++ sv
  match sv with
  | [] => []
  | s :: rest => s :: (rest.foldr mulDigit ([], m)).1

/-- The loop that goes on in decimal: the digits, the octets left, and whether the last octet has
come. -/
def promoteLoop (sv : List U8) : List U8 → List U8 × List U8 × Bool
  | [] => (sv, [], false)
  | ch :: s =>
    let sv := mul128 sv (ch &&& 0x7F).toNat
    if ch &&& 0x80 = 0 then (sv, s, true) else promoteLoop sv s

/-- The loop of `w`: what is pushed, the octets left, and how many of an unfinished integer have
been read. -/
def unpackLoop : Nat → Nat → UV → Nat → List U8 → List (List U8) → List (List U8) × List U8 × Nat
  | 0, _, _, bytes, s, pushed => (pushed, s, bytes)
  | n + 1, len, auv, bytes, s, pushed =>
    if 0 < len then
      match s with
      | [] => (pushed, [], bytes)
      | ch :: s =>
        let auv := (auv <<< 7) ||| (ch &&& 0x7F).setWidth 64
        if ch.toNat < 0x80 then unpackLoop n (len - 1) 0 0 s (pushed ++ [decimal auv.toNat])
        else if 8 ≤ bytes + 1 then
          let (sv, s, ended) := promoteLoop ((digits 10 20 auv.toNat).map digit) s
          unpackLoop n (len - 1) 0 (if ended then 0 else bytes + 1) s
            (pushed ++ [sv.dropWhile (· = 0x30)])
        else unpackLoop n len auv (bytes + 1) s pushed
    else (pushed, s, bytes)

/-- `unpack` of `w` with a count: the integers, with the octets left. -/
def unpackW (len : Nat) (s : List U8) : Except Croak (List (List U8) × List U8) :=
  let (pushed, rest, bytes) := unpackLoop s.length (min len s.length) 0 0 s []
  if rest = [] ∧ bytes ≠ 0 then .error .unterminatedCompressedInteger else .ok (pushed, rest)

/-- What the code reads of a scalar: whether it is negative, `SvIOK`, whether its floating point
value is below `UV_MAX_P1`, its value as an integer, and its string. -/
structure Scalar where
  negative : Bool
  iok : Bool
  belowUvMaxP1 : Bool
  uv : UV
  pv : List U8

def isAnIntLoop (skip ignore : Bool) : List U8 → Option (List U8)
  | [] => some []
  | c :: s =>
    if c = 0 then some []
    else if c = 0x20 then isAnIntLoop skip ignore s
    else if c = 0x2B then if skip then isAnIntLoop skip ignore s else none
    else if 0x30 ≤ c.toNat ∧ c.toNat ≤ 0x39 then
      if ignore then isAnIntLoop false ignore s else (isAnIntLoop false ignore s).map (c :: ·)
    else if c = 0x2E then isAnIntLoop skip true s
    else none

def isAnInt (s : List U8) : Option (List U8) := isAnIntLoop true false s

/-- The loop of `div128`: the quotient, the remainder, and whether the quotient is zero. -/
def divLoop (m : Nat) : List U8 → List U8 × Nat × Bool
  | [] => ([], m, true)
  | t :: rest =>
    let i := m * 10 + (t.toNat - 0x30)
    let r := i >>> 7
    let (quotient, m, done) := divLoop (i &&& 0x7F) rest
    (digit r :: quotient, m, done && r = 0)

def div128 (pnum : List U8) : List U8 × Nat × Bool := divLoop 0 pnum

def wordLoop : Nat → UV → List U8 → Option (List U8)
  | 0, _, _ => none
  | room + 1, auv, octets =>
    let octets := ((auv &&& 0x7F) ||| 0x80).setWidth 8 :: octets
    if auv >>> 7 ≠ 0 then wordLoop room (auv >>> 7) octets else some octets

def stringLoop : Nat → List U8 → List U8 → Option (List U8)
  | 0, _, _ => none
  | room + 1, norm, octets =>
    let (norm, m, done) := div128 norm
    let octets := (BitVec.ofNat 8 m ||| 0x80) :: octets
    if done then some octets else stringLoop room norm octets

def clearContinue (octets : List U8) : List U8 :=
  octets.dropLast ++ (octets.getLast?.map (· &&& 0x7F)).toList

/-- `pack` of `w` for one scalar: none where it writes outside of its buffer. -/
def packW (fromstr : Scalar) : Except Croak (Option (List U8)) :=
  if fromstr.negative then .error .negativeCompressedInteger
  else if fromstr.iok ∨ fromstr.belowUvMaxP1 then
    .ok ((wordLoop (8 * 8 / 7 + 1) fromstr.uv []).map clearContinue)
  else
    match isAnInt fromstr.pv with
    | none => .error .nonUnsignedInteger
    | some norm => .ok ((stringLoop fromstr.pv.length norm []).map clearContinue)

theorem toNat_digit (h : d < 10) : (digit d).toNat = 0x30 + d := by
  rw [digit, BitVec.toNat_ofNat]
  omega

theorem digit_eq_zero_iff (h : d < 10) : digit d = 0x30 ↔ d = 0 := by
  rw [← BitVec.toNat_inj, toNat_digit h]
  change 0x30 + d = 0x30 ↔ d = 0
  omega

theorem map_digit_replicate (n : Nat) :
    (List.replicate n 0).map digit = List.replicate n (0x30 : U8) := by
  rw [List.map_replicate]
  rfl

theorem dropWhile_digit (h : Numeral 10 ds) :
    (ds.map digit).dropWhile (· = 0x30) = (ds.dropWhile (· = 0)).map digit := by
  induction ds with
  | nil => rfl
  | cons d ds ih =>
    have hd : d < 10 := h d List.mem_cons_self
    rw [List.map_cons, List.dropWhile_cons, List.dropWhile_cons]
    by_cases hzero : d = 0
    · rw [if_pos (decide_eq_true ((digit_eq_zero_iff hd).2 hzero)), if_pos (decide_eq_true hzero)]
      exact ih fun x hx => h x (List.mem_cons_of_mem d hx)
    · have hchar : ¬ digit d = 0x30 := mt (digit_eq_zero_iff hd).1 hzero
      rw [if_neg (by rw [decide_eq_true_iff]; exact hchar), if_neg (by simpa using hzero)]
      rfl

theorem dropWhile_eq_decimal (h : Numeral 10 ds) (hread : readFrom 10 0 ds = v) :
    (ds.map digit).dropWhile (· = 0x30) = if v = 0 then [] else decimal v := by
  rw [dropWhile_digit h]
  split_ifs with hzero
  · rw [dropWhile_eq_nil (by decide) (hread.trans hzero), List.map_nil]
  · rw [dropWhile_eq_numeral h (hread ▸ hzero), hread, decimal]

theorem foldr_mulDigit (h : Numeral 10 ds) (hm : m < 128) :
    ∃ es carry, (ds.map digit).foldr mulDigit ([], m) = (es.map digit, carry) ∧ Numeral 10 es ∧
      es.length = ds.length ∧ carry < 128 ∧
      readFrom 10 0 ds * 128 + m = carry * 10 ^ ds.length + readFrom 10 0 es := by
  induction ds with
  | nil => exact ⟨[], m, rfl, by simp [Numeral], rfl, hm, by simp⟩
  | cons d ds ih =>
    have hd : d < 10 := h d List.mem_cons_self
    obtain ⟨es, carry, hfold, hes, hlength, hcarry, hvalue⟩ :=
      ih fun x hx => h x (List.mem_cons_of_mem d hx)
    have hi : ((digit d).toNat - 0x30) <<< 7 + carry = d * 128 + carry := by
      rw [toNat_digit hd, Nat.add_sub_cancel_left, Nat.shiftLeft_eq]
    refine ⟨(d * 128 + carry) % 10 :: es, (d * 128 + carry) / 10, ?_, ?_, ?_, by omega, ?_⟩
    · rw [List.map_cons, List.foldr_cons, hfold, mulDigit, hi, List.map_cons]
    · exact List.forall_mem_cons.2 ⟨Nat.mod_lt _ (by decide), hes⟩
    · rw [List.length_cons, List.length_cons, hlength]
    · have hhead := readFrom_eq_add 10 d ds
      have hhead' := readFrom_eq_add 10 ((d * 128 + carry) % 10) es
      rw [hlength] at hhead'
      rw [readFrom_cons, readFrom_cons, Nat.zero_mul, Nat.zero_add, Nat.zero_add, hhead, hhead',
        List.length_cons, Nat.pow_succ']
      have hsplit := Nat.div_add_mod (d * 128 + carry) 10
      calc (d * 10 ^ ds.length + readFrom 10 0 ds) * 128 + m
          = d * 128 * 10 ^ ds.length + (readFrom 10 0 ds * 128 + m) := by ring
        _ = (d * 128 + carry) * 10 ^ ds.length + readFrom 10 0 es := by rw [hvalue]; ring
        _ = (10 * ((d * 128 + carry) / 10) + (d * 128 + carry) % 10) * 10 ^ ds.length +
              readFrom 10 0 es := by rw [hsplit]
        _ = _ := by ring

theorem mulDigit_headroom (h : Numeral 10 ds) (hm : m < 128) :
    ∃ es, 0x30 :: (((0 :: 0 :: 0 :: ds).map digit).foldr mulDigit ([], m)).1 = es.map digit ∧
      Numeral 10 es ∧ readFrom 10 0 es = readFrom 10 0 ds * 128 + m := by
  have hzeros : Numeral 10 (0 :: 0 :: 0 :: ds) := by simpa [Numeral] using h
  obtain ⟨es, carry, hfold, hes, -, -, hvalue⟩ := foldr_mulDigit hzeros hm
  have hread : readFrom 10 0 (0 :: 0 :: 0 :: ds) = readFrom 10 0 ds := rfl
  have hlt : readFrom 10 0 ds < (0 + 1) * 10 ^ ds.length := readFrom_lt h
  have hpow : 10 ^ (0 :: 0 :: 0 :: ds).length = 1000 * 10 ^ ds.length := by
    rw [List.length_cons, List.length_cons, List.length_cons, Nat.pow_succ', Nat.pow_succ',
      Nat.pow_succ']
    ring
  rw [hread, hpow] at hvalue
  have hcarry : carry = 0 := by
    by_contra hne
    have hle : 1 * (1000 * 10 ^ ds.length) ≤ carry * (1000 * 10 ^ ds.length) :=
      Nat.mul_le_mul_right _ (Nat.pos_of_ne_zero hne)
    omega
  refine ⟨0 :: es, ?_, by simpa [Numeral] using hes, ?_⟩
  · rw [hfold]
    rfl
  · rw [hvalue, hcarry, Nat.zero_mul, Nat.zero_add]
    rfl

theorem readFrom_zeros (n : Nat) (ds : List Nat) :
    readFrom 10 0 (List.replicate n 0 ++ ds) = readFrom 10 0 ds := by
  induction n with
  | zero => rfl
  | succ n ih => exact ih

theorem mul128_spec (h : Numeral 10 ds) (hm : m < 128) :
    ∃ es, mul128 (ds.map digit) m = es.map digit ∧ Numeral 10 es ∧
      readFrom 10 0 es = readFrom 10 0 ds * 128 + m := by
  rw [mul128]
  by_cases hzeros : (ds.map digit).take 4 = List.replicate 4 0x30
  · have hfour : ds.take 4 = List.replicate 4 0 := by
      rw [← List.map_take, List.eq_replicate_iff, List.length_map] at hzeros
      refine List.eq_replicate_iff.2 ⟨hzeros.1, fun d hd => ?_⟩
      exact (digit_eq_zero_iff (h d (List.mem_of_mem_take hd))).1
        (hzeros.2 _ (List.mem_map_of_mem hd))
    have hsplit : ds = 0 :: 0 :: 0 :: 0 :: ds.drop 4 := by
      conv_lhs => rw [← List.take_append_drop 4 ds, hfour]
      rfl
    have hread : readFrom 10 0 ds = readFrom 10 0 (ds.drop 4) := by
      conv_lhs => rw [hsplit]
      rfl
    obtain ⟨es, hes, hnumeral, hvalue⟩ :=
      mulDigit_headroom (fun d hd => h d (List.mem_of_mem_drop hd)) hm
    refine ⟨es, ?_, hnumeral, by rw [hvalue, hread]⟩
    rw [if_pos hzeros]
    conv_lhs => rw [hsplit]
    exact hes
  · have hmore : Numeral 10 (List.replicate 6 0 ++ ds) := by
      refine numeral_append.2 ⟨fun d hd => ?_, h⟩
      rw [List.eq_of_mem_replicate hd]
      decide
    obtain ⟨es, hes, hnumeral, hvalue⟩ := mulDigit_headroom hmore hm
    refine ⟨es, ?_, hnumeral, by rw [hvalue, readFrom_zeros]⟩
    rw [if_neg hzeros, ← hes, List.map_cons, List.map_cons, List.map_cons, List.map_append,
      map_digit_replicate]
    rfl

def sevenBits (c : U8) : Nat := c.toNat % 128

/-- The number that octets stand for. -/
def berValue (octets : List U8) : Nat := readFrom 128 0 (octets.map sevenBits)

/-- Octets of which all but the last have the high bit. -/
def Terminated (octets : List U8) : Prop :=
  ∃ pre c, octets = pre ++ [c] ∧ (∀ x ∈ pre, 0x80 ≤ x.toNat) ∧ c.toNat < 0x80

theorem sevenBits_lt (c : U8) : sevenBits c < 128 := Nat.mod_lt _ (by decide)

theorem numeral_sevenBits (octets : List U8) : Numeral 128 (octets.map sevenBits) := by
  intro d hd
  obtain ⟨c, -, rfl⟩ := List.mem_map.1 hd
  exact sevenBits_lt c

theorem and_seven (c : U8) : (c &&& 0x7F).toNat = sevenBits c := by
  revert c
  decide +kernel

theorem and_high (c : U8) : c &&& 0x80 = 0 ↔ c.toNat < 0x80 := by
  revert c
  decide +kernel

theorem word_step (h : auv.toNat < 2 ^ 57) (c : U8) :
    ((auv <<< 7) ||| (c &&& 0x7F).setWidth 64).toNat = auv.toNat * 128 + sevenBits c := by
  have hseven := sevenBits_lt c
  have hlow : ((c &&& 0x7F).setWidth 64).toNat = sevenBits c := by
    rw [BitVec.toNat_setWidth, and_seven, Nat.mod_eq_of_lt (by omega)]
  have hhigh : (auv <<< 7).toNat = 2 ^ 7 * auv.toNat := by
    rw [BitVec.toNat_shiftLeft, Nat.shiftLeft_eq, Nat.mod_eq_of_lt (by omega), Nat.mul_comm]
  rw [BitVec.toNat_or, hhigh, hlow, ← Nat.two_pow_add_eq_or_of_lt (by omega)]
  omega

theorem promoteLoop_spec (h : Numeral 10 ds) (hpre : ∀ x ∈ pre, 0x80 ≤ x.toNat) :
    (∃ es : List Nat, promoteLoop (ds.map digit) pre = (es.map digit, [], false)) ∧
      ∀ (c : U8) (rest : List U8), c.toNat < 0x80 → ∃ es, Numeral 10 es ∧
        promoteLoop (ds.map digit) (pre ++ c :: rest) = (es.map digit, rest, true) ∧
        readFrom 10 0 es = readFrom 128 (readFrom 10 0 ds) ((pre ++ [c]).map sevenBits) := by
  induction pre generalizing ds with
  | nil =>
    refine ⟨⟨ds, rfl⟩, fun c rest hc => ?_⟩
    obtain ⟨es, hes, hnumeral, hvalue⟩ := mul128_spec h (sevenBits_lt c)
    refine ⟨es, hnumeral, ?_, hvalue⟩
    rw [List.nil_append, promoteLoop, and_seven, hes]
    exact if_pos ((and_high c).2 hc)
  | cons x pre ih =>
    obtain ⟨hx, hpre⟩ := List.forall_mem_cons.1 hpre
    have hhigh : ¬ x &&& 0x80 = 0 := by
      rw [and_high]
      omega
    obtain ⟨es, hes, hnumeral, hvalue⟩ := mul128_spec h (sevenBits_lt x)
    obtain ⟨hends, hlast⟩ := ih hnumeral hpre
    refine ⟨?_, fun c rest hc => ?_⟩
    · rw [promoteLoop, and_seven, hes, if_neg hhigh]
      exact hends
    · obtain ⟨fs, hfs, hrun, hread⟩ := hlast c rest hc
      refine ⟨fs, hfs, ?_, ?_⟩
      · rw [List.cons_append, promoteLoop, and_seven, hes, if_neg hhigh]
        exact hrun
      · rw [hread, List.cons_append, List.map_cons, readFrom_cons, hvalue]

/-- What `w` gives for a terminated string of octets. -/
def text (octets : List U8) : List U8 :=
  if berValue octets = 0 ∧ 8 < octets.length then [] else decimal (berValue octets)

theorem decimal_zero : decimal 0 = [0x30] := by
  decide

theorem text_eq_iff (octets : List U8) :
    text octets = decimal (berValue octets) ↔ ¬ (berValue octets = 0 ∧ 8 < octets.length) := by
  rw [text]
  split_ifs with h
  · refine iff_of_false (fun heq => ?_) (not_not.2 h)
    rw [h.1, decimal_zero] at heq
    cases heq
  · exact iff_of_true rfl h

theorem start_lt : (0 : UV).toNat < 128 ^ 0 := by
  decide

theorem unpackLoop_continue (hpre : ∀ x ∈ pre, 0x80 ≤ x.toNat) (hbytes : bytes + pre.length < 8)
    (hauv : auv.toNat < 128 ^ bytes) (n len : Nat) (s : List U8) (pushed : List (List U8)) :
    ∃ word : UV, unpackLoop (pre.length + n) (len + 1) auv bytes (pre ++ s) pushed =
        unpackLoop n (len + 1) word (bytes + pre.length) s pushed ∧
      word.toNat = readFrom 128 auv.toNat (pre.map sevenBits) ∧
      word.toNat < 128 ^ (bytes + pre.length) := by
  induction pre generalizing auv bytes with
  | nil => exact ⟨auv, by rw [List.length_nil, Nat.zero_add]; rfl, rfl, hauv⟩
  | cons x pre ih =>
    obtain ⟨hx, hpre⟩ := List.forall_mem_cons.1 hpre
    rw [List.length_cons] at hbytes
    have hsmall : 128 ^ bytes ≤ 2 ^ 57 := by
      calc 128 ^ bytes ≤ 128 ^ 7 := Nat.pow_le_pow_right (by decide) (by omega)
        _ ≤ 2 ^ 57 := by decide
    have hword := word_step (hauv.trans_le hsmall) x
    have hseven := sevenBits_lt x
    have hnext : ((auv <<< 7) ||| (x &&& 0x7F).setWidth 64).toNat < 128 ^ (bytes + 1) := by
      rw [hword, Nat.pow_succ]
      omega
    obtain ⟨word, hrun, hread, hlt⟩ := ih hpre (by omega) hnext
    refine ⟨word, ?_, ?_, ?_⟩
    · rw [List.length_cons, show pre.length + 1 + n = pre.length + n + 1 by omega, List.cons_append,
        unpackLoop, if_pos (Nat.succ_pos len)]
      dsimp only
      rw [if_neg (by omega), if_neg (by omega), hrun,
        show bytes + 1 + pre.length = bytes + (pre.length + 1) by omega]
    · rw [hread, hword, List.map_cons, readFrom_cons]
    · rw [List.length_cons, show bytes + (pre.length + 1) = bytes + 1 + pre.length by omega]
      exact hlt

theorem unpackLoop_promote {x : U8} (hpre : ∀ y ∈ pre, 0x80 ≤ y.toNat) (hx : 0x80 ≤ x.toNat)
    (hauv : auv.toNat < 128 ^ 7) (n len : Nat) (pushed : List (List U8)) :
    (∃ sv, unpackLoop (n + 1) (len + 1) auv 7 (x :: pre) pushed =
        unpackLoop n len 0 8 [] (pushed ++ [sv])) ∧
      ∀ (c : U8) (s : List U8), c.toNat < 0x80 → ∃ v,
        v = readFrom 128 auv.toNat ((x :: pre ++ [c]).map sevenBits) ∧
        unpackLoop (n + 1) (len + 1) auv 7 (x :: (pre ++ c :: s)) pushed =
          unpackLoop n len 0 0 s (pushed ++ [if v = 0 then [] else decimal v]) := by
  have hword := word_step (show auv.toNat < 2 ^ 57 by omega) x
  have hseven := sevenBits_lt x
  generalize hauv' : auv <<< 7 ||| (x &&& 0x7F).setWidth 64 = word at hword
  have hdigits : readFrom 10 0 (digits 10 20 word.toNat) = word.toNat := by
    rw [readFrom_digits, Nat.zero_mul, Nat.zero_add, Nat.mod_eq_of_lt (by omega)]
  obtain ⟨hends, hlast⟩ := promoteLoop_spec (numeral_digits (by decide) 20 word.toNat) hpre
  constructor
  · obtain ⟨es, hes⟩ := hends
    refine ⟨(es.map digit).dropWhile (· = 0x30), ?_⟩
    rw [unpackLoop, if_pos (Nat.succ_pos len)]
    dsimp only
    rw [if_neg (by omega), if_pos (by decide), hauv', hes]
    rfl
  · intro c s hc
    obtain ⟨es, hnumeral, hrun, hread⟩ := hlast c s hc
    refine ⟨readFrom 10 0 es, ?_, ?_⟩
    · rw [hread, hdigits, List.cons_append, List.map_cons, readFrom_cons, hword]
    · rw [unpackLoop, if_pos (Nat.succ_pos len)]
      dsimp only
      rw [if_neg (by omega), if_pos (by decide), hauv', hrun, dropWhile_eq_decimal hnumeral rfl]
      rfl

theorem unpackLoop_step (h : Terminated octets) (s : List U8) (hn : (octets ++ s).length ≤ n)
    (len : Nat) (pushed : List (List U8)) :
    ∃ n', s.length ≤ n' ∧ unpackLoop n (len + 1) 0 0 (octets ++ s) pushed =
      unpackLoop n' len 0 0 s (pushed ++ [text octets]) := by
  obtain ⟨pre, c, rfl, hpre, hc⟩ := h
  rw [List.length_append, List.length_append, List.length_singleton] at hn
  by_cases hshort : pre.length < 8
  · obtain ⟨k, rfl⟩ : ∃ k, n = pre.length + (k + 1) := ⟨n - pre.length - 1, by omega⟩
    obtain ⟨word, hrun, hread, hlt⟩ :=
      unpackLoop_continue hpre (by omega) start_lt (k + 1) len (c :: s) pushed
    have hsmall : 128 ^ (0 + pre.length) ≤ 2 ^ 57 := by
      calc 128 ^ (0 + pre.length) ≤ 128 ^ 7 := Nat.pow_le_pow_right (by decide) (by omega)
        _ ≤ 2 ^ 57 := by decide
    have hvalue : word.toNat * 128 + sevenBits c = berValue (pre ++ [c]) := by
      rw [hread, berValue, List.map_append, readFrom_append]
      rfl
    have htext : text (pre ++ [c]) = decimal (berValue (pre ++ [c])) := by
      rw [text_eq_iff, List.length_append, List.length_singleton]
      omega
    refine ⟨k, by omega, ?_⟩
    rw [List.append_assoc, List.singleton_append, hrun, unpackLoop, if_pos (Nat.succ_pos len)]
    dsimp only
    rw [if_pos hc, word_step (hlt.trans_le hsmall), hvalue, htext, Nat.add_sub_cancel]
  · obtain ⟨x, more, hmore⟩ : ∃ x more, pre.drop 7 = x :: more := by
      apply List.exists_cons_of_ne_nil
      intro hnil
      have hlength := congrArg List.length hnil
      rw [List.length_drop, List.length_nil] at hlength
      omega
    have hsplit : pre = pre.take 7 ++ x :: more := by
      rw [← hmore, List.take_append_drop]
    have hseven : (pre.take 7).length = 7 := by
      rw [List.length_take]
      omega
    have hmoreLength : more.length + 8 = pre.length := by
      have hlength := congrArg List.length hmore
      rw [List.length_drop, List.length_cons] at hlength
      omega
    rw [hsplit] at hpre
    obtain ⟨hfirst, hrest⟩ := List.forall_mem_append.1 hpre
    obtain ⟨hx, hrest⟩ := List.forall_mem_cons.1 hrest
    obtain ⟨k, rfl⟩ : ∃ k, n = 7 + (k + 1) := ⟨n - 8, by omega⟩
    obtain ⟨word, hrun, hread, hlt⟩ :=
      unpackLoop_continue hfirst (by omega) start_lt (k + 1) len (x :: (more ++ c :: s)) pushed
    rw [hseven, Nat.zero_add] at hrun hlt
    obtain ⟨v, hv, hpromote⟩ := (unpackLoop_promote hrest hx hlt k len pushed).2 c s hc
    have hvalue : v = berValue (pre ++ [c]) := by
      rw [hv, hread, berValue, ← readFrom_append, ← List.map_append]
      conv_rhs => rw [hsplit]
      simp
    have htext : text (pre ++ [c]) = if v = 0 then [] else decimal v := by
      have hlong : 8 < (pre ++ [c]).length := by
        rw [List.length_append, List.length_singleton]
        omega
      rw [text, ← hvalue]
      simp only [hlong, and_true]
    refine ⟨k, by omega, ?_⟩
    rw [htext, ← hpromote]
    conv_lhs => rw [hsplit]
    rw [List.append_assoc, List.append_assoc, List.cons_append, List.singleton_append, hrun]

theorem unpackLoop_open (hpre : ∀ x ∈ pre, 0x80 ≤ x.toNat) (hne : pre ≠ []) (hn : pre.length ≤ n)
    (len : Nat) (pushed : List (List U8)) :
    ∃ pushed' bytes, unpackLoop n (len + 1) 0 0 pre pushed = (pushed', [], bytes) ∧ bytes ≠ 0 := by
  have hpos := List.length_pos_of_ne_nil hne
  have hend (k len' bytes : Nat) (word : UV) (pushed' : List (List U8)) :
      unpackLoop k len' word bytes [] pushed' = (pushed', [], bytes) := by
    cases k with
    | zero => rfl
    | succ k =>
      rw [unpackLoop]
      split_ifs <;> rfl
  by_cases hshort : pre.length < 8
  · obtain ⟨k, rfl⟩ : ∃ k, n = pre.length + k := ⟨n - pre.length, by omega⟩
    obtain ⟨word, hrun, -, -⟩ := unpackLoop_continue hpre (by omega) start_lt k len [] pushed
    rw [List.append_nil, hend] at hrun
    exact ⟨_, _, hrun, by omega⟩
  · have hseven : (pre.take 7).length = 7 := by
      rw [List.length_take]
      omega
    obtain ⟨x, more, hmore⟩ : ∃ x more, pre.drop 7 = x :: more := by
      apply List.exists_cons_of_ne_nil
      intro hnil
      have hlength := congrArg List.length hnil
      rw [List.length_drop, List.length_nil] at hlength
      omega
    have hsplit : pre = pre.take 7 ++ x :: more := by
      rw [← hmore, List.take_append_drop]
    rw [hsplit] at hpre
    obtain ⟨hfirst, hrest⟩ := List.forall_mem_append.1 hpre
    obtain ⟨hx, hrest⟩ := List.forall_mem_cons.1 hrest
    obtain ⟨k, rfl⟩ : ∃ k, n = 7 + (k + 1) := ⟨n - 8, by omega⟩
    obtain ⟨word, hrun, -, hlt⟩ :=
      unpackLoop_continue hfirst (by omega) start_lt (k + 1) len (x :: more) pushed
    rw [hseven, Nat.zero_add] at hrun hlt
    obtain ⟨sv, hpromote⟩ := (unpackLoop_promote hrest hx hlt k len pushed).1
    rw [hpromote, hend, ← hsplit] at hrun
    exact ⟨_, _, hrun, by decide⟩

theorem unpackLoop_run (oss : List (List U8)) (h : ∀ o ∈ oss, Terminated o) (s : List U8)
    (hn : (oss.flatten ++ s).length ≤ n) (len : Nat) (pushed : List (List U8)) :
    ∃ n', s.length ≤ n' ∧ unpackLoop n (oss.length + len) 0 0 (oss.flatten ++ s) pushed =
      unpackLoop n' len 0 0 s (pushed ++ oss.map text) := by
  induction oss generalizing n pushed with
  | nil =>
    refine ⟨n, hn, ?_⟩
    rw [List.length_nil, Nat.zero_add, List.map_nil, List.append_nil]
    rfl
  | cons o oss ih =>
    obtain ⟨ho, hoss⟩ := List.forall_mem_cons.1 h
    rw [List.flatten_cons, List.append_assoc] at hn ⊢
    obtain ⟨n₁, hn₁, hstep⟩ := unpackLoop_step ho (oss.flatten ++ s) hn (oss.length + len) pushed
    obtain ⟨n₂, hn₂, hrun⟩ := ih hoss hn₁ (pushed ++ [text o])
    refine ⟨n₂, hn₂, ?_⟩
    rw [List.length_cons, show oss.length + 1 + len = oss.length + len + 1 by omega, hstep, hrun,
      List.append_assoc, List.map_cons]
    rfl

theorem length_le_flatten (oss : List (List U8)) (h : ∀ o ∈ oss, Terminated o) :
    oss.length ≤ oss.flatten.length := by
  induction oss with
  | nil => exact Nat.le_refl 0
  | cons o oss ih =>
    obtain ⟨ho, hoss⟩ := List.forall_mem_cons.1 h
    obtain ⟨pre, c, rfl, -, -⟩ := ho
    have hrest := ih hoss
    rw [List.flatten_cons, List.length_append, List.length_append, List.length_singleton,
      List.length_cons]
    omega

theorem unpackW_terminated (oss : List (List U8)) (h : ∀ o ∈ oss, Terminated o)
    (hlen : oss.length ≤ len) : unpackW len oss.flatten = .ok (oss.map text, []) := by
  have hshort := length_le_flatten oss h
  obtain ⟨k, hk⟩ : ∃ k, min len oss.flatten.length = oss.length + k :=
    ⟨min len oss.flatten.length - oss.length, by omega⟩
  have hfuel : (oss.flatten ++ []).length ≤ oss.flatten.length := by rw [List.append_nil]
  obtain ⟨n, -, hrun⟩ := unpackLoop_run oss h [] hfuel k []
  rw [List.append_nil, List.nil_append] at hrun
  have hend : unpackLoop n k 0 0 [] (oss.map text) = (oss.map text, [], 0) := by
    cases n with
    | zero => rfl
    | succ n =>
      rw [unpackLoop]
      split_ifs <;> rfl
  rw [unpackW, hk, hrun, hend]
  rfl

theorem unpackW_open (oss : List (List U8)) (h : ∀ o ∈ oss, Terminated o)
    (hpre : ∀ x ∈ pre, 0x80 ≤ x.toNat) (hne : pre ≠ []) (hlen : oss.length < len) :
    unpackW len (oss.flatten ++ pre) = .error .unterminatedCompressedInteger := by
  have hshort := length_le_flatten oss h
  have hpos := List.length_pos_of_ne_nil hne
  obtain ⟨k, hk⟩ : ∃ k, min len (oss.flatten ++ pre).length = oss.length + (k + 1) :=
    ⟨min len (oss.flatten ++ pre).length - oss.length - 1, by
      rw [List.length_append]
      omega⟩
  obtain ⟨n, hn, hrun⟩ := unpackLoop_run oss h pre (Nat.le_refl _) (k + 1) []
  obtain ⟨pushed, bytes, hopen, hbytes⟩ := unpackLoop_open hpre hne hn k ([] ++ oss.map text)
  rw [unpackW, hk, hrun, hopen]
  exact if_pos ⟨rfl, hbytes⟩

def high (d : Nat) : U8 := BitVec.ofNat 8 d ||| 0x80

/-- The shortest octets for a number. -/
def compressed (v : Nat) : List U8 := clearContinue ((numeral 128 v).map high)

/-- Octets stand for a number, and no others that do are as short. -/
def Shortest (octets : List U8) (v : Nat) : Prop :=
  Terminated octets ∧ berValue octets = v ∧
    ∀ other, Terminated other → berValue other = v → other = octets ∨ octets.length < other.length

theorem high_spec (h : d < 128) :
    0x80 ≤ (high d).toNat ∧ sevenBits (high d) = d ∧ (high d &&& 0x7F).toNat = d := by
  have hall : ∀ d < 128, 0x80 ≤ (high d).toNat ∧ sevenBits (high d) = d ∧
      (high d &&& 0x7F).toNat = d := by decide +kernel
  exact hall d h

theorem clearContinue_concat (pre : List U8) (c : U8) :
    clearContinue (pre ++ [c]) = pre ++ [c &&& 0x7F] := by
  simp [clearContinue]

@[simp] theorem length_clearContinue (octets : List U8) :
    (clearContinue octets).length = octets.length := by
  rcases List.eq_nil_or_concat' octets with rfl | ⟨pre, c, rfl⟩
  · rfl
  · rw [clearContinue_concat]
    simp

theorem clearContinue_high (h : Numeral 128 ds) (hne : ds ≠ []) :
    Terminated (clearContinue (ds.map high)) ∧
      (clearContinue (ds.map high)).map sevenBits = ds := by
  obtain ⟨es, d, rfl⟩ := (List.eq_nil_or_concat' ds).resolve_left hne
  obtain ⟨hes, hd⟩ := numeral_append.1 h
  have hlast := high_spec (hd d List.mem_cons_self)
  have hlt : d < 128 := hd d List.mem_cons_self
  have hseven : sevenBits (high d &&& 0x7F) = d := by
    rw [sevenBits, hlast.2.2, Nat.mod_eq_of_lt hlt]
  rw [List.map_append, List.map_singleton, clearContinue_concat]
  refine ⟨⟨es.map high, high d &&& 0x7F, rfl, fun x hx => ?_, by omega⟩, ?_⟩
  · obtain ⟨e, he, rfl⟩ := List.mem_map.1 hx
    exact (high_spec (hes e he)).1
  · rw [List.map_append, List.map_singleton, hseven, List.map_map]
    congr 1
    conv_rhs => rw [← List.map_id es]
    exact List.map_congr_left fun e he => (high_spec (hes e he)).2.1

theorem high_sevenBits (h : 0x80 ≤ c.toNat) : high (sevenBits c) = c := by
  revert c
  decide +kernel

theorem high_low (h : c.toNat < 0x80) : high (sevenBits c) &&& 0x7F = c := by
  revert c
  decide +kernel

theorem Terminated.eq_clearContinue (h : Terminated octets) :
    octets = clearContinue ((octets.map sevenBits).map high) := by
  obtain ⟨pre, c, rfl, hpre, hc⟩ := h
  have hmap : (pre.map sevenBits).map high = pre := by
    rw [List.map_map]
    conv_rhs => rw [← List.map_id pre]
    exact List.map_congr_left fun x hx => high_sevenBits (hpre x hx)
  rw [List.map_append, List.map_append, hmap, List.map_singleton, List.map_singleton,
    clearContinue_concat, high_low hc]

theorem shortest_compressed (v : Nat) : Shortest (compressed v) v := by
  obtain ⟨hterminated, hseven⟩ :=
    clearContinue_high (numeral_digits_numeral (by decide) v) (numeral_ne_nil 128 v)
  refine ⟨hterminated, ?_, fun other hother hvalue => ?_⟩
  · rw [berValue, compressed, hseven, readFrom_numeral (by decide)]
  · have hne : other.map sevenBits ≠ [] := by
      obtain ⟨pre, c, rfl, -, -⟩ := hother
      simp
    obtain ⟨hle, heq⟩ := length_numeral_le (numeral_sevenBits other) hne
    have hread : readFrom 128 0 (other.map sevenBits) = v := hvalue
    rw [hread, List.length_map] at hle heq
    rcases Nat.eq_or_lt_of_le hle with hlength | hlt
    · left
      rw [hother.eq_clearContinue, ← heq hlength, compressed]
    · right
      rw [compressed, length_clearContinue, List.length_map]
      exact hlt

theorem word_octet (auv : UV) :
    ((auv &&& 0x7F) ||| 0x80).setWidth 8 = high (auv.toNat % 128) := by
  have hlow : (auv &&& 0x7F).toNat = auv.toNat % 128 := by
    rw [BitVec.toNat_and]
    exact Nat.and_two_pow_sub_one_eq_mod _ 7
  have hall : ∀ d < 128, (d ||| 0x80) % 256 = (high d).toNat := by decide +kernel
  apply BitVec.eq_of_toNat_eq
  rw [BitVec.toNat_setWidth, BitVec.toNat_or, hlow]
  exact hall _ (Nat.mod_lt _ (by decide))

theorem wordLoop_eq (room : Nat) (acc : List U8)
    (hroom : (numeral 128 auv.toNat).length ≤ room) :
    wordLoop room auv acc = some ((numeral 128 auv.toNat).map high ++ acc) := by
  induction room generalizing auv acc with
  | zero =>
    rw [length_numeral] at hroom
    omega
  | succ room ih =>
    have hshift : (auv >>> 7).toNat = auv.toNat / 128 := by
      rw [BitVec.toNat_ushiftRight, Nat.shiftRight_eq_div_pow]
    have hzero : auv >>> 7 = 0 ↔ auv.toNat < 128 := by
      rw [← BitVec.toNat_inj, hshift]
      change auv.toNat / 128 = 0 ↔ _
      omega
    rw [wordLoop, word_octet]
    by_cases hsmall : auv.toNat < 128
    · rw [if_neg (not_not.2 (hzero.2 hsmall)), numeral_of_lt hsmall, Nat.mod_eq_of_lt hsmall]
      rfl
    · have hsplit := numeral_of_le (by decide) (Nat.not_lt.1 hsmall)
      rw [hsplit, List.length_append, List.length_singleton] at hroom
      have hrest : (numeral 128 (auv >>> 7).toNat).length ≤ room := by
        rw [hshift]
        omega
      rw [if_pos (mt hzero.1 hsmall), ih _ hrest, hshift, hsplit]
      simp

theorem divLoop_spec (h : Numeral 10 ds) (hm : m < 128) :
    ∃ es r, divLoop m (ds.map digit) = (es.map digit, r, decide (readFrom 10 0 es = 0)) ∧
      Numeral 10 es ∧ es.length = ds.length ∧ r < 128 ∧
      readFrom 10 m ds = 128 * readFrom 10 0 es + r := by
  induction ds generalizing m with
  | nil => exact ⟨[], m, rfl, by simp [Numeral], rfl, hm, by simp⟩
  | cons d ds ih =>
    obtain ⟨hd, hds⟩ := List.forall_mem_cons.1 h
    have hi : m * 10 + ((digit d).toNat - 0x30) = m * 10 + d := by
      rw [toNat_digit hd, Nat.add_sub_cancel_left]
    have hmod : (m * 10 + d) &&& 0x7F = (m * 10 + d) % 128 := Nat.and_two_pow_sub_one_eq_mod _ 7
    have hdiv : (m * 10 + d) >>> 7 = (m * 10 + d) / 128 := Nat.shiftRight_eq_div_pow _ 7
    obtain ⟨es, r, hrun, hes, hlength, hr, hvalue⟩ :=
      ih hds (m := (m * 10 + d) % 128) (Nat.mod_lt _ (by decide))
    have hhead := readFrom_eq_add 10 ((m * 10 + d) / 128) es
    have hread : readFrom 10 0 ((m * 10 + d) / 128 :: es) =
        readFrom 10 ((m * 10 + d) / 128) es := by
      rw [readFrom_cons, Nat.zero_mul, Nat.zero_add]
    refine ⟨(m * 10 + d) / 128 :: es, r, ?_, ?_, ?_, hr, ?_⟩
    · rw [List.map_cons, divLoop, hi]
      dsimp only
      rw [hmod, hdiv, hrun]
      have hpos : 0 < 10 ^ es.length := Nat.pow_pos (by decide)
      have hzero : readFrom 10 0 ((m * 10 + d) / 128 :: es) = 0 ↔
          readFrom 10 0 es = 0 ∧ (m * 10 + d) / 128 = 0 := by
        rw [hread, hhead, Nat.add_eq_zero_iff, Nat.mul_eq_zero]
        constructor
        · intro hand
          exact ⟨hand.2, hand.1.resolve_right (by omega)⟩
        · exact fun hand => ⟨.inl hand.2, hand.1⟩
      rw [List.map_cons, decide_eq_decide.2 hzero, Bool.decide_and]
    · refine List.forall_mem_cons.2 ⟨?_, hes⟩
      omega
    · rw [List.length_cons, List.length_cons, hlength]
    · have hsplit := Nat.div_add_mod (m * 10 + d) 128
      rw [readFrom_cons, readFrom_eq_add, hread, hhead, hlength]
      rw [readFrom_eq_add] at hvalue
      calc (m * 10 + d) * 10 ^ ds.length + readFrom 10 0 ds
          = (128 * ((m * 10 + d) / 128) + (m * 10 + d) % 128) * 10 ^ ds.length +
              readFrom 10 0 ds := by rw [hsplit]
        _ = 128 * ((m * 10 + d) / 128 * 10 ^ ds.length) +
              ((m * 10 + d) % 128 * 10 ^ ds.length + readFrom 10 0 ds) := by ring
        _ = _ := by rw [hvalue]; ring

theorem stringLoop_eq (room : Nat) (acc : List U8) (h : Numeral 10 ds)
    (hread : readFrom 10 0 ds = v) (hroom : (numeral 128 v).length ≤ room) :
    stringLoop room (ds.map digit) acc = some ((numeral 128 v).map high ++ acc) := by
  induction room generalizing ds v acc with
  | zero =>
    rw [length_numeral] at hroom
    omega
  | succ room ih =>
    obtain ⟨es, r, hrun, hes, -, hr, hvalue⟩ := divLoop_spec h (m := 0) (by decide)
    rw [hread] at hvalue
    rw [stringLoop, div128, hrun]
    dsimp only
    by_cases hsmall : v < 128
    · have hzero : readFrom 10 0 es = 0 := by omega
      have hrest : r = v := by omega
      rw [decide_eq_true hzero, if_pos rfl, numeral_of_lt hsmall, hrest]
      rfl
    · have hne : readFrom 10 0 es ≠ 0 := by omega
      have hquotient : readFrom 10 0 es = v / 128 := by omega
      have hrest : r = v % 128 := by omega
      have hsplit := numeral_of_le (by decide) (Nat.not_lt.1 hsmall)
      rw [hsplit, List.length_append, List.length_singleton] at hroom
      rw [decide_eq_false hne, if_neg Bool.false_ne_true,
        ih _ hes hquotient (by omega), hsplit, hrest]
      simp [high]

theorem isAnInt_digits (h : Numeral 10 ds) : isAnInt (ds.map digit) = some (ds.map digit) := by
  have hall : ∀ d < 10, digit d ≠ 0 ∧ digit d ≠ 0x20 ∧ digit d ≠ 0x2B ∧
      0x30 ≤ (digit d).toNat ∧ (digit d).toNat ≤ 0x39 := by decide
  have hloop (skip : Bool) : isAnIntLoop skip false (ds.map digit) = some (ds.map digit) := by
    induction ds generalizing skip with
    | nil => rfl
    | cons d ds ih =>
      obtain ⟨hd, hds⟩ := List.forall_mem_cons.1 h
      obtain ⟨hnul, hblank, hplus, hrange⟩ := hall d hd
      rw [List.map_cons, isAnIntLoop, if_neg hnul, if_neg hblank, if_neg hplus, if_pos hrange,
        if_neg Bool.false_ne_true, ih hds false]
      rfl
  exact hloop true

/-- An integer given as an IV or UV, or as a string of digits whose conversion to a word is right
where the code uses it. -/
inductive Given : Scalar → Nat → Prop
  | integer (belowUvMaxP1 : Bool) (uv : UV) (pv : List U8) :
      Given ⟨false, true, belowUvMaxP1, uv, pv⟩ uv.toNat
  | digits (iok belowUvMaxP1 : Bool) (uv : UV) (ds : List Nat) : ds ≠ [] → Numeral 10 ds →
      (iok ∨ belowUvMaxP1 → uv.toNat = readFrom 10 0 ds) →
      Given ⟨false, iok, belowUvMaxP1, uv, ds.map digit⟩ (readFrom 10 0 ds)

theorem packW_given {sv : Scalar} (h : Given sv v) : packW sv = .ok (some (compressed v)) := by
  have hword (uv : UV) : (wordLoop (8 * 8 / 7 + 1) uv []).map clearContinue =
      some (compressed uv.toNat) := by
    have hroom : (numeral 128 uv.toNat).length ≤ 8 * 8 / 7 + 1 := by
      have hlt := uv.isLt
      rw [length_numeral]
      by_cases hzero : uv.toNat = 0
      · rw [hzero, Nat.log_zero_right]
        decide
      · have hlog : Nat.log 128 uv.toNat < 10 := Nat.log_lt_of_lt_pow hzero (by omega)
        omega
    rw [wordLoop_eq _ _ hroom, List.append_nil]
    rfl
  cases h with
  | integer belowUvMaxP1 uv pv =>
    rw [packW, if_neg Bool.false_ne_true, if_pos (.inl rfl), hword]
  | digits iok belowUvMaxP1 uv ds hne hnumeral hvalue =>
    rw [packW, if_neg Bool.false_ne_true]
    dsimp only
    split_ifs with hflags
    · rw [hword, hvalue hflags]
    · have hpos := List.length_pos_of_ne_nil hne
      have hroom : (numeral 128 (readFrom 10 0 ds)).length ≤ (ds.map digit).length := by
        rw [length_numeral, List.length_map]
        by_cases hzero : readFrom 10 0 ds = 0
        · rw [hzero, Nat.log_zero_right]
          omega
        · have hlt : readFrom 10 0 ds < (0 + 1) * 10 ^ ds.length := readFrom_lt hnumeral
          have hpow : 10 ^ ds.length ≤ 128 ^ ds.length := Nat.pow_le_pow_left (by decide) _
          have hlog := Nat.log_lt_of_lt_pow (b := 128) (x := ds.length) hzero (by omega)
          omega
      rw [isAnInt_digits hnumeral]
      dsimp only
      rw [stringLoop_eq _ _ hnumeral rfl hroom, List.append_nil]
      rfl

end XPerl.Pack
