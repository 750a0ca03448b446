import XPerl.Utf8.Sequences

/-! The first bytes of a character tell whether it is overlong and whether it overflows. -/

namespace XPerl.Utf8

open XPerl.Framework.PlaceValue

variable {c x : U8} {us ds : List U8} {n v : Nat}

/-- The first bytes of one character above ASCII, as far as they go. -/
structure Begun (c : U8) (us : List U8) : Prop where
  first : 0xC0 ≤ c.toNat
  length : us.length + 1 ≤ utf8Skip c
  continues : Continuations us

def missing (c : U8) (us : List U8) : Nat := utf8Skip c - 1 - us.length

theorem Whole.begun (h : Whole c us) : Begun c us := ⟨h.first, h.length.le, h.continues⟩

theorem value_append (c : U8) (us ds : List U8) :
    value c (us ++ ds) = readFrom 64 (value c us) (ds.map sixBits) := by
  rw [value, List.map_append, readFrom_append]
  rfl

theorem Begun.whole_append (h : Begun c us) :
    Whole c (us ++ ds) ↔ ds.length = missing c us ∧ Continuations ds := by
  have hlength := h.length
  constructor
  · intro hw
    have hwhole := hw.length
    rw [List.length_append] at hwhole
    refine ⟨?_, fun x hx => hw.continues x (List.mem_append_right _ hx)⟩
    rw [missing]
    omega
  · intro hd
    refine ⟨h.first, ?_, List.forall_mem_append.2 ⟨h.continues, hd.2⟩⟩
    have hmissing := hd.1
    rw [missing] at hmissing
    rw [List.length_append]
    omega

theorem Whole.forall_append (h : Whole c us) (P : List U8 → Prop) :
    (∀ ds, Whole c (us ++ ds) → P (us ++ ds)) ↔ P us := by
  have hlength := h.length
  have hmissing : missing c us = 0 := by
    rw [missing]
    omega
  constructor
  · intro hall
    have hnil := hall [] (by rw [List.append_nil]; exact h)
    rw [List.append_nil] at hnil
    exact hnil
  · intro hp ds hw
    have hd := (h.begun.whole_append.1 hw).1
    rw [hmissing, List.length_eq_zero_iff] at hd
    rw [hd, List.append_nil]
    exact hp

theorem Begun.forall_value_iff (h : Begun c us) (P : Nat → Prop) :
    (∀ ds, Whole c (us ++ ds) → P (value c (us ++ ds))) ↔
      ∀ v, value c us * 64 ^ missing c us ≤ v → v < (value c us + 1) * 64 ^ missing c us →
        P v := by
  constructor
  · intro hall v hle hlt
    obtain ⟨digits, hlen, hdigits, hread⟩ := (exists_readFrom_iff (by decide)).2 ⟨hle, hlt⟩
    have hsix : (digits.map continuation).map sixBits = digits := by
      rw [List.map_map]
      conv_rhs => rw [← List.map_id digits]
      exact List.map_congr_left fun d hd => (continuation_spec (hdigits d hd)).2
    have hwhole : Whole c (us ++ digits.map continuation) := by
      refine h.whole_append.2 ⟨by rw [List.length_map, hlen], fun y hy => ?_⟩
      obtain ⟨d, hd, hdy⟩ := List.mem_map.1 hy
      rw [← hdy]
      exact (continuation_spec (hdigits d hd)).1
    have hv := hall _ hwhole
    rw [value_append, hsix, hread] at hv
    exact hv
  · intro hall ds hw
    have hlen := (h.whole_append.1 hw).1
    have hmap : (ds.map sixBits).length = missing c us := by rw [List.length_map, hlen]
    rw [value_append]
    apply hall
    · rw [← hmap]
      exact le_readFrom 64 _ _
    · rw [← hmap]
      exact readFrom_lt (numeral_sixBits ds)

theorem Begun.forall_ge_iff (h : Begun c us) :
    (∀ ds, Whole c (us ++ ds) → n ≤ value c (us ++ ds)) ↔
      n ≤ value c us * 64 ^ missing c us := by
  rw [h.forall_value_iff (n ≤ ·)]
  constructor
  · intro hall
    exact hall _ (Nat.le_refl _) (Nat.mul_lt_mul_of_pos_right (Nat.lt_succ_self _) (by positivity))
  · exact fun hle v hv _ => hle.trans hv

theorem Begun.forall_lt_iff (h : Begun c us) :
    (∀ ds, Whole c (us ++ ds) → value c (us ++ ds) < n) ↔
      (value c us + 1) * 64 ^ missing c us ≤ n := by
  have hpos : 0 < (value c us + 1) * 64 ^ missing c us := by positivity
  have hmul : (value c us + 1) * 64 ^ missing c us =
      value c us * 64 ^ missing c us + 64 ^ missing c us := Nat.succ_mul _ _
  have hone : 0 < 64 ^ missing c us := by positivity
  rw [h.forall_value_iff (· < n)]
  constructor
  · intro hall
    have hlast := hall ((value c us + 1) * 64 ^ missing c us - 1) (by omega) (by omega)
    omega
  · exact fun hle v _ hv => hv.trans_le hle

def secondLeast (c : U8) : Nat :=
  if c = 0xE0 then 0xA0
  else if c = 0xF0 ∨ c = 0xF8 ∨ c = 0xFC ∨ c = 0xFE then 0x80 + 0x100 - c.toNat
  else 0x80

def twoLeast : Nat → Nat
  | 2 => 128
  | 3 => 32
  | 4 => 16
  | 5 => 8
  | 6 => 4
  | _ => 2

theorem least_eq (hn : n ∈ lengths) (h : n ≠ 13) : least n = twoLeast n * 64 ^ (n - 2) := by
  revert n
  decide

theorem second_lt_iff (hfirst : 0xC2 ≤ c.toNat) (hlast : c.toNat < 0xFF)
    (hx : isContinuation x = true) :
    lead c * 64 + sixBits x < twoLeast (utf8Skip c) ↔ x.toNat < secondLeast c := by
  have hall : ∀ c : U8, 0xC2 ≤ c.toNat → c.toNat < 0xFF →
      (twoLeast (utf8Skip c) ≤ lead c * 64 ∧ secondLeast c = 0x80) ∨
        (lead c = 0 ∧ secondLeast c = 0x80 + twoLeast (utf8Skip c)) := by decide
  have hsix := toNat_of_continuation hx
  rcases hall c hfirst hlast with h | h <;> obtain ⟨h, h'⟩ := h
  · omega
  · rw [h, h']
    omega

theorem lt_of_ne_last (h : c ≠ 0xFF) : c.toNat < 0xFF := by
  have hlt := c.isLt
  have hne : c.toNat ≠ 0xFF := fun heq => h (BitVec.eq_of_toNat_eq heq)
  omega

theorem skip_ne (h : c.toNat < 0xFF) : utf8Skip c ≠ 13 := by
  revert c
  decide

theorem Begun.overlong_iff_second (h : Begun c (x :: us)) (hfirst : 0xC2 ≤ c.toNat)
    (hlast : c.toNat < 0xFF) :
    (∀ ds, Whole c (x :: us ++ ds) → value c (x :: us ++ ds) < least (utf8Skip c)) ↔
      x.toNat < secondLeast c := by
  have hx := h.continues x List.mem_cons_self
  have hlength := h.length
  rw [List.length_cons] at hlength
  have hmissing : missing c (x :: us) = utf8Skip c - 2 - us.length := by
    rw [missing, List.length_cons]
    omega
  have hmap : (us.map sixBits).length = us.length := List.length_map _
  have hpow : twoLeast (utf8Skip c) * 64 ^ (utf8Skip c - 2) =
      twoLeast (utf8Skip c) * 64 ^ us.length * 64 ^ (utf8Skip c - 2 - us.length) := by
    rw [Nat.mul_assoc, ← Nat.pow_add, show us.length + (utf8Skip c - 2 - us.length) =
      utf8Skip c - 2 by omega]
  rw [h.forall_lt_iff, least_eq (utf8Skip_mem h.first) (skip_ne hlast), hmissing, hpow,
    Nat.mul_le_mul_right_iff (by positivity), Nat.succ_le_iff, ← second_lt_iff hfirst hlast hx,
    value, List.map_cons, readFrom_cons, ← hmap, readFrom_lt_iff (numeral_sixBits us)]

theorem isUtf8Overlong_second (hfirst : 0xC2 ≤ c.toNat) (hlast : c.toNat < 0xFF)
    (hx : isContinuation x = true) :
    0 < isUtf8Overlong (c :: x :: us) ↔ x.toNat < secondLeast c := by
  have hrange := (isContinuation_iff x).1 hx
  have hzero : c ≠ 0xC0 := fun h => by
    subst h
    revert hfirst
    decide
  have hone : c ≠ 0xC1 := fun h => by
    subst h
    revert hfirst
    decide
  have hff : c ≠ 0xFF := fun h => by
    subst h
    revert hlast
    decide
  have hbyte : byteAt (c :: x :: us) 0 = c := rfl
  have hnext : byteAt (c :: x :: us) 1 = x := rfl
  have hlength : ¬ (c :: x :: us).length < 2 := by
    rw [List.length_cons, List.length_cons]
    omega
  rw [isUtf8Overlong, secondLeast]
  simp only [hbyte, hnext, hlength, hzero, hone, hff, or_self, if_false]
  by_cases he0 : c = 0xE0
  · rw [if_pos he0, if_pos he0]
    split_ifs with h <;> simp [h]
  · rw [if_neg he0, if_neg he0]
    by_cases hf : c = 0xF0 ∨ c = 0xF8 ∨ c = 0xFC ∨ c = 0xFE
    · rw [if_pos hf, if_pos hf]
      split_ifs with h <;> simp [h]
    · rw [if_neg hf, if_neg hf]
      simp only [Int.lt_irrefl, false_iff]
      omega

theorem isFFOverlong_pos_iff (us : List U8) :
    0 < isFFOverlong (0xFF :: us) ↔ us.take 6 = List.replicate 6 0x80 := by
  rw [isFFOverlong]
  by_cases hlong : 6 ≤ us.length
  · have hmin : min (0xFF :: us : List U8).length 7 = 7 := by
      rw [List.length_cons]
      omega
    have hseven : 7 ≤ (0xFF :: us : List U8).length := by
      rw [List.length_cons]
      omega
    simp only [hmin, if_pos hseven]
    rw [List.take_succ_cons]
    by_cases h : us.take 6 = List.replicate 6 0x80
    · rw [h]
      decide
    · have hne : ((0xFF : U8) :: us.take 6) ≠
          List.take 7 [0xFF, 0x80, 0x80, 0x80, 0x80, 0x80, 0x80] := fun heq =>
        h (List.cons.inj heq).2
      rw [if_pos hne]
      simp only [Int.lt_irrefl, h]
  · have hseven : ¬ 7 ≤ (0xFF :: us : List U8).length := by
      rw [List.length_cons]
      omega
    have hne : us.take 6 ≠ List.replicate 6 0x80 := fun heq => by
      have hlen := congrArg List.length heq
      rw [List.length_take, List.length_replicate] at hlen
      omega
    simp only [if_neg hseven, hne, iff_false]
    split_ifs <;> decide

theorem sixBits_eq_zero_iff (h : isContinuation x = true) : sixBits x = 0 ↔ x = 0x80 := by
  have hsix := toNat_of_continuation h
  rw [← BitVec.toNat_inj]
  change sixBits x = 0 ↔ x.toNat = 0x80
  omega

theorem Begun.overlong_iff_prefix (h : Begun 0xFF us) :
    (∀ ds, Whole 0xFF (us ++ ds) → value 0xFF (us ++ ds) < least (utf8Skip 0xFF)) ↔
      us.take 6 = List.replicate 6 0x80 := by
  have hlength : us.length + 1 ≤ 13 := h.length
  have hleast : least (utf8Skip 0xFF) = 64 ^ 6 := by decide
  have hmissing : missing 0xFF us = 12 - us.length := rfl
  rw [h.forall_lt_iff, hleast, hmissing]
  by_cases hlong : 6 ≤ us.length
  · have hsplit : us.map sixBits = (us.take 6).map sixBits ++ (us.drop 6).map sixBits := by
      rw [← List.map_append, List.take_append_drop]
    have hrest : ((us.drop 6).map sixBits).length = us.length - 6 := by
      rw [List.length_map, List.length_drop]
    have hpow : 64 ^ 6 = 1 * 64 ^ (us.length - 6) * 64 ^ (12 - us.length) := by
      rw [Nat.one_mul, ← Nat.pow_add, show us.length - 6 + (12 - us.length) = 6 by omega]
    rw [hpow, Nat.mul_le_mul_right_iff (by positivity), Nat.succ_le_iff, value, hsplit,
      readFrom_append, ← hrest, readFrom_lt_iff (numeral_sixBits _), Nat.lt_one_iff,
      readFrom_eq_zero_iff (by decide)]
    have hlead : lead 0xFF = 0 := by decide
    rw [List.eq_replicate_iff]
    simp only [hlead, true_and, List.forall_mem_map, List.length_take]
    constructor
    · intro hzero
      refine ⟨by omega, fun x hx => ?_⟩
      exact (sixBits_eq_zero_iff (h.continues x (List.mem_of_mem_take hx))).1 (hzero x hx)
    · intro heq x hx
      rw [heq.2 x hx]
      rfl
  · have hne : us.take 6 ≠ List.replicate 6 0x80 := fun heq => by
      have hlen := congrArg List.length heq
      rw [List.length_take, List.length_replicate] at hlen
      omega
    simp only [hne, iff_false, Nat.not_le]
    calc (64 : Nat) ^ 6 < 64 ^ (12 - us.length) := Nat.pow_lt_pow_right (by decide) (by omega)
      _ ≤ (value 0xFF us + 1) * 64 ^ (12 - us.length) :=
          Nat.le_mul_of_pos_left _ (Nat.succ_pos _)

theorem Begun.isUtf8Overlong_pos_iff (h : Begun c us) :
    0 < isUtf8Overlong (c :: us) ↔
      ∀ ds, Whole c (us ++ ds) → value c (us ++ ds) < least (utf8Skip c) := by
  by_cases hff : c = 0xFF
  · subst hff
    rw [h.overlong_iff_prefix, ← isFFOverlong_pos_iff]
    rfl
  have hlast := lt_of_ne_last hff
  by_cases hfirst : 0xC2 ≤ c.toNat
  · cases us with
    | nil =>
      have hsmall : ∀ c : U8, 0xC2 ≤ c.toNat → c.toNat < 0xFF →
          ¬ 0 < isUtf8Overlong [c] ∧ twoLeast (utf8Skip c) < (lead c + 1) * 64 := by decide
      obtain ⟨hcode, htwo⟩ := hsmall c hfirst hlast
      have hpos := two_le (utf8Skip_mem h.first)
      have hmissing : missing c [] = utf8Skip c - 2 + 1 := by
        rw [missing, List.length_nil]
        omega
      have hvalue : value c [] = lead c := rfl
      rw [h.forall_lt_iff, least_eq (utf8Skip_mem h.first) (skip_ne hlast), hmissing, hvalue,
        Nat.pow_succ', ← Nat.mul_assoc, Nat.mul_le_mul_right_iff (by positivity)]
      exact iff_of_false hcode (by omega)
    | cons x us =>
      rw [h.overlong_iff_second hfirst hlast]
      exact isUtf8Overlong_second hfirst hlast (h.continues x List.mem_cons_self)
  · have htwo : ∀ c : U8, 0xC0 ≤ c.toNat → ¬ 0xC2 ≤ c.toNat →
        (c = 0xC0 ∨ c = 0xC1) ∧ utf8Skip c = 2 ∧ lead c < 2 := by decide
    obtain ⟨hc, hskip, hlead⟩ := htwo c h.first hfirst
    have hcode : isUtf8Overlong (c :: us) = 1 := if_pos hc
    rw [hcode]
    refine iff_of_true (by decide) fun ds hw => ?_
    have hlength := hw.length
    rw [hskip] at hlength ⊢
    calc value c (us ++ ds) < (lead c + 1) * 64 ^ ((us ++ ds).map sixBits).length :=
          readFrom_lt (numeral_sixBits _)
      _ ≤ 2 * 64 := by
          rw [List.length_map, show (us ++ ds).length = 1 by omega, Nat.pow_one]
          omega
      _ = least 2 := rfl

theorem isFFOverlong_second (h : x ≠ 0x80) : isFFOverlong (0xFF :: x :: us) = 0 := by
  have hmin : ∃ k, min (0xFF :: x :: us : List U8).length 7 = k + 2 :=
    ⟨min us.length 5, by simp only [List.length_cons]; omega⟩
  obtain ⟨k, hk⟩ := hmin
  rw [isFFOverlong]
  apply if_pos
  rw [hk]
  intro heq
  exact h (List.cons.inj (List.cons.inj heq).2).1

theorem isFFOverlong_third {y : U8} (h : y ≠ 0x80) :
    isFFOverlong (0xFF :: 0x80 :: y :: us) = 0 := by
  have hmin : ∃ k, min (0xFF :: 0x80 :: y :: us : List U8).length 7 = k + 3 :=
    ⟨min us.length 4, by simp only [List.length_cons]; omega⟩
  obtain ⟨k, hk⟩ := hmin
  rw [isFFOverlong]
  apply if_pos
  rw [hk]
  intro heq
  exact h (List.cons.inj (List.cons.inj (List.cons.inj heq).2).2).1

theorem overflowsIfNotOverlong_eq (h : isFFOverlong (0xFF :: us) = 0) :
    overflowsIfNotOverlong (0xFF :: us) = .overflows := by
  have hzero : isUtf8Overlong (0xFF :: us) = 0 := h
  rw [overflowsIfNotOverlong, if_pos hzero]

theorem doesUtf8Overflow_eq_noOverflow (h : c.toNat < 0xFF) :
    doesUtf8Overflow (c :: us) = .noOverflow := by
  rw [doesUtf8Overflow, overflowLoop, if_pos]
  exact h

def TooLarge (us : List U8) : Prop :=
  0x80 < (byteAt us 0).toNat ∨ 0x87 < (byteAt us 1).toNat

theorem doesUtf8Overflow_longest (h : Continuations (us.take 2)) :
    (doesUtf8Overflow (0xFF :: us) = .overflows ∧ TooLarge us) ∨
      ((doesUtf8Overflow (0xFF :: us) = .noOverflow ∨
        doesUtf8Overflow (0xFF :: us) = .couldOverflow) ∧ ¬ TooLarge us) := by
  have hloop : doesUtf8Overflow (0xFF :: us) = overflowLoop (0xFF :: us) us [0x80, 0x87] := rfl
  rw [hloop]
  cases us with
  | nil => exact .inr ⟨.inr rfl, by rw [TooLarge]; decide⟩
  | cons x us =>
    have hx := (isContinuation_iff x).1 (h x List.mem_cons_self)
    have hstep : overflowLoop (0xFF :: x :: us) (x :: us) [0x80, 0x87] =
        if 0x80 < x.toNat then overflowsIfNotOverlong (0xFF :: x :: us)
        else overflowLoop (0xFF :: x :: us) us [0x87] := if_neg (Nat.not_lt.2 hx.1)
    have hbyte : byteAt (x :: us) 0 = x := rfl
    rw [hstep]
    by_cases hlarge : 0x80 < x.toNat
    · have hne : x ≠ 0x80 := fun heq => by
        subst heq
        revert hlarge
        decide
      rw [if_pos hlarge]
      exact .inl ⟨overflowsIfNotOverlong_eq (isFFOverlong_second hne), .inl hlarge⟩
    have hnat : x.toNat = 0x80 := by omega
    have heq : x = 0x80 := BitVec.eq_of_toNat_eq hnat
    subst heq
    rw [if_neg hlarge]
    cases us with
    | nil => exact .inr ⟨.inr rfl, by rw [TooLarge]; decide⟩
    | cons y us =>
      have hstep : overflowLoop (0xFF :: 0x80 :: y :: us) (y :: us) [0x87] =
          if y.toNat < 0x87 then .noOverflow
          else if 0x87 < y.toNat then overflowsIfNotOverlong (0xFF :: 0x80 :: y :: us)
          else overflowLoop (0xFF :: 0x80 :: y :: us) us [] := rfl
      rw [hstep]
      by_cases hlarge' : 0x87 < y.toNat
      · have hne : y ≠ 0x80 := fun heq => by
          subst heq
          revert hlarge'
          decide
        rw [if_neg (by omega), if_pos hlarge']
        exact .inl ⟨overflowsIfNotOverlong_eq (isFFOverlong_third hne), .inr hlarge'⟩
      · have hsmall : ¬ TooLarge (0x80 :: y :: us) := fun h => h.elim hlarge hlarge'
        rw [if_neg hlarge']
        refine .inr ⟨.inl ?_, hsmall⟩
        split_ifs
        · rfl
        · cases us with
          | nil => rfl
          | cons z us => rfl

theorem Begun.overflow_iff_longest (h : Begun 0xFF us) :
    (∀ ds, Whole 0xFF (us ++ ds) → maxLegalCP < value 0xFF (us ++ ds)) ↔ TooLarge us := by
  have hlength : us.length + 1 ≤ 13 := h.length
  have hmissing : missing 0xFF us = 12 - us.length := rfl
  have hlegal : maxLegalCP + 1 = 8 * 64 ^ 10 := by decide
  have hlead : lead 0xFF = 0 := by decide
  have hiff : (∀ ds, Whole 0xFF (us ++ ds) → maxLegalCP < value 0xFF (us ++ ds)) ↔
      maxLegalCP + 1 ≤ value 0xFF us * 64 ^ missing 0xFF us := h.forall_ge_iff
  rw [hiff, hlegal, hmissing, TooLarge]
  cases us with
  | nil =>
    rw [value, hlead]
    decide
  | cons x us =>
    have hx := toNat_of_continuation (h.continues x List.mem_cons_self)
    have hbyte : byteAt (x :: us) 0 = x := rfl
    rw [hbyte]
    cases us with
    | nil =>
      have hnone : (byteAt [x] 1).toNat = 0 := rfl
      have hvalue : value 0xFF [x] = sixBits x := by
        rw [value, hlead, List.map_cons, readFrom_cons, Nat.zero_mul, Nat.zero_add]
        rfl
      rw [hnone, hvalue, List.length_singleton]
      omega
    | cons y us =>
      have hy := toNat_of_continuation (h.continues y (by simp))
      have hsix := sixBits_lt y
      have hnext : byteAt (x :: y :: us) 1 = y := rfl
      simp only [List.length_cons] at hlength
      have hpow : 8 * 64 ^ 10 = 8 * 64 ^ us.length * 64 ^ (10 - us.length) := by
        rw [Nat.mul_assoc, ← Nat.pow_add, show us.length + (10 - us.length) = 10 by omega]
      have hmap : (us.map sixBits).length = us.length := List.length_map _
      have hrest : 12 - (x :: y :: us).length = 10 - us.length := by
        simp only [List.length_cons]
        omega
      rw [hnext, hrest, hpow, Nat.mul_le_mul_right_iff (by positivity), value, hlead,
        List.map_cons, List.map_cons, readFrom_cons, readFrom_cons, ← hmap,
        le_readFrom_iff (numeral_sixBits us)]
      omega

theorem Whole.value_le (h : Whole c us) (hlast : c.toNat < 0xFF) : value c us ≤ maxLegalCP := by
  have hall : ∀ n ∈ lengths, n ≠ 13 → limit n ≤ maxLegalCP := by decide
  exact (h.value_lt.trans_le (hall _ (utf8Skip_mem h.first) (skip_ne hlast))).le

theorem Begun.exists_whole (h : Begun c us) : ∃ ds, Whole c (us ++ ds) := by
  refine ⟨List.replicate (missing c us) 0x80, h.whole_append.2 ⟨List.length_replicate, ?_⟩⟩
  intro x hx
  rw [List.eq_of_mem_replicate hx]
  decide

theorem Begun.doesUtf8Overflow_iff (h : Begun c us) :
    (doesUtf8Overflow (c :: us) = .overflows ∧
        ∀ ds, Whole c (us ++ ds) → maxLegalCP < value c (us ++ ds)) ∨
      ((doesUtf8Overflow (c :: us) = .noOverflow ∨ doesUtf8Overflow (c :: us) = .couldOverflow) ∧
        ¬ ∀ ds, Whole c (us ++ ds) → maxLegalCP < value c (us ++ ds)) := by
  by_cases hff : c = 0xFF
  · subst hff
    rw [h.overflow_iff_longest]
    exact doesUtf8Overflow_longest fun x hx => h.continues x (List.mem_of_mem_take hx)
  have hlast := lt_of_ne_last hff
  refine .inr ⟨.inl (doesUtf8Overflow_eq_noOverflow hlast), fun hall => ?_⟩
  obtain ⟨ds, hds⟩ := h.exists_whole
  exact Nat.not_lt.2 (hds.value_le hlast) (hall ds hds)

end XPerl.Utf8
