import XPerl.Utf8.Decoding

/-! The beginnings of characters: when bytes that are no character yet can become one. -/

namespace XPerl.Utf8

open XPerl.Framework.PlaceValue

variable {c x y : U8} {us rest s : List U8} {flags : U32} {k n v : Nat}

def isUtf8ValidPartialCharFlags (s : List U8) (flags : U32) : Bool :=
  let (state, _) := dfaLoop extendedUtf8DfaTab 0 0 s
  if s.isEmpty then false
  else if state = 0 then false
  else if state = 1 then
    if byteAt s 0 ≠ 0xFF ∨ has flags (utf8DisallowSuper ||| utf8DisallowPerlExtended) then false
    else isUtf8FFHelper s true ≠ 0
  else if flags = 0 then true
  else isUtf8CharHelper s flags ≠ 0

def Extensible (flags : U32) (s : List U8) : Prop :=
  ∃ t ≠ [], ∃ v ≤ maxLegalCP, ¬ utf8Disallowed flags v ∧ s ++ t = encoding v

/-- What the number of an allowed character with these first bytes may be. -/
structure Reachable (flags : U32) (c : U8) (us : List U8) (v : Nat) : Prop where
  low : value c us * 64 ^ missing c us ≤ v
  high : v < (value c us + 1) * 64 ^ missing c us
  shortest : least (utf8Skip c) ≤ v
  legal : v ≤ maxLegalCP
  allowed : ¬ utf8Disallowed flags v

theorem Begun.value_range (h : Begun c us) {ds : List U8} (hwhole : Whole c (us ++ ds)) :
    value c us * 64 ^ missing c us ≤ value c (us ++ ds) ∧
      value c (us ++ ds) < (value c us + 1) * 64 ^ missing c us := by
  have hall := (h.forall_value_iff fun v => value c us * 64 ^ missing c us ≤ v ∧
    v < (value c us + 1) * 64 ^ missing c us).2 fun v hlow hhigh => ⟨hlow, hhigh⟩
  exact hall ds hwhole

theorem Begun.extensible_iff (h : Begun c us) (hmissing : 1 ≤ missing c us) :
    Extensible flags (c :: us) ↔ ∃ v, Reachable flags c us v := by
  constructor
  · intro hextensible
    obtain ⟨t, -, v, hlegal, hallowed, heq⟩ := hextensible
    have hlow : 0x80 ≤ v := by
      by_contra hascii
      rw [encoding, if_pos (Nat.not_le.1 hascii), List.cons_append] at heq
      have hc := congrArg BitVec.toNat (List.cons.inj heq).1
      rw [BitVec.toNat_ofNat] at hc
      have hfirst := h.first
      omega
    obtain ⟨c', cs, hencoding, hwhole, hvalue, hskip⟩ := exists_encoding hlow (maxLegalCP_lt hlegal)
    rw [hencoding, List.cons_append] at heq
    obtain ⟨hc, hus⟩ := List.cons.inj heq
    subst hc
    rw [← hus] at hwhole hvalue
    have hrange := h.value_range hwhole
    rw [hvalue] at hrange
    refine ⟨v, hrange.1, hrange.2, ?_, hlegal, hallowed⟩
    rw [hskip]
    exact least_width_le hlow
  · intro hreachable
    obtain ⟨v, hv⟩ := hreachable
    by_contra hno
    -- no way to fill the character up is left
    have hnone := (h.forall_value_iff fun v => ¬ Reachable flags c us v).1 fun ds hwhole hds => by
      refine hno ⟨ds, ?_, _, hds.legal, hds.allowed, (hwhole.encoding_value hds.shortest).symm⟩
      intro hnil
      have hlength := (h.whole_append.1 hwhole).1
      rw [hnil, List.length_nil] at hlength
      omega
    exact hnone v hv.low hv.high hv

theorem Extensible.begun (h : Extensible flags (c :: us)) (hc : 0x80 ≤ c.toNat) :
    Begun c us ∧ 1 ≤ missing c us := by
  obtain ⟨t, ht, v, hlegal, -, heq⟩ := h
  have hlow : 0x80 ≤ v := by
    by_contra hascii
    rw [encoding, if_pos (Nat.not_le.1 hascii), List.cons_append] at heq
    have hc' := congrArg BitVec.toNat (List.cons.inj heq).1
    rw [BitVec.toNat_ofNat] at hc'
    omega
  obtain ⟨c', cs, hencoding, hwhole, -⟩ := exists_encoding hlow (maxLegalCP_lt hlegal)
  rw [hencoding, List.cons_append] at heq
  obtain ⟨hfirst, hus⟩ := List.cons.inj heq
  subst hfirst
  rw [← hus] at hwhole
  have hlength := hwhole.length
  have hpos := List.length_pos_of_ne_nil ht
  rw [List.length_append] at hlength
  refine ⟨⟨hwhole.first, by omega, (List.forall_mem_append.1 hwhole.continues).1⟩, ?_⟩
  rw [missing]
  omega

theorem not_extensible_ascii (h : c.toNat < 0x80) : ¬ Extensible flags (c :: us) := by
  intro hextensible
  obtain ⟨t, ht, v, hlegal, -, heq⟩ := hextensible
  have hbegins : encoding v <+: c :: (us ++ t) := by
    rw [← List.cons_append, heq]
  obtain ⟨hencoding, -⟩ := encoding_begins hlegal hbegins
  rw [← heq, following_of_lt (by omega), List.cons_append] at hencoding
  exact ht (List.append_eq_nil_iff.1 (List.cons.inj hencoding).2).2

theorem not_extensible_encoding (h : v ≤ maxLegalCP) : ¬ Extensible flags (encoding v) := by
  intro hextensible
  obtain ⟨t, ht, v', hlegal, -, heq⟩ := hextensible
  obtain ⟨c, rest, hcons⟩ := List.exists_cons_of_ne_nil (encoding_ne_nil v')
  have hself := (encoding_begins hlegal (by rw [hcons])).1
  have hshort := (encoding_begins h (by rw [← hcons, ← heq]; exact List.prefix_append _ _)).1
  rw [← hself, ← heq] at hshort
  exact ht (List.append_right_eq_self.1 hshort.symm)

theorem dfaLoop_partial (hk : 1 ≤ k) (hk' : k ≤ 10) (rest : List U8) (read : Nat) :
    1 < (dfaLoop extendedUtf8DfaTab (extendedNode k) read rest).1 ↔
      rest.length < owed k ∧ Continuations rest ∧
        (rest = [] ∨ lowest k ≤ (byteAt rest 0).toNat) := by
  rw [(extended_waits.loop hk hk' rest read).2.2]
  refine and_congr_right fun _ => and_congr_right fun hconts => ?_
  cases rest with
  | nil => simp
  | cons x rest =>
    have hlast := ((isContinuation_iff x).1 (hconts x List.mem_cons_self)).2
    have hbyte : byteAt (x :: rest) 0 = x := rfl
    rw [hbyte]
    exact or_congr_right (and_iff_left hlast)

theorem dfaLoop_partial_iff (hfirst : 0xC2 ≤ c.toNat) (hlast : c.toNat < 0xFF) (rest : List U8) :
    1 < (dfaLoop extendedUtf8DfaTab 0 0 (c :: rest)).1 ↔
      Begun c rest ∧ 1 ≤ missing c rest ∧
        least (utf8Skip c) < (value c rest + 1) * 64 ^ missing c rest := by
  obtain ⟨k, hk, hk', hnode, howed, hlowest⟩ := extended_first hfirst hlast
  have hstate : 1 < extendedNode k := by
    rw [extendedNode]
    omega
  have hshort (h : Begun c rest) : least (utf8Skip c) < (value c rest + 1) * 64 ^ missing c rest ↔
      (rest = [] ∨ lowest k ≤ (byteAt rest 0).toNat) := by
    rw [← Nat.not_le, ← h.forall_lt_iff, ← h.isUtf8Overlong_pos_iff]
    cases rest with
    | nil =>
      have hsmall : ∀ c : U8, 0xC2 ≤ c.toNat → c.toNat < 0xFF → ¬ 0 < isUtf8Overlong [c] := by
        decide
      exact iff_of_true (hsmall c hfirst hlast) (.inl rfl)
    | cons x rest =>
      have hbyte : byteAt (x :: rest) 0 = x := rfl
      rw [isUtf8Overlong_second hfirst hlast (h.continues x List.mem_cons_self), Nat.not_lt,
        hlowest, hbyte]
      simp
  rw [dfaLoop_cons, hnode, if_pos hstate, dfaLoop_partial hk hk', missing]
  constructor
  · intro hand
    have hbegun : Begun c rest := ⟨by omega, by omega, hand.2.1⟩
    exact ⟨hbegun, by omega, (hshort hbegun).2 hand.2.2⟩
  · intro hand
    exact ⟨by omega, hand.1.continues, (hshort hand.1).1 hand.2.2⟩

def firstNumber (c : U8) (us : List U8) : Nat :=
  max (value c us * 64 ^ missing c us) (least (utf8Skip c))

theorem firstNumber_lt
    (hshort : least (utf8Skip c) < (value c us + 1) * 64 ^ missing c us) :
    firstNumber c us < (value c us + 1) * 64 ^ missing c us := by
  have hpos : 0 < 64 ^ missing c us := by positivity
  rw [firstNumber]
  exact max_lt (Nat.mul_lt_mul_of_pos_right (Nat.lt_succ_self _) hpos) hshort

theorem dvd_firstNumber (hfirst : 0xC0 ≤ c.toNat) (hmissing : 1 ≤ missing c us) :
    64 ∣ firstNumber c us := by
  have hall : ∀ n ∈ lengths, 64 ∣ least n := by decide
  have hpow : 64 ∣ value c us * 64 ^ missing c us :=
    Dvd.dvd.mul_left (dvd_pow_self 64 (by omega)) _
  rw [firstNumber]
  rcases max_choice (value c us * 64 ^ missing c us) (least (utf8Skip c)) with h | h
  · rw [h]
    exact hpow
  · rw [h]
    exact hall _ (utf8Skip_mem hfirst)

theorem Begun.lt_limit (h : Begun c us) :
    (value c us + 1) * 64 ^ missing c us ≤ limit (utf8Skip c) :=
  h.forall_lt_iff.1 fun _ hwhole => hwhole.value_lt

theorem Begun.surrogate_of_first (h : Begun c us) (hmissing : 1 ≤ missing c us)
    (hshort : least (utf8Skip c) < (value c us + 1) * 64 ^ missing c us)
    (hfirst : unicodeIsSurrogate (firstNumber c us)) (hle : firstNumber c us ≤ v)
    (hlt : v < (value c us + 1) * 64 ^ missing c us) : unicodeIsSurrogate v := by
  obtain ⟨hlow, hhigh⟩ := hfirst
  have hwidth := width_eq (utf8Skip_mem h.first) (le_max_right _ _)
    ((firstNumber_lt hshort).trans_le h.lt_limit)
  have hskip : utf8Skip c = 3 := by
    have hthree : width (firstNumber c us) = 3 := by
      rw [width]
      split_ifs <;> omega
    exact hwidth.symm.trans hthree
  have hlength := h.length
  rw [firstNumber, hskip] at hlow hhigh hle
  rw [missing, hskip] at hmissing
  rw [missing, hskip] at hlow hhigh hle hlt
  simp only [least] at hlow hhigh hle
  cases us with
  | nil =>
    have hvalue : value c [] = lead c := rfl
    rw [hvalue, List.length_nil] at hlow hhigh
    omega
  | cons x us =>
    have hus : us = [] := by
      rw [List.length_cons] at hmissing
      exact List.length_eq_zero_iff.1 (by omega)
    subst hus
    rw [List.length_singleton] at hlow hhigh hle hlt
    generalize value c [x] = n at hlow hhigh hle hlt
    refine ⟨?_, ?_⟩ <;> omega

theorem Begun.exists_reachable_iff (h : Begun c us) (hmissing : 1 ≤ missing c us)
    (hshort : least (utf8Skip c) < (value c us + 1) * 64 ^ missing c us)
    (hlegal : firstNumber c us ≤ maxLegalCP) :
    (∃ v, Reachable flags c us v) ↔ ¬ utf8Disallowed flags (firstNumber c us) := by
  constructor
  · intro hreachable hdisallowed
    obtain ⟨v, hv⟩ := hreachable
    have hle : firstNumber c us ≤ v := max_le hv.low hv.shortest
    refine hv.allowed ?_
    rcases hdisallowed with hclass | hclass | hclass | hclass
    · exact .inl ⟨hclass.1, h.surrogate_of_first hmissing hshort hclass.2 hle hv.high⟩
    · obtain ⟨q, hq⟩ := dvd_firstNumber h.first hmissing
      have hcases := (noncharGivenNotSuper_iff _).1 hclass.2.2
      omega
    · exact .inr (.inr (.inl ⟨hclass.1, Nat.lt_of_lt_of_le hclass.2 hle⟩))
    · exact .inr (.inr (.inr ⟨hclass.1, Nat.lt_of_lt_of_le hclass.2 hle⟩))
  · intro hallowed
    exact ⟨_, le_max_left _ _, firstNumber_lt hshort, le_max_right _ _, hlegal, hallowed⟩

theorem helper_begun_three (h : Begun c us) (hskip : utf8Skip c = 3) (hmissing : 1 ≤ missing c us) :
    isUtf8CharHelper (c :: us) flags =
      if utf8Disallowed flags (firstNumber c us) then 0 else 3 := by
  have hall : ∀ c : U8, utf8Skip c = 3 → c.toNat = 0xE0 + lead c ∧ lead c < 16 := by decide
  obtain ⟨hc, hlead⟩ := hall c hskip
  have hzero : byteAt (c :: us) 0 = c := rfl
  have hf : firstNumber c us = max (value c us * 64 ^ missing c us) 0x800 := by
    rw [firstNumber, hskip]
    rfl
  rw [missing, hskip] at hmissing
  rw [missing, hskip] at hf
  cases us with
  | nil =>
    have hvalue : value c [] = lead c := rfl
    have hlen : min [c].length 3 = 1 := rfl
    rw [hvalue, List.length_nil] at hf
    generalize firstNumber c [] = f at hf
    have hno : ¬ utf8Disallowed flags f := by
      rw [utf8Disallowed_three (by omega) (by omega)]
      omega
    rw [if_neg hno, isUtf8CharHelper]
    simp only [hzero, hskip, hlen]
    simp
  | cons x us =>
    have hus : us = [] := by
      rw [List.length_cons] at hmissing
      exact List.length_eq_zero_iff.1 (by omega)
    subst hus
    have hvalue : value c [x] = lead c * 64 + sixBits x := rfl
    have hx := toNat_of_continuation (h.continues x List.mem_cons_self)
    have hxsix := sixBits_lt x
    have hlen : min [c, x].length 3 = 2 := rfl
    have hone : byteAt [c, x] 1 = x := rfl
    rw [hvalue, List.length_singleton] at hf
    generalize firstNumber c [x] = f at hf
    have hsurrogate : isSurrogateUtf8 [c, x] ↔ 0xD800 ≤ f ∧ f ≤ 0xDFFF := by
      have hed : c = 0xED ↔ c.toNat = 0xED := BitVec.toNat_inj.symm
      rw [isSurrogateUtf8, hzero, hone, hed]
      omega
    have hnonchar : ¬ ((0xFDD0 ≤ f ∧ f ≤ 0xFDEF) ∨ 0xFFFE ≤ f) := by omega
    rw [if_congr (utf8Disallowed_three (by omega) (by omega)) rfl rfl, isUtf8CharHelper]
    simp only [hzero, hskip, hlen, hsurrogate, hnonchar, and_false, or_false]
    by_cases hlow : c.toNat < 0xED
    · have hs : ¬ (0xD800 ≤ f ∧ f ≤ 0xDFFF) := by omega
      simp [hlow, hs]
    · by_cases hs : has flags utf8DisallowSurrogate = true ∧ 0xD800 ≤ f ∧ f ≤ 0xDFFF
      · simp [hlow, hs]
      · simp [hlow, hs]

theorem firstNumber_super_iff (h : Begun c us) (hskip : utf8Skip c = 4)
    (hmissing : 1 ≤ missing c us) :
    (0xF4 < c.toNat ∨ (1 < min (c :: us).length 4 ∧ c = 0xF4 ∧
      0x90 ≤ (byteAt (c :: us) 1).toNat)) ↔ 0x10FFFF < firstNumber c us := by
  have hall : ∀ c : U8, utf8Skip c = 4 → c.toNat = 0xF0 + lead c ∧ lead c < 8 := by decide
  obtain ⟨hc, hlead⟩ := hall c hskip
  have hf4 : c = 0xF4 ↔ c.toNat = 0xF4 := BitVec.toNat_inj.symm
  have hf : firstNumber c us = max (value c us * 64 ^ missing c us) 0x10000 := by
    rw [firstNumber, hskip]
    rfl
  rw [missing, hskip] at hmissing
  rw [missing, hskip] at hf
  rw [hf4]
  cases us with
  | nil =>
    have hvalue : value c [] = lead c := rfl
    rw [hvalue, List.length_nil] at hf
    rw [List.length_singleton]
    omega
  | cons x us =>
    have hx := toNat_of_continuation (h.continues x List.mem_cons_self)
    have hxsix := sixBits_lt x
    have hone : byteAt (c :: x :: us) 1 = x := rfl
    rw [hone]
    cases us with
    | nil =>
      have hvalue : value c [x] = lead c * 64 + sixBits x := rfl
      rw [hvalue, List.length_singleton] at hf
      simp only [List.length_cons, List.length_nil]
      omega
    | cons y us =>
      have hus : us = [] := by
        simp only [List.length_cons] at hmissing
        exact List.length_eq_zero_iff.1 (by omega)
      subst hus
      have hvalue : value c [x, y] = (lead c * 64 + sixBits x) * 64 + sixBits y := rfl
      have hysix := sixBits_lt y
      simp only [hvalue, List.length_cons, List.length_nil] at hf
      simp only [List.length_cons, List.length_nil]
      omega

theorem helper_begun_four (h : Begun c us) (hskip : utf8Skip c = 4) (hmissing : 1 ≤ missing c us)
    (hlimit : firstNumber c us < 0x200000) :
    isUtf8CharHelper (c :: us) flags =
      if utf8Disallowed flags (firstNumber c us) then 0 else 4 := by
  have hzero : byteAt (c :: us) 0 = c := rfl
  have hsuper := firstNumber_super_iff h hskip hmissing
  have hlow : 0x10000 ≤ firstNumber c us := by
    rw [firstNumber, hskip]
    exact le_max_right _ _
  obtain ⟨q, hq⟩ := dvd_firstNumber h.first hmissing
  have hnonchar : ¬ 65534 ≤ firstNumber c us % 65536 := by omega
  have hlen : min (c :: us).length 4 ≠ 4 := by
    have hlength := h.length
    rw [missing] at hmissing
    rw [List.length_cons]
    omega
  rw [if_congr (utf8Disallowed_four hlow hlimit) rfl rfl, isUtf8CharHelper]
  simp only [hzero, hskip, hsuper, hnonchar, hlen, and_false, false_and, false_or]
  by_cases hs : 0x10FFFF < firstNumber c us
  · by_cases hflag : has flags utf8DisallowSuper <;> simp [hs, hflag]
  · simp [hs]

theorem isUtf8CharHelper_begun (h : Begun c us) (hlast : c.toNat < 0xFF)
    (hmissing : 1 ≤ missing c us)
    (hshort : least (utf8Skip c) < (value c us + 1) * 64 ^ missing c us) :
    isUtf8CharHelper (c :: us) flags =
      if utf8Disallowed flags (firstNumber c us) then 0 else utf8Skip c := by
  have hzero : byteAt (c :: us) 0 = c := rfl
  have hlimit := (firstNumber_lt hshort).trans_le h.lt_limit
  have hle : least (utf8Skip c) ≤ firstNumber c us := le_max_right _ _
  have hmem := utf8Skip_mem h.first
  have hshorter := skip_ne hlast
  simp only [lengths, List.mem_cons, List.not_mem_nil, or_false] at hmem
  rcases hmem with hskip | hskip | hskip | hskip | hskip | hskip | hskip <;>
    rw [hskip] at hlimit hle ⊢ <;> simp only [limit] at hlimit <;> simp only [least] at hle
  · rw [if_neg (utf8Disallowed_two (by omega)), isUtf8CharHelper]
    simp only [hzero, hskip]
    rfl
  · exact helper_begun_three h hskip hmissing
  · exact helper_begun_four h hskip hmissing (by omega)
  all_goals
    rw [if_congr (utf8Disallowed_long (by omega)) rfl rfl, isUtf8CharHelper]
    simp only [hzero, hskip]
  · have hsmall : ¬ 0x80000000 ≤ firstNumber c us := by omega
    simp [hsmall]
  · have hsmall : ¬ 0x80000000 ≤ firstNumber c us := by omega
    simp [hsmall]
  · have hlarge : 0x80000000 ≤ firstNumber c us := by omega
    by_cases hextended : has flags utf8DisallowPerlExtended <;> simp [hlarge, hextended]
  · exact absurd hskip hshorter

theorem isUtf8FFHelper_begun (us : List U8) :
    isUtf8FFHelper (0xFF :: us) true ≠ 0 ↔
      Begun 0xFF us ∧ 1 ≤ missing 0xFF us ∧ ¬ TooLarge us ∧ us.take 6 ≠ List.replicate 6 0x80 := by
  have hskip : utf8Skip 0xFF = 13 := by decide
  have hdrop : ((0xFF :: us : List U8).drop 1).take 12 = us.take 12 := rfl
  rw [isUtf8FFHelper, hdrop, missing, hskip]
  by_cases hconts : Continuations (us.take 12)
  · have hall : (us.take 12).all isContinuation = true := List.all_eq_true.2 hconts
    rw [hall, Bool.not_true, if_neg Bool.false_ne_true]
    have htwo : Continuations (us.take 2) := fun x hx => hconts x (by
      rw [show us.take 2 = (us.take 12).take 2 by rw [List.take_take]; rfl] at hx
      exact List.mem_of_mem_take hx)
    have hlonger : (if (0xFF :: us : List U8).length < 13 then if true then 1 else 0
        else if true then 0 else 13) ≠ 0 ↔ Begun 0xFF us ∧ 1 ≤ 13 - 1 - us.length := by
      rw [List.length_cons]
      constructor
      · intro hne
        have hshort : us.length + 1 < 13 := by
          by_contra hlong
          rw [if_neg hlong] at hne
          exact hne rfl
        rw [List.take_of_length_le (by omega)] at hconts
        exact ⟨⟨by decide, by omega, hconts⟩, by omega⟩
      · intro hand
        have hshort : us.length + 1 < 13 := by omega
        rw [if_pos hshort]
        decide
    rcases doesUtf8Overflow_longest htwo with hover | hover
    · rw [if_pos hover.1]
      exact iff_of_false (not_not.2 rfl) fun hand => hand.2.2.1 hover.2
    · have hne : doesUtf8Overflow (0xFF :: us) ≠ .overflows := by
        rcases hover.1 with h | h <;> rw [h] <;> decide
      have hpos := isFFOverlong_pos_iff us
      rw [if_neg hne]
      by_cases hoverlong : 0 < isFFOverlong (0xFF :: us)
      · rw [if_pos hoverlong]
        exact iff_of_false (not_not.2 rfl) fun hand => hand.2.2.2 (hpos.1 hoverlong)
      · rw [if_neg hoverlong, hlonger]
        have hplain := mt hpos.2 hoverlong
        exact ⟨fun hand => ⟨hand.1, hand.2, hover.2, hplain⟩, fun hand => ⟨hand.1, hand.2.1⟩⟩
  · have hall : (us.take 12).all isContinuation = false := by
      rw [Bool.eq_false_iff]
      exact fun h => hconts (List.all_eq_true.1 h)
    rw [hall, Bool.not_false, if_pos rfl]
    refine iff_of_false (not_not.2 rfl) fun hand => hconts ?_
    exact fun x hx => hand.1.continues x (List.mem_of_mem_take hx)

theorem extensible_longest :
    Extensible flags (0xFF :: us) ↔
      has flags (utf8DisallowSuper ||| utf8DisallowPerlExtended) = false ∧
        isUtf8FFHelper (0xFF :: us) true ≠ 0 := by
  rw [isUtf8FFHelper_begun]
  constructor
  · intro hextensible
    obtain ⟨hbegun, hmissing⟩ := hextensible.begun (by decide)
    obtain ⟨v, hv⟩ := (hbegun.extensible_iff hmissing).1 hextensible
    have hlong : 0x1000000000 ≤ v := hv.shortest
    have hextended : 0x80000000 ≤ v := by omega
    refine ⟨?_, hbegun, hmissing, fun hlarge => ?_, fun hoverlong => ?_⟩
    · rw [has_or, Bool.or_eq_false_iff]
      have hallowed := hv.allowed
      rw [utf8Disallowed_long (by omega)] at hallowed
      simpa [hextended] using hallowed
    · have hle : maxLegalCP + 1 ≤ value 0xFF us * 64 ^ missing 0xFF us :=
        hbegun.forall_ge_iff.1 fun ds hwhole => hbegun.overflow_iff_longest.2 hlarge ds hwhole
      have hlow := hv.low
      have hlegal := hv.legal
      omega
    · have hle := hbegun.forall_lt_iff.1 (hbegun.overlong_iff_prefix.2 hoverlong)
      exact Nat.not_lt.2 hv.shortest (hv.high.trans_le hle)
  · intro hand
    obtain ⟨hflags, hbegun, hmissing, hlarge, hoverlong⟩ := hand
    have hshort : least (utf8Skip 0xFF) < (value 0xFF us + 1) * 64 ^ missing 0xFF us :=
      Nat.not_le.1 fun hle => hoverlong (hbegun.overlong_iff_prefix.1 (hbegun.forall_lt_iff.2 hle))
    have hlow : value 0xFF us * 64 ^ missing 0xFF us ≤ maxLegalCP :=
      Nat.not_lt.1 fun hlt => hlarge (hbegun.overflow_iff_longest.1 fun ds hwhole =>
        hbegun.forall_ge_iff.2 hlt ds hwhole)
    have hlegal : firstNumber 0xFF us ≤ maxLegalCP := max_le hlow (by decide)
    rw [hbegun.extensible_iff hmissing, hbegun.exists_reachable_iff hmissing hshort hlegal]
    have hlong : 0x1000000000 ≤ firstNumber 0xFF us := le_max_right _ _
    rw [has_or, Bool.or_eq_false_iff] at hflags
    rw [utf8Disallowed_long (by omega), hflags.1, hflags.2]
    simp

theorem isUtf8ValidPartialCharFlags_iff (flags : U32) (h : s ≠ []) :
    isUtf8ValidPartialCharFlags s flags = true ↔ Extensible flags s := by
  obtain ⟨c, rest, hs⟩ := List.exists_cons_of_ne_nil h
  subst hs
  have hempty : (c :: rest : List U8).isEmpty = false := rfl
  have hzero : byteAt (c :: rest) 0 = c := rfl
  rw [isUtf8ValidPartialCharFlags]
  dsimp only
  rw [hempty, if_neg Bool.false_ne_true, hzero]
  by_cases hascii : c.toNat < 0x80
  · rw [dfaLoop_cons, extended_ascii hascii]
    exact iff_of_false Bool.false_ne_true (not_extensible_ascii hascii)
  have hhigh := Nat.not_lt.1 hascii
  by_cases hff : c = 0xFF
  · subst hff
    rw [dfaLoop_cons, extended_refused hhigh (.inr (by decide)), extensible_longest]
    by_cases hflag : has flags (utf8DisallowSuper ||| utf8DisallowPerlExtended) <;> simp [hflag]
  have hlast := lt_of_ne_last hff
  by_cases hrefused : c.toNat < 0xC2
  · rw [dfaLoop_cons, extended_refused hhigh (.inl hrefused)]
    have hno : ¬ Extensible flags (c :: rest) := fun hextensible => by
      obtain ⟨hbegun, hmissing⟩ := hextensible.begun hhigh
      obtain ⟨v, hv⟩ := (hbegun.extensible_iff hmissing).1 hextensible
      have htwo : ∀ c : U8, 0xC0 ≤ c.toNat → c.toNat < 0xC2 → 0 < isUtf8Overlong [c] ∧
          utf8Skip c = 2 := by decide
      obtain ⟨hoverlong, hskip⟩ := htwo c hbegun.first hrefused
      have hrest : rest = [] := by
        have hlength := hbegun.length
        rw [missing, hskip] at hmissing
        exact List.length_eq_zero_iff.1 (by omega)
      subst hrest
      have hle := hbegun.forall_lt_iff.1 (hbegun.isUtf8Overlong_pos_iff.1 hoverlong)
      exact Nat.not_lt.2 hv.shortest (hv.high.trans_le hle)
    rw [if_neg (Nat.lt_irrefl 1), if_neg Nat.one_ne_zero, if_pos rfl, if_pos (.inl hff)]
    exact iff_of_false Bool.false_ne_true hno
  have hfirst := Nat.not_lt.1 hrefused
  have hpart := dfaLoop_partial_iff hfirst hlast rest
  generalize (dfaLoop extendedUtf8DfaTab 0 0 (c :: rest)).1 = state at hpart
  by_cases hbetween : 1 < state
  · obtain ⟨hbegun, hmissing, hshort⟩ := hpart.1 hbetween
    have hlegal : firstNumber c rest ≤ maxLegalCP := by
      have hall : ∀ n ∈ lengths, n ≠ 13 → limit n ≤ maxLegalCP := by decide
      have hlimit := (firstNumber_lt hshort).trans_le hbegun.lt_limit
      exact (hlimit.trans_le (hall _ (utf8Skip_mem hbegun.first) (skip_ne hlast))).le
    rw [if_neg (by omega), if_neg (by omega), hbegun.extensible_iff hmissing,
      hbegun.exists_reachable_iff hmissing hshort hlegal,
      isUtf8CharHelper_begun hbegun hlast hmissing hshort]
    have hpos := two_le (utf8Skip_mem hbegun.first)
    by_cases hflags : flags = 0
    · rw [if_pos hflags, hflags]
      exact iff_of_true rfl (not_utf8Disallowed_zero _)
    · rw [if_neg hflags, decide_eq_true_iff]
      by_cases hdisallowed : utf8Disallowed flags (firstNumber c rest)
      · rw [if_pos hdisallowed]
        exact iff_of_false (not_not.2 rfl) (not_not.2 hdisallowed)
      · rw [if_neg hdisallowed]
        exact iff_of_true (by omega) hdisallowed
  · have hno : ¬ Extensible flags (c :: rest) := fun hextensible => by
      obtain ⟨hbegun, hmissing⟩ := hextensible.begun hhigh
      obtain ⟨v, hv⟩ := (hbegun.extensible_iff hmissing).1 hextensible
      exact hbetween (hpart.2 ⟨hbegun, hmissing, hv.shortest.trans_lt hv.high⟩)
    have hcases : state = 0 ∨ state = 1 := by omega
    refine iff_of_false ?_ hno
    rcases hcases with hstate | hstate
    · rw [if_pos hstate]
      exact Bool.false_ne_true
    · rw [hstate, if_neg Nat.one_ne_zero, if_pos rfl, if_pos (.inl hff)]
      exact Bool.false_ne_true

end XPerl.Utf8
