import XPerl.Utf8.Bounds
import XPerl.Utf8.Sequences

/-! The table and the functions behind it find exactly the encodings of code points. -/

namespace XPerl.Utf8

open XPerl.Framework.PlaceValue

variable {c x : U8} {us rest s : List U8} {flags : U32} {k n v : Nat}

def owed (k : Nat) : Nat := if k ≤ 5 then k else k - 4

def lowest : Nat → Nat
  | 6 => 0xA0
  | 7 => 0x90
  | 8 => 0x88
  | 9 => 0x84
  | 10 => 0x82
  | _ => 0x80

theorem extended_ascii (h : c.toNat < 0x80) : dfaNext extendedUtf8DfaTab 0 c = 0 := by
  revert c
  decide +kernel

theorem extended_refused (h : 0x80 ≤ c.toNat) (h' : c.toNat < 0xC2 ∨ c.toNat = 0xFF) :
    dfaNext extendedUtf8DfaTab 0 c = 1 := by
  revert c
  decide +kernel

theorem extended_first (h : 0xC2 ≤ c.toNat) (h' : c.toNat < 0xFF) :
    ∃ k, 1 ≤ k ∧ k ≤ 10 ∧ dfaNext extendedUtf8DfaTab 0 c = extendedNode k ∧
      owed k + 1 = utf8Skip c ∧ lowest k = secondLeast c := by
  have hall : ∀ c : U8, 0xC2 ≤ c.toNat → c.toNat < 0xFF →
      1 ≤ dfaNext extendedUtf8DfaTab 0 c / 18 ∧ dfaNext extendedUtf8DfaTab 0 c / 18 ≤ 10 ∧
        dfaNext extendedUtf8DfaTab 0 c = extendedNode (dfaNext extendedUtf8DfaTab 0 c / 18) ∧
        owed (dfaNext extendedUtf8DfaTab 0 c / 18) + 1 = utf8Skip c ∧
        lowest (dfaNext extendedUtf8DfaTab 0 c / 18) = secondLeast c := by decide +kernel
  exact ⟨_, hall c h h'⟩

theorem extended_next (hk : 1 ≤ k) (hk' : k ≤ 10) (x : U8) :
    dfaNext extendedUtf8DfaTab (extendedNode k) x =
      if lowest k ≤ x.toNat ∧ x.toNat ≤ 0xBF then extendedNode (owed k - 1) else 1 := by
  have hall : ∀ k < 11, 1 ≤ k → ∀ x : U8,
      dfaNext extendedUtf8DfaTab (extendedNode k) x =
        if lowest k ≤ x.toNat ∧ x.toNat ≤ 0xBF then extendedNode (owed k - 1) else 1 := by
    decide +kernel
  exact hall k (by omega) hk x

theorem lowest_ge (k : Nat) : 0x80 ≤ lowest k := by
  unfold lowest
  split <;> decide

theorem lowest_plain (h : k ≤ 5) : lowest k = 0x80 := by
  revert k
  decide

/-- Nodes of a table that wait for bytes, the first of these between two bounds. -/
structure Waits (dfaTab : List Nat) (node owed lo hi : Nat → Nat) (n : Nat) : Prop where
  accepts : node 0 = 0
  between : ∀ k, 1 ≤ k → k ≤ n → 1 < node k
  next : ∀ k, 1 ≤ k → k ≤ n → ∀ x : U8, dfaNext dfaTab (node k) x =
    if lo k ≤ x.toNat ∧ x.toNat ≤ hi k then node (owed k - 1) else 1
  owes : ∀ k, 1 ≤ k → k ≤ n → 1 ≤ owed k ∧ owed k - 1 ≤ n ∧ owed (owed k - 1) = owed k - 1
  bounds : ∀ k, 0x80 ≤ lo k ∧ hi k ≤ 0xBF
  plain : ∀ k, 1 ≤ k → k ≤ n → lo (owed k - 1) = 0x80 ∧ hi (owed k - 1) = 0xBF

theorem Waits.loop {dfaTab : List Nat} {node owed lo hi : Nat → Nat}
    (h : Waits dfaTab node owed lo hi n) (hk : 1 ≤ k) (hk' : k ≤ n) (rest : List U8) (read : Nat) :
    ((dfaLoop dfaTab (node k) read rest).1 = 0 ↔
        owed k ≤ rest.length ∧ Continuations (rest.take (owed k)) ∧
          lo k ≤ (byteAt rest 0).toNat ∧ (byteAt rest 0).toNat ≤ hi k) ∧
      ((dfaLoop dfaTab (node k) read rest).1 = 0 →
        (dfaLoop dfaTab (node k) read rest).2 = read + owed k) ∧
      (1 < (dfaLoop dfaTab (node k) read rest).1 ↔
        rest.length < owed k ∧ Continuations rest ∧
          (rest = [] ∨ lo k ≤ (byteAt rest 0).toNat ∧ (byteAt rest 0).toNat ≤ hi k)) := by
  induction rest generalizing k read with
  | nil =>
    have hnode := h.between k hk hk'
    have howed := (h.owes k hk hk').1
    have hrun : (dfaLoop dfaTab (node k) read []).1 = node k := rfl
    rw [hrun, List.length_nil]
    refine ⟨iff_of_false (by omega) fun hand => by omega, fun hzero => by omega, ?_⟩
    exact iff_of_true hnode ⟨howed, fun x hx => absurd hx List.not_mem_nil, .inl rfl⟩
  | cons x rest ih =>
    obtain ⟨howed, hfits, hself⟩ := h.owes k hk hk'
    obtain ⟨hlo, hhi⟩ := h.bounds k
    have hplain := h.plain k hk hk'
    have hbyte : byteAt (x :: rest) 0 = x := rfl
    have hcons : x :: rest ≠ [] := List.cons_ne_nil x rest
    obtain ⟨m, hm⟩ : ∃ m, owed k = m + 1 := ⟨owed k - 1, by omega⟩
    rw [hm, Nat.add_sub_cancel] at hself hplain hfits
    rw [dfaLoop, h.next k hk hk', hbyte, hm, Nat.add_sub_cancel, List.length_cons,
      List.take_succ_cons]
    by_cases hx : lo k ≤ x.toNat ∧ x.toNat ≤ hi k
    · have hcont : isContinuation x = true :=
        (isContinuation_iff x).2 ⟨hlo.trans hx.1, hx.2.trans hhi⟩
      have hconts (us : List U8) : Continuations (x :: us) ↔ Continuations us :=
        List.forall_mem_cons.trans (and_iff_right hcont)
      rw [if_pos hx, hconts, hconts]
      cases m with
      | zero =>
        rw [h.accepts, if_neg (by decide)]
        refine ⟨iff_of_true rfl ⟨by omega, ?_, hx⟩, fun _ => rfl, ?_⟩
        · exact fun y hy => absurd hy List.not_mem_nil
        · exact iff_of_false (Nat.not_lt_zero 1) fun hand => by omega
      | succ m =>
        obtain ⟨hzero, hread, hpart⟩ := ih (by omega) hfits (read + 1)
        rw [hself, hplain.1, hplain.2] at hzero hpart
        rw [hself] at hread
        rw [if_pos (h.between _ (by omega) hfits)]
        refine ⟨?_, ?_, ?_⟩
        · rw [hzero]
          constructor
          · intro hand
            exact ⟨by omega, hand.2.1, hx⟩
          · intro hand
            refine ⟨by omega, hand.2.1, ?_⟩
            cases rest with
            | nil => simp at hand
            | cons y rest => exact (isContinuation_iff y).1 (hand.2.1 y (by simp))
        · intro hstate
          rw [hread hstate]
          omega
        · rw [hpart]
          constructor
          · intro hand
            exact ⟨by omega, hand.2.1, .inr hx⟩
          · intro hand
            refine ⟨by omega, hand.2.1, ?_⟩
            cases rest with
            | nil => exact .inl rfl
            | cons y rest => exact .inr ((isContinuation_iff y).1 (hand.2.1 y (by simp)))
    · rw [if_neg hx, if_neg (Nat.lt_irrefl 1)]
      refine ⟨iff_of_false Nat.one_ne_zero fun hand => hx hand.2.2,
        fun hzero => absurd hzero Nat.one_ne_zero, ?_⟩
      exact iff_of_false (Nat.lt_irrefl 1) fun hand => hx (hand.2.2.resolve_left hcons)

theorem extended_waits : Waits extendedUtf8DfaTab extendedNode owed lowest (fun _ => 0xBF) 10 where
  accepts := rfl
  between k hk hk' := by
    rw [extendedNode]
    omega
  next _ hk hk' := extended_next hk hk'
  owes k hk hk' := by
    simp only [owed]
    split_ifs <;> omega
  bounds k := ⟨lowest_ge k, Nat.le_refl _⟩
  plain k hk hk' := by
    refine ⟨lowest_plain ?_, rfl⟩
    rw [owed]
    split_ifs <;> omega

theorem byteAt_le_of_take (hn : n ≠ 0) (h : Continuations (rest.take n)) (hlen : n ≤ rest.length) :
    (byteAt rest 0).toNat ≤ 0xBF := by
  obtain ⟨m, rfl⟩ := Nat.exists_eq_succ_of_ne_zero hn
  cases rest with
  | nil => simp at hlen
  | cons x rest => exact ((isContinuation_iff x).1 (h x (by simp))).2

theorem dfaLoop_accepts (hk : 1 ≤ k) (hk' : k ≤ 10) (rest : List U8) (read : Nat) :
    ((dfaLoop extendedUtf8DfaTab (extendedNode k) read rest).1 = 0 ∧
        (dfaLoop extendedUtf8DfaTab (extendedNode k) read rest).2 = read + owed k ∧
        (rest.take (owed k)).length = owed k ∧ Continuations (rest.take (owed k)) ∧
        lowest k ≤ (byteAt rest 0).toNat) ∨
      ((dfaLoop extendedUtf8DfaTab (extendedNode k) read rest).1 ≠ 0 ∧
        ¬ ((rest.take (owed k)).length = owed k ∧ Continuations (rest.take (owed k)) ∧
          lowest k ≤ (byteAt rest 0).toNat)) := by
  have howed := (extended_waits.owes k hk hk').1
  obtain ⟨hzero, hread, -⟩ := extended_waits.loop hk hk' rest read
  have hlength : (rest.take (owed k)).length = owed k ↔ owed k ≤ rest.length := by
    rw [List.length_take]
    omega
  rw [hlength]
  by_cases hstate : (dfaLoop extendedUtf8DfaTab (extendedNode k) read rest).1 = 0
  · obtain ⟨hlen, hconts, hlow, -⟩ := hzero.1 hstate
    exact .inl ⟨hstate, hread hstate, hlen, hconts, hlow⟩
  · refine .inr ⟨hstate, fun hand => hstate (hzero.2 ?_)⟩
    obtain ⟨hlen, hconts, hlow⟩ := hand
    exact ⟨hlen, hconts, hlow, byteAt_le_of_take (by omega) hconts hlen⟩

/-- The shortest bytes of a code point that is legal. -/
def Accepted (c : U8) (us : List U8) : Prop :=
  Whole c us ∧ least (utf8Skip c) ≤ value c us ∧ value c us ≤ maxLegalCP

theorem not_accepted (h : c.toNat < 0xC2) : ¬ Accepted c us := by
  intro haccepted
  have htwo : ∀ c : U8, 0xC0 ≤ c.toNat → c.toNat < 0xC2 → utf8Skip c = 2 ∧ lead c < 2 := by decide
  obtain ⟨hskip, hlead⟩ := htwo c haccepted.1.first h
  have hlength := haccepted.1.length
  have hle := haccepted.2.1
  rw [hskip] at hlength hle
  have hvalue : value c us < (lead c + 1) * 64 ^ (us.map sixBits).length :=
    readFrom_lt (numeral_sixBits us)
  rw [List.length_map, show us.length = 1 by omega, Nat.pow_one] at hvalue
  simp only [least] at hle
  omega

theorem dfaLoop_cons (c : U8) (rest : List U8) :
    dfaLoop extendedUtf8DfaTab 0 0 (c :: rest) =
      if 1 < dfaNext extendedUtf8DfaTab 0 c then
        dfaLoop extendedUtf8DfaTab (dfaNext extendedUtf8DfaTab 0 c) 1 rest
      else (dfaNext extendedUtf8DfaTab 0 c, 1) := rfl

theorem Whole.least_le_iff (h : Whole c (x :: us)) (hfirst : 0xC2 ≤ c.toNat)
    (hlast : c.toNat < 0xFF) :
    least (utf8Skip c) ≤ value c (x :: us) ↔ secondLeast c ≤ x.toNat := by
  have hoverlong := h.begun.overlong_iff_second hfirst hlast
  rw [h.forall_append fun us => value c us < least (utf8Skip c)] at hoverlong
  rw [← Nat.not_lt, hoverlong, Nat.not_lt]

theorem dfaLoop_iff (hfirst : 0xC2 ≤ c.toNat) (hlast : c.toNat < 0xFF) (rest : List U8) :
    ((dfaLoop extendedUtf8DfaTab 0 0 (c :: rest)).1 = 0 ∧
        (dfaLoop extendedUtf8DfaTab 0 0 (c :: rest)).2 = utf8Skip c ∧
        Accepted c (rest.take (utf8Skip c - 1))) ∨
      ((dfaLoop extendedUtf8DfaTab 0 0 (c :: rest)).1 ≠ 0 ∧
        ¬ Accepted c (rest.take (utf8Skip c - 1))) := by
  obtain ⟨k, hk, hk', hnode, howed, hlowest⟩ := extended_first hfirst hlast
  have hstate : 1 < extendedNode k := by
    rw [extendedNode]
    omega
  have hskip : utf8Skip c - 1 = owed k := by omega
  have hpos : 1 ≤ owed k := by
    rw [owed]
    split_ifs <;> omega
  rw [dfaLoop_cons, hnode, if_pos hstate, hskip]
  have haccept (hlen : (rest.take (owed k)).length = owed k) :
      ∃ us, rest.take (owed k) = byteAt rest 0 :: us := by
    cases rest with
    | nil =>
      rw [List.take_nil, List.length_nil] at hlen
      omega
    | cons x rest =>
      obtain ⟨m, hm⟩ : ∃ m, owed k = m + 1 := ⟨owed k - 1, by omega⟩
      exact ⟨rest.take m, by rw [hm, List.take_succ_cons]; rfl⟩
  rcases dfaLoop_accepts hk hk' rest 1 with h | h
  · obtain ⟨hzero, hread, hlen, hconts, hlow⟩ := h
    have hwhole : Whole c (rest.take (owed k)) := ⟨by omega, by omega, hconts⟩
    refine .inl ⟨hzero, by omega, hwhole, ?_, hwhole.value_le hlast⟩
    obtain ⟨us, hus⟩ := haccept hlen
    rw [hus] at hwhole ⊢
    rw [hwhole.least_le_iff hfirst hlast, ← hlowest]
    exact hlow
  · obtain ⟨hne, hnot⟩ := h
    refine .inr ⟨hne, fun haccepted => hnot ?_⟩
    obtain ⟨hwhole, hle, -⟩ := haccepted
    have hlen : (rest.take (owed k)).length = owed k := by
      have hlength := hwhole.length
      omega
    refine ⟨hlen, hwhole.continues, ?_⟩
    obtain ⟨us, hus⟩ := haccept hlen
    rw [hus] at hwhole hle
    rw [hwhole.least_le_iff hfirst hlast, ← hlowest] at hle
    exact hle

instance (c : U8) (us : List U8) : Decidable (Whole c us) :=
  decidable_of_iff (0xC0 ≤ c.toNat ∧ us.length + 1 = utf8Skip c ∧ Continuations us)
    ⟨fun h => ⟨h.1, h.2.1, h.2.2⟩, fun h => ⟨h.first, h.length, h.continues⟩⟩

instance (c : U8) (us : List U8) : Decidable (Accepted c us) :=
  inferInstanceAs (Decidable (_ ∧ _ ∧ _))

theorem tooLarge_take (rest : List U8) : TooLarge (rest.take 12) ↔ TooLarge rest := by
  rw [TooLarge, TooLarge, byteAt, byteAt, byteAt, byteAt]
  simp [List.getD_eq_getElem?_getD]

theorem isUtf8FFHelper_eq (rest : List U8) :
    isUtf8FFHelper (0xFF :: rest) false =
      if Accepted 0xFF (rest.take 12) then 13 else 0 := by
  have hdrop : ((0xFF :: rest : List U8).drop 1).take 12 = rest.take 12 := rfl
  rw [isUtf8FFHelper, hdrop]
  by_cases hconts : Continuations (rest.take 12)
  · have hall : (rest.take 12).all isContinuation = true := List.all_eq_true.2 hconts
    rw [hall, Bool.not_true, if_neg Bool.false_ne_true]
    by_cases hshort : rest.length < 12
    · have hno : ¬ Accepted 0xFF (rest.take 12) := fun h => by
        have hlength := h.1.length
        rw [List.length_take, show utf8Skip 0xFF = 13 by decide] at hlength
        omega
      have hlen : (0xFF :: rest : List U8).length < 13 := by
        rw [List.length_cons]
        omega
      rw [if_neg hno, if_pos hlen, if_neg Bool.false_ne_true]
      split_ifs <;> rfl
    have hwhole : Whole 0xFF (rest.take 12) := by
      refine ⟨by decide, ?_, hconts⟩
      rw [List.length_take, show utf8Skip 0xFF = 13 by decide]
      omega
    have hlen : ¬ (0xFF :: rest : List U8).length < 13 := by
      rw [List.length_cons]
      omega
    have hlarge := hwhole.begun.overflow_iff_longest
    rw [hwhole.forall_append fun us => maxLegalCP < value 0xFF us, tooLarge_take] at hlarge
    have hoverlong := hwhole.begun.overlong_iff_prefix
    rw [hwhole.forall_append fun us => value 0xFF us < least (utf8Skip 0xFF), List.take_take,
      show min 6 12 = 6 by decide, ← isFFOverlong_pos_iff] at hoverlong
    have htwo : Continuations (rest.take 2) := fun x hx => hconts x (by
      rw [show rest.take 2 = (rest.take 12).take 2 by rw [List.take_take]; rfl] at hx
      exact List.mem_of_mem_take hx)
    rw [if_neg hlen, if_neg Bool.false_ne_true]
    rcases doesUtf8Overflow_longest htwo with hover | hover
    · have hno : ¬ Accepted 0xFF (rest.take 12) := fun h =>
        Nat.not_lt.2 h.2.2 (hlarge.2 hover.2)
      rw [if_pos hover.1, if_neg hno]
    · have hne : doesUtf8Overflow (0xFF :: rest) ≠ .overflows := by
        rcases hover.1 with h | h <;> rw [h] <;> decide
      have hle : value 0xFF (rest.take 12) ≤ maxLegalCP :=
        Nat.not_lt.1 fun h => hover.2 (hlarge.1 h)
      rw [if_neg hne]
      by_cases hpos : 0 < isFFOverlong (0xFF :: rest)
      · have hno : ¬ Accepted 0xFF (rest.take 12) := fun h =>
          Nat.not_lt.2 h.2.1 (hoverlong.2 hpos)
        rw [if_pos hpos, if_neg hno]
      · rw [if_neg hpos, if_pos ⟨hwhole, Nat.not_lt.1 fun h => hpos (hoverlong.1 h), hle⟩]
  · have hall : (rest.take 12).all isContinuation = false := by
      rw [Bool.eq_false_iff]
      exact fun h => hconts (List.all_eq_true.1 h)
    rw [hall, Bool.not_false, if_pos rfl, if_neg fun h => hconts h.1.continues]

theorem isUTF8Char_cons (c : U8) (rest : List U8) :
    isUTF8Char (c :: rest) =
      if c.toNat < 0x80 then 1
      else if Accepted c (rest.take (utf8Skip c - 1)) then utf8Skip c
      else 0 := by
  have hempty : (c :: rest : List U8).isEmpty = false := rfl
  rw [isUTF8Char]
  dsimp only
  rw [hempty, if_neg Bool.false_ne_true]
  by_cases hascii : c.toNat < 0x80
  · rw [dfaLoop_cons, extended_ascii hascii, if_pos hascii]
    rfl
  rw [if_neg hascii]
  by_cases hrefused : c.toNat < 0xC2 ∨ c.toNat = 0xFF
  · rw [dfaLoop_cons, extended_refused (Nat.not_lt.1 hascii) hrefused]
    have hbyte : byteAt (c :: rest) 0 = c := rfl
    simp only [Nat.lt_irrefl, if_false, Nat.one_ne_zero, if_true, hbyte]
    by_cases hff : c = 0xFF
    · subst hff
      rw [if_neg (not_not.2 rfl), isUtf8FFHelper_eq]
      rfl
    · have hlast := lt_of_ne_last hff
      have hno : ¬ Accepted c (rest.take (utf8Skip c - 1)) := not_accepted (by omega)
      rw [if_pos hff, if_neg hno]
  · have hfirst : 0xC2 ≤ c.toNat := by omega
    have hlast : c.toNat < 0xFF := by
      have hlt := c.isLt
      omega
    rcases dfaLoop_iff hfirst hlast rest with h | h
    · rw [if_pos h.1, if_pos h.2.2, h.2.1]
    · have hff : c ≠ 0xFF := fun heq => by
        subst heq
        revert hlast
        decide
      have hbyte : byteAt (c :: rest) 0 = c := rfl
      rw [if_neg h.1, if_neg h.2, hbyte, if_pos hff]
      split_ifs <;> rfl

/-- The code points that the flags of the checker exclude. -/
def utf8Disallowed (flags : U32) (v : Nat) : Prop :=
  (has flags utf8DisallowSurrogate ∧ unicodeIsSurrogate v) ∨
    (has flags utf8DisallowNonchar ∧ unicodeIsNonchar v) ∨
    (has flags utf8DisallowSuper ∧ unicodeIsSuper v) ∨
    (has flags utf8DisallowPerlExtended ∧ unicodeIsPerlExtended v)

instance (flags : U32) (v : Nat) : Decidable (utf8Disallowed flags v) :=
  inferInstanceAs (Decidable (_ ∨ _ ∨ _ ∨ _))

theorem utf8Disallowed_three (h : 0x800 ≤ v) (h' : v < 0x10000) :
    utf8Disallowed flags v ↔
      (has flags utf8DisallowSurrogate ∧ 0xD800 ≤ v ∧ v ≤ 0xDFFF) ∨
        (has flags utf8DisallowNonchar ∧ ((0xFDD0 ≤ v ∧ v ≤ 0xFDEF) ∨ 0xFFFE ≤ v)) := by
  have hsuper : ¬ unicodeIsSuper v := by
    rw [unicodeIsSuper]
    omega
  have hextended : ¬ unicodeIsPerlExtended v := by
    rw [unicodeIsPerlExtended]
    omega
  have hmod : v % 65536 = v := Nat.mod_eq_of_lt h'
  simp only [utf8Disallowed, unicodeIsNonchar, noncharGivenNotSuper_iff, hsuper, hextended,
    not_false_eq_true, true_and, and_false, or_false, hmod, unicodeIsSurrogate]

theorem helper_three (hskip : utf8Skip c = 3) {x y : U8} (h : Accepted c [x, y]) :
    isUtf8CharHelper (c :: x :: y :: rest) flags =
      if utf8Disallowed flags (value c [x, y]) then 0 else 3 := by
  obtain ⟨hwhole, hle, -⟩ := h
  have hfirst : ∀ c : U8, utf8Skip c = 3 → c.toNat = 0xE0 + lead c ∧ lead c < 16 := by decide
  obtain ⟨hc, hlead⟩ := hfirst c hskip
  have hx := toNat_of_continuation (hwhole.continues x (by simp))
  have hy := toNat_of_continuation (hwhole.continues y (by simp))
  have hxsix := sixBits_lt x
  have hysix := sixBits_lt y
  have hvalue : value c [x, y] = (lead c * 64 + sixBits x) * 64 + sixBits y := rfl
  rw [hskip] at hle
  simp only [least] at hle
  generalize value c [x, y] = v at hle hvalue
  have hlen : min (c :: x :: y :: rest).length 3 = 3 := by
    simp only [List.length_cons]
    omega
  have hzero : byteAt (c :: x :: y :: rest) 0 = c := rfl
  have hone : byteAt (c :: x :: y :: rest) 1 = x := rfl
  have htwo : byteAt (c :: x :: y :: rest) 2 = y := rfl
  have hsurrogate : isSurrogateUtf8 (c :: x :: y :: rest) ↔ 0xD800 ≤ v ∧ v ≤ 0xDFFF := by
    have hed : c = 0xED ↔ c.toNat = 0xED := BitVec.toNat_inj.symm
    rw [isSurrogateUtf8, hzero, hone, hed]
    omega
  have hnonchar : isShorterNonCharsUtf8 (c :: x :: y :: rest) ↔
      (0xFDD0 ≤ v ∧ v ≤ 0xFDEF) ∨ 0xFFFE ≤ v := by
    have hef : c = 0xEF ↔ c.toNat = 0xEF := BitVec.toNat_inj.symm
    have hb7 : x = 0xB7 ↔ x.toNat = 0xB7 := BitVec.toNat_inj.symm
    have hbf : x = 0xBF ↔ x.toNat = 0xBF := BitVec.toNat_inj.symm
    rw [isShorterNonCharsUtf8, hzero, hone, htwo]
    simp only [hef, hb7, hbf]
    split_ifs <;> omega
  rw [if_congr (utf8Disallowed_three hle (by omega)) rfl rfl, isUtf8CharHelper]
  simp only [hzero, hskip, hlen, hsurrogate, hnonchar]
  by_cases hlow : c.toNat < 0xED
  · have hs : ¬ (0xD800 ≤ v ∧ v ≤ 0xDFFF) := by omega
    have hn : ¬ ((0xFDD0 ≤ v ∧ v ≤ 0xFDEF) ∨ 0xFFFE ≤ v) := by omega
    simp [hlow, hs, hn]
  · by_cases hs : has flags utf8DisallowSurrogate = true ∧ 0xD800 ≤ v ∧ v ≤ 0xDFFF
    · simp [hlow, hs]
    · by_cases hn : has flags utf8DisallowNonchar = true ∧
          ((0xFDD0 ≤ v ∧ v ≤ 0xFDEF) ∨ 0xFFFE ≤ v)
      · simp [hlow, hs, hn]
      · simp [hlow, hs, hn]

theorem utf8Disallowed_four (h : 0x10000 ≤ v) (h' : v < 0x200000) :
    utf8Disallowed flags v ↔
      (has flags utf8DisallowNonchar ∧ v ≤ 0x10FFFF ∧ 65534 ≤ v % 65536) ∨
        (has flags utf8DisallowSuper ∧ 0x10FFFF < v) := by
  have hsurrogate : ¬ unicodeIsSurrogate v := fun hs => by
    have hlast := hs.2
    omega
  have hextended : ¬ unicodeIsPerlExtended v := by
    rw [unicodeIsPerlExtended]
    omega
  have hrange : ¬ (0xFDD0 ≤ v ∧ v ≤ 0xFDEF) := by omega
  simp only [utf8Disallowed, unicodeIsNonchar, noncharGivenNotSuper_iff, hsurrogate, hextended,
    hrange, and_false, false_or, or_false, unicodeIsSuper, Nat.not_lt]

theorem helper_four (hskip : utf8Skip c = 4) {x y z : U8} (h : Accepted c [x, y, z]) :
    isUtf8CharHelper (c :: x :: y :: z :: rest) flags =
      if utf8Disallowed flags (value c [x, y, z]) then 0 else 4 := by
  obtain ⟨hwhole, hle, -⟩ := h
  have hfirst : ∀ c : U8, utf8Skip c = 4 → c.toNat = 0xF0 + lead c ∧ lead c < 8 := by decide
  have hplane : ∀ x : U8, (x &&& 0xEF = 0xAF ↔ x.toNat = 0xAF ∨ x.toNat = 0xBF) ∧
      (x &&& 0xCF = 0x8F ↔ x.toNat = 0x8F ∨ x.toNat = 0x9F ∨ x.toNat = 0xAF ∨ x.toNat = 0xBF) := by
    decide
  obtain ⟨hc, hlead⟩ := hfirst c hskip
  have hx := toNat_of_continuation (hwhole.continues x (by simp))
  have hy := toNat_of_continuation (hwhole.continues y (by simp))
  have hz := toNat_of_continuation (hwhole.continues z (by simp))
  have hxsix := sixBits_lt x
  have hysix := sixBits_lt y
  have hzsix := sixBits_lt z
  have hvalue : value c [x, y, z] =
      ((lead c * 64 + sixBits x) * 64 + sixBits y) * 64 + sixBits z := rfl
  rw [hskip] at hle
  simp only [least] at hle
  generalize value c [x, y, z] = v at hle hvalue
  have hlen : min (c :: x :: y :: z :: rest).length 4 = 4 := by
    simp only [List.length_cons]
    omega
  have hzero : byteAt (c :: x :: y :: z :: rest) 0 = c := rfl
  have hone : byteAt (c :: x :: y :: z :: rest) 1 = x := rfl
  have htwo : byteAt (c :: x :: y :: z :: rest) 2 = y := rfl
  have hthree : byteAt (c :: x :: y :: z :: rest) 3 = z := rfl
  have hf0 : c = 0xF0 ↔ c.toNat = 0xF0 := BitVec.toNat_inj.symm
  have hf4 : c = 0xF4 ↔ c.toNat = 0xF4 := BitVec.toNat_inj.symm
  have hsuper : (0xF4 < c.toNat ∨ (1 < 4 ∧ c = 0xF4 ∧ 0x90 ≤ x.toNat)) ↔ 0x10FFFF < v := by
    rw [hf4]
    omega
  have hnonchar (hbmp : v ≤ 0x10FFFF) :
      isLargerNonCharsUtf8 (c :: x :: y :: z :: rest) ↔ 65534 ≤ v % 65536 := by
    have h9f : x = 0x9F ↔ x.toNat = 0x9F := BitVec.toNat_inj.symm
    have h8f : x = 0x8F ↔ x.toNat = 0x8F := BitVec.toNat_inj.symm
    have hbf : y = 0xBF ↔ y.toNat = 0xBF := BitVec.toNat_inj.symm
    rw [isLargerNonCharsUtf8, hzero, hone, htwo, hthree]
    simp only [hf0, hf4, h9f, h8f, hbf, (hplane x).1, (hplane x).2]
    split_ifs <;> omega
  rw [if_congr (utf8Disallowed_four hle (by omega)) rfl rfl, isUtf8CharHelper]
  simp only [hzero, hone, hskip, hlen, hsuper]
  by_cases hs : 0x10FFFF < v
  · have hbmp : ¬ v ≤ 0x10FFFF := Nat.not_le.2 hs
    by_cases hflag : has flags utf8DisallowSuper <;> simp [hs, hbmp, hflag]
  · have hbmp : v ≤ 0x10FFFF := Nat.not_lt.1 hs
    simp only [hnonchar hbmp]
    by_cases hflag : has flags utf8DisallowNonchar <;> simp [hs, hbmp, hflag]

theorem utf8Disallowed_long (h : 0x200000 ≤ v) :
    utf8Disallowed flags v ↔ has flags utf8DisallowSuper ∨
      (has flags utf8DisallowPerlExtended ∧ 0x80000000 ≤ v) := by
  have hsurrogate : ¬ unicodeIsSurrogate v := fun hs => by
    have hlast := hs.2
    omega
  have hsuper : unicodeIsSuper v := by
    rw [unicodeIsSuper]
    omega
  simp only [utf8Disallowed, unicodeIsNonchar, hsurrogate, hsuper, not_true_eq_false, false_and,
    and_false, false_or, and_true, unicodeIsPerlExtended, Nat.lt_iff_add_one_le]

theorem utf8Disallowed_two (h : v < 0x800) : ¬ utf8Disallowed flags v := by
  have hsurrogate : ¬ unicodeIsSurrogate v := fun hs => by
    have hfirst := hs.1
    omega
  have hnonchar : ¬ unicodeIsNonchar v := fun hn => by
    have hcases := (noncharGivenNotSuper_iff v).1 hn.2
    omega
  have hsuper : ¬ unicodeIsSuper v := by
    rw [unicodeIsSuper]
    omega
  have hextended : ¬ unicodeIsPerlExtended v := by
    rw [unicodeIsPerlExtended]
    omega
  simp only [utf8Disallowed, hextended, hsuper, hnonchar, hsurrogate, and_false, or_self,
    not_false_eq_true]

theorem isUtf8CharHelper_eq (h : Accepted c (rest.take (utf8Skip c - 1))) :
    isUtf8CharHelper (c :: rest) flags =
      if utf8Disallowed flags (value c (rest.take (utf8Skip c - 1))) then 0 else utf8Skip c := by
  have hwhole := h.1
  have hlength := hwhole.length
  have hlimit := hwhole.value_lt
  have hle := h.2.1
  have hmem := utf8Skip_mem hwhole.first
  have hzero : byteAt (c :: rest) 0 = c := rfl
  simp only [lengths, List.mem_cons, List.not_mem_nil, or_false] at hmem
  rcases hmem with hskip | hskip | hskip | hskip | hskip | hskip | hskip <;>
    rw [hskip] at h hlength hlimit hle ⊢ <;> simp only [limit] at hlimit <;>
    simp only [least] at hle
  · rw [if_neg (utf8Disallowed_two (by omega)), isUtf8CharHelper]
    simp only [hzero, hskip]
    rfl
  · obtain ⟨x, y, hxy⟩ := List.length_eq_two.1 (show (rest.take 2).length = 2 from Nat.succ.inj hlength)
    have hrest : rest = x :: y :: rest.drop 2 := by
      conv_lhs => rw [← List.take_append_drop 2 rest, hxy]
      rfl
    change Accepted c (rest.take 2) at h
    change _ = if utf8Disallowed flags (value c (rest.take 2)) then 0 else 3
    rw [hxy] at h ⊢
    rw [hrest]
    exact helper_three hskip h
  · obtain ⟨x, y, z, hxyz⟩ := List.length_eq_three.1 (show (rest.take 3).length = 3 from Nat.succ.inj hlength)
    have hrest : rest = x :: y :: z :: rest.drop 3 := by
      conv_lhs => rw [← List.take_append_drop 3 rest, hxyz]
      rfl
    change Accepted c (rest.take 3) at h
    change _ = if utf8Disallowed flags (value c (rest.take 3)) then 0 else 4
    rw [hxyz] at h ⊢
    rw [hrest]
    exact helper_four hskip h
  all_goals
    rw [if_congr (utf8Disallowed_long (by omega)) rfl rfl, isUtf8CharHelper]
    simp only [hzero, hskip]
  · have hsmall : ¬ 0x80000000 ≤ value c (rest.take (5 - 1)) := by omega
    simp [hsmall]
  · have hsmall : ¬ 0x80000000 ≤ value c (rest.take (6 - 1)) := by omega
    simp [hsmall]
  · have hlarge : 0x80000000 ≤ value c (rest.take (7 - 1)) := by omega
    by_cases hextended : has flags utf8DisallowPerlExtended <;> simp [hlarge, hextended]
  · have hlarge : 0x80000000 ≤ value c (rest.take (13 - 1)) := by omega
    by_cases hextended : has flags utf8DisallowPerlExtended <;> simp [hlarge, hextended]

theorem has_or (flags a b : U32) : has flags (a ||| b) = (has flags a || has flags b) := by
  simp [has, BitVec.and_or_distrib_left]

theorem isUTF8CharFlags_cons (c : U8) (rest : List U8) (flags : U32) :
    isUTF8CharFlags (c :: rest) flags =
      if c.toNat < 0x80 then 1
      else if Accepted c (rest.take (utf8Skip c - 1)) ∧
        ¬ utf8Disallowed flags (value c (rest.take (utf8Skip c - 1))) then utf8Skip c
      else 0 := by
  have hempty : (c :: rest : List U8).isEmpty = false := rfl
  have hzero : byteAt (c :: rest) 0 = c := rfl
  rw [isUTF8CharFlags]
  dsimp only
  rw [hempty, if_neg Bool.false_ne_true, hzero]
  by_cases hascii : c.toNat < 0x80
  · have hskip : ∀ c : U8, c.toNat < 0x80 → utf8Skip c = 1 := by decide
    rw [dfaLoop_cons, extended_ascii hascii, if_pos hascii, isUtf8CharHelper]
    simp only [hzero, hskip c hascii]
    rfl
  rw [if_neg hascii]
  by_cases hff : c = 0xFF
  · subst hff
    have hsuper (h : Accepted 0xFF (rest.take 12)) :
        utf8Disallowed flags (value 0xFF (rest.take 12)) ↔
          has flags (utf8DisallowSuper ||| utf8DisallowPerlExtended) := by
      have hle : 0x1000000000 ≤ value 0xFF (rest.take 12) := h.2.1
      have hlarge : 0x80000000 ≤ value 0xFF (rest.take 12) := by omega
      rw [utf8Disallowed_long (by omega), has_or, Bool.or_eq_true]
      simp only [hlarge, and_true]
    rw [dfaLoop_cons, extended_refused (by decide) (.inr rfl)]
    simp only [Nat.lt_irrefl, if_false, Nat.one_ne_zero, if_true, isUtf8FFHelper_eq, ne_eq,
      not_true_eq_false, false_or]
    change _ = if Accepted 0xFF (rest.take 12) ∧
      ¬ utf8Disallowed flags (value 0xFF (rest.take 12)) then 13 else 0
    by_cases haccepted : Accepted 0xFF (rest.take 12)
    · rw [if_pos haccepted]
      by_cases hflag : has flags (utf8DisallowSuper ||| utf8DisallowPerlExtended)
      · rw [if_pos hflag, if_neg fun h => h.2 ((hsuper haccepted).2 hflag)]
      · rw [if_neg hflag, if_pos ⟨haccepted, fun h => hflag ((hsuper haccepted).1 h)⟩]
    · have hno : ¬ (Accepted 0xFF (rest.take 12) ∧
          ¬ utf8Disallowed flags (value 0xFF (rest.take 12))) := fun h => haccepted h.1
      rw [if_neg haccepted, if_neg hno, ite_self]
  have hlast := lt_of_ne_last hff
  have hother : (if c ≠ 0xFF ∨ has flags (utf8DisallowSuper ||| utf8DisallowPerlExtended) then 0
      else isUtf8FFHelper (c :: rest) false) = 0 := if_pos (.inl hff)
  rw [hother]
  by_cases hrefused : c.toNat < 0xC2
  · have hno : ¬ (Accepted c (rest.take (utf8Skip c - 1)) ∧
        ¬ utf8Disallowed flags (value c (rest.take (utf8Skip c - 1)))) :=
      fun h => not_accepted hrefused h.1
    rw [dfaLoop_cons, extended_refused (Nat.not_lt.1 hascii) (.inl hrefused), if_neg hno]
    rfl
  · rcases dfaLoop_iff (Nat.not_lt.1 hrefused) hlast rest with h | h
    · rw [if_pos h.1, isUtf8CharHelper_eq h.2.2]
      by_cases hdisallowed : utf8Disallowed flags (value c (rest.take (utf8Skip c - 1)))
      · rw [if_pos hdisallowed, if_neg fun hand => hand.2 hdisallowed]
      · rw [if_neg hdisallowed, if_pos ⟨h.2.2, hdisallowed⟩]
    · have hno : ¬ (Accepted c (rest.take (utf8Skip c - 1)) ∧
          ¬ utf8Disallowed flags (value c (rest.take (utf8Skip c - 1)))) := fun hand => h.2 hand.1
      rw [if_neg h.1, if_neg hno, ite_self]

end XPerl.Utf8
