import XPerl.Utf8.Lengths
import XPerl.Utf8.Partial

/-! Strings that are tested piece by piece, a character that is cut going over to the next. -/

namespace XPerl.Utf8

open XPerl.Framework.PlaceValue

variable {c x : U8} {us rest s bytes : List U8} {flags : U32} {k n v : Nat}

def c9Node (k : Nat) : Nat := k * 12

def c9Classes : List Nat :=
  List.replicate 128 0 ++
  List.replicate 16 9 ++
  List.replicate 16 10 ++
  List.replicate 32 11 ++
  [1, 1] ++ List.replicate 30 2 ++
  [7, 3, 3, 3, 3, 3, 3, 3, 3, 3, 3, 3, 3, 4, 3, 3] ++
  [8, 6, 6, 6, 5, 1, 1, 1, 1, 1, 1, 1, 1, 1, 1, 1]

def c9Nodes : List Nat :=
  let n := c9Node
  [0, 1, n 1, n 2, n 5, n 7, n 3, n 4, n 6, 1, 1, 1] ++
  [1, 1, 1, 1, 1, 1, 1, 1, 1, 0, 0, 0] ++
  [1, 1, 1, 1, 1, 1, 1, 1, 1, n 1, n 1, n 1] ++
  [1, 1, 1, 1, 1, 1, 1, 1, 1, n 2, n 2, n 2] ++
  [1, 1, 1, 1, 1, 1, 1, 1, 1, 1, 1, n 1] ++
  [1, 1, 1, 1, 1, 1, 1, 1, 1, n 1, n 1, 1] ++
  [1, 1, 1, 1, 1, 1, 1, 1, 1, 1, n 2, n 2] ++
  [1, 1, 1, 1, 1, 1, 1, 1, 1, n 2, 1, 1]

def c9Utf8DfaTab : List Nat := c9Classes ++ c9Nodes

def utf8DisallowIllegalC9Interchange : U32 :=
  utf8DisallowSuper ||| utf8DisallowPerlExtended ||| utf8DisallowSurrogate

def isStrictUtf8Char (s : List U8) : Nat :=
  let (state, read) := dfaLoop strictUtf8DfaTab 0 0 s
  if s.isEmpty then 0
  else if state = 0 then read
  else if state = 1 then if isHangulEDUtf8Safe s then 3 else 0
  else 0

def isC9StrictUtf8Char (s : List U8) : Nat :=
  let (state, read) := dfaLoop c9Utf8DfaTab 0 0 s
  if s.isEmpty then 0
  else if state = 0 then read
  else 0

def charLoop (charLen : List U8 → Nat) (bytes : List U8) : Nat → Nat → Nat → Nat × Nat
  | 0, x, outlen => (x, outlen)
  | n + 1, x, outlen =>
    if x < bytes.length then
      let curLen := charLen (bytes.drop x)
      if curLen = 0 then (x, outlen) else charLoop charLen bytes n (x + curLen) (outlen + 1)
    else (x, outlen)

/-- Whether a string is in order, where it ends to be, and the characters up to there. -/
structure Loclen where
  valid : Bool
  ep : Nat
  el : Nat
deriving DecidableEq

/-- What `is_utf8_string_loclen` and its siblings share. -/
def stringLoclen (charLen : List U8 → Nat) (address : Nat) (block : List U8) (len : Nat) :
    Loclen :=
  let len := if len = 0 then strlen block else len
  match isUtf8InvariantStringLoc address block len with
  | none => ⟨true, len, len⟩
  | some firstVariant =>
    let (x, outlen) := charLoop charLen (block.take len) len firstVariant firstVariant
    ⟨x = len, x, outlen⟩

def isUtf8StringLoclen : Nat → List U8 → Nat → Loclen := stringLoclen isUTF8Char

def isStrictUtf8StringLoclen : Nat → List U8 → Nat → Loclen := stringLoclen isStrictUtf8Char

def isC9strictUtf8StringLoclen : Nat → List U8 → Nat → Loclen := stringLoclen isC9StrictUtf8Char

def isUtf8StringLoclenFlags (address : Nat) (block : List U8) (len : Nat) (flags : U32) :
    Loclen :=
  if flags = 0 then isUtf8StringLoclen address block len
  else if flags &&& utf8DisallowIllegalInterchange = utf8DisallowIllegalInterchange then
    isStrictUtf8StringLoclen address block len
  else if flags &&& utf8DisallowIllegalC9Interchange = utf8DisallowIllegalC9Interchange then
    isC9strictUtf8StringLoclen address block len
  else stringLoclen (isUTF8CharFlags · flags) address block len

def isUtf8FixedWidthBufLoclenFlags (address : Nat) (block : List U8) (len : Nat) (flags : U32) :
    Loclen :=
  let r := isUtf8StringLoclenFlags address block len flags
  if r.valid then r
  else { r with valid := isUtf8ValidPartialCharFlags ((block.take len).drop r.ep) flags }

def c9Owed : Nat → Nat
  | 4 | 5 => 2
  | 6 | 7 => 3
  | k => k

def c9Lowest : Nat → Nat
  | 4 => 0xA0
  | 6 => 0x90
  | _ => 0x80

def c9Highest : Nat → Nat
  | 5 => 0x9F
  | 7 => 0x8F
  | _ => 0xBF

def secondMost (c : U8) : Nat := if c = 0xED then 0x9F else if c = 0xF4 then 0x8F else 0xBF

theorem c9_waits : Waits c9Utf8DfaTab c9Node c9Owed c9Lowest c9Highest 7 where
  accepts := rfl
  between k hk hk' := by
    rw [c9Node]
    omega
  next k hk hk' x := by
    have hall : ∀ k < 8, 1 ≤ k → ∀ x : U8, dfaNext c9Utf8DfaTab (c9Node k) x =
        if c9Lowest k ≤ x.toNat ∧ x.toNat ≤ c9Highest k then c9Node (c9Owed k - 1) else 1 := by
      decide +kernel
    exact hall k (by omega) hk x
  owes k hk hk' := by
    have hall : ∀ k < 8, 1 ≤ k →
        1 ≤ c9Owed k ∧ c9Owed k - 1 ≤ 7 ∧ c9Owed (c9Owed k - 1) = c9Owed k - 1 := by decide
    exact hall k (by omega) hk
  bounds k := by
    rw [c9Lowest.eq_def, c9Highest.eq_def]
    constructor <;> split <;> decide
  plain k hk hk' := by
    have hall : ∀ k < 8, 1 ≤ k →
        c9Lowest (c9Owed k - 1) = 0x80 ∧ c9Highest (c9Owed k - 1) = 0xBF := by decide
    exact hall k (by omega) hk

theorem c9_first (h : 0xC2 ≤ c.toNat) (h' : c.toNat ≤ 0xF4) :
    ∃ k, 1 ≤ k ∧ k ≤ 7 ∧ dfaNext c9Utf8DfaTab 0 c = c9Node k ∧ c9Owed k + 1 = utf8Skip c ∧
      c9Lowest k = secondLeast c ∧ c9Highest k = secondMost c := by
  have hall : ∀ c : U8, 0xC2 ≤ c.toNat → c.toNat ≤ 0xF4 →
      1 ≤ dfaNext c9Utf8DfaTab 0 c / 12 ∧ dfaNext c9Utf8DfaTab 0 c / 12 ≤ 7 ∧
        dfaNext c9Utf8DfaTab 0 c = c9Node (dfaNext c9Utf8DfaTab 0 c / 12) ∧
        c9Owed (dfaNext c9Utf8DfaTab 0 c / 12) + 1 = utf8Skip c ∧
        c9Lowest (dfaNext c9Utf8DfaTab 0 c / 12) = secondLeast c ∧
        c9Highest (dfaNext c9Utf8DfaTab 0 c / 12) = secondMost c := by decide +kernel
  exact ⟨_, hall c h h'⟩

theorem c9_ascii (h : c.toNat < 0x80) : dfaNext c9Utf8DfaTab 0 c = 0 := by
  revert c
  decide +kernel

theorem c9_refused (h : 0x80 ≤ c.toNat) (h' : c.toNat < 0xC2 ∨ 0xF4 < c.toNat) :
    dfaNext c9Utf8DfaTab 0 c = 1 := by
  revert c
  decide +kernel

theorem utf8Disallowed_c9 (v : Nat) :
    utf8Disallowed utf8DisallowIllegalC9Interchange v ↔
      unicodeIsSurrogate v ∨ unicodeIsSuper v := by
  have hsurrogate : has utf8DisallowIllegalC9Interchange utf8DisallowSurrogate = true := by decide
  have hnonchar : has utf8DisallowIllegalC9Interchange utf8DisallowNonchar = false := by decide
  have hsuper : has utf8DisallowIllegalC9Interchange utf8DisallowSuper = true := by decide
  have hextended : unicodeIsPerlExtended v → unicodeIsSuper v := by
    rw [unicodeIsPerlExtended, unicodeIsSuper]
    omega
  rw [utf8Disallowed, hsurrogate, hnonchar, hsuper]
  tauto

theorem Whole.unicode_iff (h : Whole c (x :: us)) (hlast : c.toNat ≤ 0xF4)
    (hle : least (utf8Skip c) ≤ value c (x :: us)) :
    x.toNat ≤ secondMost c ↔
      ¬ utf8Disallowed utf8DisallowIllegalC9Interchange (value c (x :: us)) := by
  rw [utf8Disallowed_c9, unicodeIsSurrogate, unicodeIsSuper]
  have hlimit := h.value_lt
  have hlength := h.length
  have hx := toNat_of_continuation (h.continues x List.mem_cons_self)
  have hxsix := sixBits_lt x
  have hall : ∀ c : U8, 0xC0 ≤ c.toNat → c.toNat ≤ 0xF4 →
      (utf8Skip c = 2 ∧ secondMost c = 0xBF) ∨
      (utf8Skip c = 3 ∧ secondMost c = if lead c = 13 then 0x9F else 0xBF) ∨
      (utf8Skip c = 4 ∧ lead c ≤ 4 ∧ secondMost c = if lead c = 4 then 0x8F else 0xBF) := by
    decide
  rcases hall c h.first hlast with hc | hc | hc
  · obtain ⟨hskip, hmost⟩ := hc
    rw [hskip] at hlimit
    simp only [limit] at hlimit
    omega
  · obtain ⟨hskip, hmost⟩ := hc
    have hlead : lead c < 2 ^ (7 - utf8Skip c) := lead_lt h.first
    rw [hskip] at hlength hlead
    obtain ⟨y, rfl⟩ := List.length_eq_one_iff.1 (show us.length = 1 by simpa using hlength)
    have hvalue : value c [x, y] = (lead c * 64 + sixBits x) * 64 + sixBits y := rfl
    have hysix := sixBits_lt y
    rw [hmost]
    split_ifs <;> omega
  · obtain ⟨hskip, hlead, hmost⟩ := hc
    rw [hskip] at hlength
    obtain ⟨y, z, rfl⟩ := List.length_eq_two.1 (show us.length = 2 by simpa using hlength)
    have hvalue : value c [x, y, z] =
        ((lead c * 64 + sixBits x) * 64 + sixBits y) * 64 + sixBits z := rfl
    have hysix := sixBits_lt y
    have hzsix := sixBits_lt z
    have hleast : 0x10000 ≤ value c [x, y, z] := by
      rw [hskip] at hle
      exact hle
    rw [hmost]
    split_ifs <;> omega

theorem isC9StrictUtf8Char_eq (s : List U8) :
    isC9StrictUtf8Char s = isUTF8CharFlags s utf8DisallowIllegalC9Interchange := by
  cases s with
  | nil => rfl
  | cons c rest =>
    have hempty : (c :: rest : List U8).isEmpty = false := rfl
    have hcons : dfaLoop c9Utf8DfaTab 0 0 (c :: rest) =
        if 1 < dfaNext c9Utf8DfaTab 0 c then
          dfaLoop c9Utf8DfaTab (dfaNext c9Utf8DfaTab 0 c) 1 rest
        else (dfaNext c9Utf8DfaTab 0 c, 1) := rfl
    rw [isUTF8CharFlags_cons, isC9StrictUtf8Char]
    dsimp only
    rw [hempty, if_neg Bool.false_ne_true, hcons]
    by_cases hascii : c.toNat < 0x80
    · rw [c9_ascii hascii, if_pos hascii]
      rfl
    rw [if_neg hascii]
    by_cases hrefused : c.toNat < 0xC2 ∨ 0xF4 < c.toNat
    · rw [c9_refused (Nat.not_lt.1 hascii) hrefused, if_neg (Nat.lt_irrefl 1),
        if_neg Nat.one_ne_zero, if_neg]
      intro hand
      obtain ⟨haccepted, hallowed⟩ := hand
      rcases hrefused with hlow | hhigh
      · exact not_accepted hlow haccepted
      · have hall : ∀ c : U8, 0xF4 < c.toNat → (utf8Skip c = 4 ∧ 5 ≤ lead c) ∨
            0x200000 ≤ least (utf8Skip c) := by decide
        refine hallowed ((utf8Disallowed_c9 _).2 (.inr ?_))
        rw [unicodeIsSuper]
        have hlength := haccepted.1.length
        rcases hall c hhigh with hc | hc
        · have hle := le_readFrom 64 (lead c) ((rest.take (utf8Skip c - 1)).map sixBits)
          rw [List.length_map, show (rest.take (utf8Skip c - 1)).length = 3 by omega] at hle
          rw [value]
          omega
        · have hle := haccepted.2.1
          omega
    rw [not_or, Nat.not_lt, Nat.not_lt] at hrefused
    obtain ⟨hfirst, hlast⟩ := hrefused
    obtain ⟨k, hk, hk', hnode, howed, hlowest, hhighest⟩ := c9_first hfirst hlast
    obtain ⟨hzero, hread, -⟩ := c9_waits.loop hk hk' rest 1
    have hpos := (c9_waits.owes k hk hk').1
    rw [hnode, if_pos (c9_waits.between k hk hk'), show utf8Skip c - 1 = c9Owed k by omega]
    have hiff : (dfaLoop c9Utf8DfaTab (c9Node k) 1 rest).1 = 0 ↔
        Accepted c (rest.take (c9Owed k)) ∧
          ¬ utf8Disallowed utf8DisallowIllegalC9Interchange (value c (rest.take (c9Owed k))) := by
      rw [hzero, hlowest, hhighest]
      obtain ⟨m, hm⟩ : ∃ m, c9Owed k = m + 1 := ⟨c9Owed k - 1, by omega⟩
      rw [hm] at howed ⊢
      cases rest with
      | nil =>
        refine iff_of_false (by simp) fun hand => ?_
        have hlength := hand.1.1.length
        rw [List.take_nil, List.length_nil] at hlength
        omega
      | cons x rest =>
        have hbyte : byteAt (x :: rest) 0 = x := rfl
        rw [List.take_succ_cons, hbyte, List.length_cons]
        constructor
        · intro hand
          obtain ⟨hlen, hconts, hlow, hhigh⟩ := hand
          have hwhole : Whole c (x :: rest.take m) :=
            ⟨by omega, by rw [List.length_cons, List.length_take]; omega, hconts⟩
          have hle := (hwhole.least_le_iff hfirst (by omega)).2 hlow
          exact ⟨⟨hwhole, hle, hwhole.value_le (by omega)⟩,
            (hwhole.unicode_iff hlast hle).1 hhigh⟩
        · intro hand
          obtain ⟨⟨hwhole, hle, -⟩, hallowed⟩ := hand
          have hlength := hwhole.length
          rw [List.length_cons, List.length_take] at hlength
          exact ⟨by omega, hwhole.continues, (hwhole.least_le_iff hfirst (by omega)).1 hle,
            (hwhole.unicode_iff hlast hle).2 hallowed⟩
    by_cases hstate : (dfaLoop c9Utf8DfaTab (c9Node k) 1 rest).1 = 0
    · rw [if_pos hstate, if_pos (hiff.1 hstate), hread hstate]
      omega
    · rw [if_neg hstate, if_neg (mt hiff.2 hstate)]

/-- Flags made of those for surrogates, code points above Unicode and extended ones. -/
def Combination (flags : U32) : Prop := flags &&& utf8DisallowIllegalC9Interchange = flags

instance (flags : U32) : Decidable (Combination flags) := inferInstanceAs (Decidable (_ = _))

/-- The bytes are a whole character that the flags allow. -/
def FullChar (flags : U32) (s : List U8) : Prop :=
  ∃ v ≤ maxLegalCP, ¬ utf8Disallowed flags v ∧ s = encoding v

theorem isUtf8StringLoclenFlags_eq (h : Combination flags) (address : Nat) (block : List U8)
    (len : Nat) : isUtf8StringLoclenFlags address block len flags =
      stringLoclen (isUTF8CharFlags · flags) address block len := by
  rw [isUtf8StringLoclenFlags]
  split_ifs with hzero hall hc9
  · rw [hzero, funext isUTF8CharFlags_zero]
    rfl
  · have hbit := congrArg (BitVec.getLsbD · 11) hall
    rw [← h] at hbit
    simp only [BitVec.getLsbD_and] at hbit
    rw [show utf8DisallowIllegalC9Interchange.getLsbD 11 = false by decide,
      show utf8DisallowIllegalInterchange.getLsbD 11 = true by decide] at hbit
    simp at hbit
  · have hflags : flags = utf8DisallowIllegalC9Interchange := h.symm.trans hc9
    rw [isC9strictUtf8StringLoclen, funext isC9StrictUtf8Char_eq, hflags]
  · rfl

theorem isUTF8CharFlags_extensible (h : Extensible flags s) : isUTF8CharFlags s flags = 0 := by
  cases s with
  | nil => rfl
  | cons c rest =>
    rw [isUTF8CharFlags_cons]
    by_cases hascii : c.toNat < 0x80
    · exact absurd h (not_extensible_ascii hascii)
    · obtain ⟨hbegun, hmissing⟩ := h.begun (Nat.not_lt.1 hascii)
      rw [if_neg hascii, if_neg]
      intro hand
      have hlength := hand.1.1.length
      rw [List.length_take] at hlength
      rw [missing] at hmissing
      omega

theorem isUTF8CharFlags_whole (hv : v ≤ maxLegalCP) (hallowed : ¬ utf8Disallowed flags v)
    (rest : List U8) : isUTF8CharFlags (encoding v ++ rest) flags = (encoding v).length :=
  ((isUTF8CharFlags_begins flags _ rest).2 ⟨v, hv, rfl, hallowed⟩).2

theorem isUTF8CharFlags_ascii (h : isInvariant c = true) (rest : List U8) :
    isUTF8CharFlags (c :: rest) flags = 1 := by
  rw [isUTF8CharFlags_cons, if_pos]
  simpa [isInvariant] using h

theorem le_maxLegalCP (v : CodePoint) : v.val ≤ maxLegalCP := by
  have hlt := v.isLt
  rw [maxLegalCP]
  omega

theorem charLoop_invariant {i e : Nat} (hle : e ≤ bytes.length) (outlen : Nat)
    (hascii : InvariantOn bytes i e) (hi : i ≤ e) :
    charLoop (isUTF8CharFlags · flags) bytes (n + (e - i)) i outlen =
      charLoop (isUTF8CharFlags · flags) bytes n e (outlen + (e - i)) := by
  induction hd : e - i generalizing i outlen with
  | zero =>
    obtain rfl : i = e := by omega
    rfl
  | succ d ih =>
    have hlt : i < bytes.length := by omega
    have hone : isUTF8CharFlags (bytes.drop i) flags = 1 := by
      rw [List.drop_eq_getElem_cons hlt]
      apply isUTF8CharFlags_ascii
      have hbyte := hascii i (Nat.le_refl i) (by omega)
      rwa [byteAt, List.getD_eq_getElem _ _ hlt] at hbyte
    have hrest : InvariantOn bytes (i + 1) e := fun j hj hje => hascii j (by omega) hje
    rw [← Nat.add_assoc, charLoop, if_pos hlt]
    dsimp only
    rw [hone, if_neg Nat.one_ne_zero, ih (outlen + 1) hrest (by omega) (by omega),
      show outlen + 1 + d = outlen + (d + 1) by omega]

theorem charLoop_whole (cs : List CodePoint) (hcs : ∀ v ∈ cs, ¬ utf8Disallowed flags v)
    (hs : s = [] ∨ Extensible flags s) (p : List U8) (hn : cs.length ≤ n) (outlen : Nat) :
    charLoop (isUTF8CharFlags · flags) (p ++ (characters.encodeAll cs ++ s)) n p.length outlen =
      (p.length + (characters.encodeAll cs).length, outlen + cs.length) := by
  induction cs generalizing p n outlen with
  | nil =>
    cases n with
    | zero => rfl
    | succ n =>
      rw [charLoop, List.drop_left]
      rcases hs with rfl | hs
      · simp
      · have hnone : isUTF8CharFlags s flags = 0 := isUTF8CharFlags_extensible hs
        simp [hnone]
  | cons v cs ih =>
    obtain ⟨n, rfl⟩ : ∃ m, n = m + 1 := ⟨n - 1, by simp at hn; omega⟩
    have hne : 0 < (encoding v).length := List.length_pos_of_ne_nil (encoding_ne_nil v)
    have hencode : characters.encode v = encoding v := rfl
    have hwhole := isUTF8CharFlags_whole (le_maxLegalCP v) (hcs v List.mem_cons_self)
      (characters.encodeAll cs ++ s)
    have hmore := ih (fun w hw => hcs w (List.mem_cons_of_mem v hw)) (p ++ encoding v)
      (by simpa using hn) (outlen + 1)
    rw [XPerl.Framework.Coding.encodeAll_cons, hencode, List.append_assoc, charLoop, if_pos (by
      rw [List.length_append, List.length_append]
      omega), List.drop_left]
    dsimp only
    rw [hwhole, if_neg (by omega)]
    rw [List.append_assoc, List.length_append] at hmore
    rw [hmore, List.length_append, List.length_cons]
    simp only [Prod.mk.injEq]
    omega

theorem charLoop_end (charLen : List U8 → Nat) (bytes : List U8) (n outlen : Nat) :
    charLoop charLen bytes n bytes.length outlen = (bytes.length, outlen) := by
  cases n with
  | zero => rfl
  | succ n => exact if_neg (Nat.lt_irrefl _)

theorem stringLoclen_whole (cs : List CodePoint) (hcs : ∀ v ∈ cs, ¬ utf8Disallowed flags v)
    (hs : s = [] ∨ Extensible flags s) (hbytes : bytes = characters.encodeAll cs ++ s)
    (hne : bytes ≠ []) (address : Nat) (behind : List U8) :
    stringLoclen (isUTF8CharFlags · flags) address (bytes ++ behind) bytes.length =
      ⟨s = [], (characters.encodeAll cs).length, cs.length⟩ := by
  have hlen : bytes.length ≠ 0 := mt List.length_eq_zero_iff.1 hne
  have htake : (bytes ++ behind).take bytes.length = bytes := List.take_left
  have hlength : bytes.length = (characters.encodeAll cs).length + s.length := by
    rw [hbytes, List.length_append]
  have hcount := (length_encodeAll cs).1
  have hinvariant {e : Nat} (he : e ≤ bytes.length) (h : InvariantOn (bytes ++ behind) 0 e) :
      InvariantOn bytes 0 e := by
    intro i hi hie
    have hbyte := h i hi hie
    rwa [byteAt, List.getD_append _ _ _ _ (by omega)] at hbyte
  have hrun (n : Nat) (hn : cs.length ≤ n) :
      charLoop (isUTF8CharFlags · flags) bytes n 0 0 =
        ((characters.encodeAll cs).length, cs.length) := by
    have hwhole := charLoop_whole cs hcs hs [] hn 0
    rw [List.nil_append, List.length_nil, Nat.zero_add, Nat.zero_add, ← hbytes] at hwhole
    exact hwhole
  have hend : (characters.encodeAll cs).length = bytes.length ↔ s = [] := by
    rw [← List.length_eq_zero_iff]
    omega
  have hscan := isUtf8InvariantStringLoc_scans address (bytes ++ behind) bytes.length
  rw [stringLoclen, if_neg hlen, htake]
  cases hfound : isUtf8InvariantStringLoc address (bytes ++ behind) bytes.length with
  | none =>
    rw [hfound] at hscan
    have hsame : charLoop (isUTF8CharFlags · flags) bytes (cs.length + bytes.length) 0 0 =
        charLoop (isUTF8CharFlags · flags) bytes cs.length bytes.length (0 + bytes.length) :=
      charLoop_invariant (Nat.le_refl _) 0 (hinvariant (Nat.le_refl _) hscan) (Nat.zero_le _)
    rw [hrun _ (by omega), charLoop_end, Nat.zero_add, Prod.mk.injEq] at hsame
    obtain ⟨hwhole, hchars⟩ := hsame
    rw [← hwhole, ← hchars.trans hwhole.symm, decide_eq_true (hend.1 hwhole)]
  | some firstVariant =>
    rw [hfound] at hscan
    obtain ⟨-, hlt, -, hbefore⟩ := hscan
    have hsame : charLoop (isUTF8CharFlags · flags) bytes (bytes.length + firstVariant) 0 0 =
        charLoop (isUTF8CharFlags · flags) bytes bytes.length firstVariant (0 + firstVariant) :=
      charLoop_invariant hlt.le 0 (hinvariant hlt.le hbefore) (Nat.zero_le _)
    rw [hrun _ (by omega), Nat.zero_add] at hsame
    dsimp only
    rw [← hsame, decide_eq_decide.2 hend]

/-- A piece of a stream: where it lies, its bytes and what stands behind them. -/
structure Piece where
  address : Nat
  bytes : List U8
  behind : List U8

/-- The pieces are tested one after the other, each with the bytes before it that are no whole
character: the bytes left at the end and the characters counted. -/
def testPieces (flags : U32) : List U8 → Nat → List Piece → Option (List U8 × Nat)
  | carry, count, [] => some (carry, count)
  | carry, count, p :: ps =>
    let buf := carry ++ p.bytes
    let r := isUtf8FixedWidthBufLoclenFlags p.address (buf ++ p.behind) buf.length flags
    if r.valid then testPieces flags (buf.drop r.ep) (count + r.el) ps else none

theorem isUtf8FixedWidthBuf_whole (h : Combination flags) (cs : List CodePoint)
    (hcs : ∀ v ∈ cs, ¬ utf8Disallowed flags v) (hs : s = [] ∨ Extensible flags s)
    (hbytes : bytes = characters.encodeAll cs ++ s) (hne : bytes ≠ []) (address : Nat)
    (behind : List U8) :
    isUtf8FixedWidthBufLoclenFlags address (bytes ++ behind) bytes.length flags =
      ⟨true, (characters.encodeAll cs).length, cs.length⟩ := by
  have htake : (bytes ++ behind).take bytes.length = bytes := List.take_left
  have hdrop : bytes.drop (characters.encodeAll cs).length = s := by
    rw [hbytes, List.drop_left]
  rw [isUtf8FixedWidthBufLoclenFlags, isUtf8StringLoclenFlags_eq h,
    stringLoclen_whole cs hcs hs hbytes hne, htake]
  dsimp only
  rw [hdrop]
  by_cases hnil : s = []
  · simp [hnil]
  · have hpart := (isUtf8ValidPartialCharFlags_iff flags hnil).2 (hs.resolve_left hnil)
    simp [hnil, hpart]

theorem testPieces_whole (h : Combination flags) (pieces : List Piece) (carry : List U8)
    (count : Nat) (cs : List CodePoint) (hcs : ∀ v ∈ cs, ¬ utf8Disallowed flags v)
    (hpieces : ∀ p ∈ pieces, p.bytes ≠ [])
    (hbytes : carry ++ pieces.flatMap Piece.bytes = characters.encodeAll cs)
    (hcarry : ∀ v vs, cs = v :: vs → carry.length < (encoding v).length) :
    testPieces flags carry count pieces = some ([], count + cs.length) := by
  induction pieces generalizing carry count cs with
  | nil =>
    rw [List.flatMap_nil, List.append_nil] at hbytes
    cases cs with
    | nil =>
      rw [hbytes]
      rfl
    | cons v vs =>
      have hshort := hcarry v vs rfl
      rw [hbytes, Framework.Coding.encodeAll_cons, List.length_append] at hshort
      exact absurd hshort (Nat.not_lt.2 (Nat.le_add_right _ _))
  | cons p ps ih =>
    rw [List.flatMap_cons, ← List.append_assoc] at hbytes
    obtain ⟨us, ws, q, hsplit, hbuf, hrest, hcut⟩ := characters.cut hbytes
    rw [hsplit] at hcs
    obtain ⟨hus, hws⟩ := List.forall_mem_append.1 hcs
    have hne : carry ++ p.bytes ≠ [] := fun hnil =>
      hpieces p List.mem_cons_self (List.append_eq_nil_iff.1 hnil).2
    have hq : q = [] ∨ Extensible flags q := by
      cases ws with
      | nil => exact .inl (List.append_eq_nil_iff.1 hrest).1
      | cons w ws =>
        have hshort := hcut w ws rfl
        rw [Framework.Coding.encodeAll_cons] at hrest
        obtain ⟨t, ht⟩ : q <+: characters.encode w :=
          List.prefix_of_prefix_length_le ⟨_, hrest⟩ (List.prefix_append _ _) hshort.le
        refine .inr ⟨t, fun hnil => ?_, w, le_maxLegalCP w, hws w List.mem_cons_self, ht⟩
        rw [hnil, List.append_nil] at ht
        rw [ht] at hshort
        exact Nat.lt_irrefl _ hshort
    have hdrop : (carry ++ p.bytes).drop (characters.encodeAll us).length = q := by
      rw [hbuf, List.drop_left]
    rw [testPieces, isUtf8FixedWidthBuf_whole h us hus hq hbuf hne]
    dsimp only
    rw [if_pos rfl, hdrop, ih q (count + us.length) ws hws
      (fun p' hp' => hpieces p' (List.mem_cons_of_mem p hp')) hrest hcut, hsplit,
      List.length_append, Nat.add_assoc]

/-- The test for partial characters is exact on bytes there are, and the pieces of a stream, none
empty, pass with all its characters counted. -/
theorem partial_exact (h : Combination flags) :
    (∀ s ≠ [], isUtf8ValidPartialCharFlags s flags = true ↔
      ¬ FullChar flags s ∧ ∃ t ≠ [], FullChar flags (s ++ t)) ∧
    ∀ (cs : List CodePoint) (pieces : List Piece), (∀ v ∈ cs, ¬ utf8Disallowed flags v) →
      (∀ p ∈ pieces, p.bytes ≠ []) → pieces.flatMap Piece.bytes = characters.encodeAll cs →
      testPieces flags [] 0 pieces = some ([], cs.length) := by
  constructor
  · intro s hs
    rw [isUtf8ValidPartialCharFlags_iff flags hs]
    refine (and_iff_right_of_imp fun hextensible hfull => ?_).symm
    obtain ⟨v, hv, -, rfl⟩ := hfull
    exact not_extensible_encoding hv hextensible
  · intro cs pieces hcs hpieces hbytes
    have hrun := testPieces_whole h pieces [] 0 cs hcs hpieces hbytes fun v _ _ =>
      List.length_pos_of_ne_nil (encoding_ne_nil v)
    rwa [Nat.zero_add] at hrun

/-- Two characters in three pieces, each of which a piece cuts. -/
theorem partial_exact_three :
    isUtf8ValidPartialCharFlags [0xE2] utf8DisallowSurrogate = true ∧
      testPieces utf8DisallowSurrogate [] 0
        [⟨0, [0xC3], []⟩, ⟨8, [0xA9, 0xE2], [0]⟩, ⟨3, [0x82, 0xAC], []⟩] = some ([], 2) := by
  have hexact := partial_exact (show Combination utf8DisallowSurrogate by decide)
  have hextensible : ∃ t ≠ [], FullChar utf8DisallowSurrogate ([0xE2] ++ t) :=
    ⟨[0x82, 0xAC], by simp, 0x20AC, by decide, by decide, by decide⟩
  refine ⟨(hexact.1 [0xE2] (by simp)).2 ⟨fun hfull => ?_, hextensible⟩, ?_⟩
  · obtain ⟨v, hv, -, heq⟩ := hfull
    have hwhole : Extensible utf8DisallowSurrogate (encoding v) := heq ▸ hextensible
    exact not_extensible_encoding hv hwhole
  · exact hexact.2 [⟨0xE9, by decide⟩, ⟨0x20AC, by decide⟩] _ (by simp; decide) (by simp) (by decide)

/-- The empty string is not the beginning of a character, and an empty piece is read up to a NUL. -/
theorem partial_fails :
    (isUtf8ValidPartialCharFlags [] 0 = false ∧ ¬ FullChar 0 [] ∧
      ∃ t ≠ [], FullChar 0 ([] ++ t)) ∧
    [(⟨0, [], [0x61, 0]⟩ : Piece)].flatMap Piece.bytes = characters.encodeAll [] ∧
      testPieces 0 [] 0 [⟨0, [], [0x61, 0]⟩] = some ([], 1) := by
  refine ⟨⟨rfl, ?_, [0x61], by decide, 0x61, by decide, by decide, by decide⟩, rfl, by decide⟩
  intro hfull
  obtain ⟨v, -, -, heq⟩ := hfull
  exact encoding_ne_nil v heq.symm

end XPerl.Utf8
