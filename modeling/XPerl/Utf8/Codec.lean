import XPerl.Utf8.Bytes

/-! One code point as UTF-8: how it is written, and when bytes are found to be one. -/

namespace XPerl.Utf8

abbrev U32 := BitVec 32

abbrev UV := BitVec 64

inductive Croak where
  | codePointTooLarge (uv : UV)
  | malformedCharacter
deriving DecidableEq

def maxLegalCP : Nat := 0x7FFFFFFFFFFFFFFF

def unicodeIsSurrogate (uv : Nat) : Prop := 0xD800 ≤ uv ∧ uv ≤ 0xDFFF

def unicodeIsSuper (uv : Nat) : Prop := 0x10FFFF < uv

def unicodeIsNoncharGivenNotSuper (uv : Nat) : Prop :=
  (0xFDD0 ≤ uv ∧ uv ≤ 0xFDEF) ∨ uv &&& 0xFFFE = 0xFFFE

def unicodeIsNonchar (uv : Nat) : Prop := ¬ unicodeIsSuper uv ∧ unicodeIsNoncharGivenNotSuper uv

def unicodeIsPerlExtended (uv : Nat) : Prop := 0x7FFFFFFF < uv

instance (uv : Nat) : Decidable (unicodeIsSurrogate uv) :=
  inferInstanceAs (Decidable (_ ∧ _))

instance (uv : Nat) : Decidable (unicodeIsSuper uv) := inferInstanceAs (Decidable (_ < _))

instance (uv : Nat) : Decidable (unicodeIsNoncharGivenNotSuper uv) :=
  inferInstanceAs (Decidable (_ ∨ _))

instance (uv : Nat) : Decidable (unicodeIsNonchar uv) := inferInstanceAs (Decidable (_ ∧ _))

instance (uv : Nat) : Decidable (unicodeIsPerlExtended uv) :=
  inferInstanceAs (Decidable (_ < _))

def uniskipByMsb (pos : Nat) : Nat := (pos + ((6 - 1) - 1)) / (6 - 1)

/-- `OFFUNISKIP`: how many bytes a code point takes. -/
def offuniskip (uv : Nat) : Nat :=
  if uv < 0x80 then 1
  else if 0xFFFFFFFFF < uv then 13
  else uniskipByMsb (Nat.log2 uv)

/-- `UTF8SKIP`, the ranges of `PL_utf8skip`: how many bytes a first byte asks for. -/
def utf8Skip (c : U8) : Nat :=
  if c.toNat < 0xC0 then 1
  else if c.toNat < 0xE0 then 2
  else if c.toNat < 0xF0 then 3
  else if c.toNat < 0xF8 then 4
  else if c.toNat < 0xFC then 5
  else if c.toNat < 0xFE then 6
  else if c.toNat < 0xFF then 7
  else 13

def utfStartMark (len : Nat) : U8 := ~~~((0xFF : U8) >>> len)

def utfStartMask (len : Nat) : U8 := (0xFF : U8) >>> len

def utf8Accumulate (old : UV) (new : U8) : UV := (old <<< 6) ||| (new &&& 0x3F).setWidth 64

def bit (pos : Nat) : U32 := (1 : U32) <<< pos

/-- Whether a word has any of some bits. -/
def has (flags mask : U32) : Bool := flags &&& mask ≠ 0

def unicodeDisallowSurrogate : U32 := 0x0010

def unicodeDisallowNonchar : U32 := 0x0020

def unicodeDisallowSuper : U32 := 0x0040

def unicodeDisallowPerlExtended : U32 := 0x0080

def unicodeAllowAboveIVMax : U32 := 0x0100

/-- The bits of a code point not written yet, and the bytes written behind them. -/
structure Writing where
  shiftedUV : UV
  written : List U8

def Writing.put (w : Writing) : Writing :=
  ⟨w.shiftedUV >>> 6, ((w.shiftedUV &&& 0x3F) ||| 0x80).setWidth 8 :: w.written⟩

def Writing.putMany (w : Writing) : Nat → Writing
  | 0 => w
  | n + 1 => w.put.putMany n

/-- The switch of `uvoffuni_to_utf8_flags_msgs` from the case of two bytes on. -/
def caseTwo (utf8Skip : Nat) (w : Writing) : Option (List U8) :=
  let w := w.put
  some ((w.shiftedUV.setWidth 8 &&& utfStartMask utf8Skip ||| utfStartMark utf8Skip) :: w.written)

def caseThree (inputUV : UV) (flags : U32) (utf8Skip : Nat) (w : Writing) : Option (List U8) :=
  if 0xD800 ≤ inputUV.toNat then
    if unicodeIsNonchar inputUV.toNat then
      if has flags unicodeDisallowNonchar then none else caseTwo utf8Skip w.put
    else if unicodeIsSurrogate inputUV.toNat then
      if has flags unicodeDisallowSurrogate then none else caseTwo utf8Skip w.put
    else caseTwo utf8Skip w.put
  else caseTwo utf8Skip w.put

def caseFour (inputUV : UV) (flags : U32) (utf8Skip : Nat) (w : Writing) : Option (List U8) :=
  if unicodeIsSuper inputUV.toNat ∧ (has flags unicodeDisallowSuper ∨
      (has flags unicodeDisallowPerlExtended ∧ unicodeIsPerlExtended inputUV.toNat)) then none
  else caseThree inputUV flags utf8Skip w.put

def caseFive (inputUV : UV) (flags : U32) (utf8Skip : Nat) (w : Writing) : Option (List U8) :=
  caseFour inputUV flags utf8Skip w.put

def caseSix (inputUV : UV) (flags : U32) (utf8Skip : Nat) (w : Writing) : Option (List U8) :=
  caseFive inputUV flags utf8Skip w.put

/-- The bytes of a code point; none where the flags disallow it. -/
def uvoffuniToUtf8FlagsMsgs (inputUV : UV) (flags : U32) : Except Croak (Option (List U8)) :=
  let utf8Skip := offuniskip inputUV.toNat
  let w : Writing := ⟨inputUV, []⟩
  match utf8Skip with
  | 1 => .ok (some [inputUV.setWidth 8])
  | 2 => .ok (caseTwo utf8Skip w)
  | 3 => .ok (caseThree inputUV flags utf8Skip w)
  | 4 => .ok (caseFour inputUV flags utf8Skip w)
  | 5 => .ok (caseFive inputUV flags utf8Skip w)
  | 6 => .ok (caseSix inputUV flags utf8Skip w)
  | _ =>
    if maxLegalCP < inputUV.toNat ∧ !has flags unicodeAllowAboveIVMax then
      .error (.codePointTooLarge inputUV)
    else if has flags unicodeDisallowPerlExtended then .ok none
    else .ok (caseSix inputUV flags utf8Skip (w.putMany (utf8Skip - 6)))

def extendedNode (k : Nat) : Nat := k * 18

/-- The classes of bytes of `PL_extended_utf8_dfa_tab`. -/
def extendedClasses : List Nat :=
  List.replicate 128 0 ++
  [7, 7, 8, 8, 9, 9, 9, 9, 10, 10, 10, 10, 10, 10, 10, 10] ++
  List.replicate 16 11 ++
  List.replicate 32 12 ++
  [1, 1] ++ List.replicate 30 2 ++
  [13] ++ List.replicate 15 3 ++
  [14, 4, 4, 4, 4, 4, 4, 4, 15, 5, 5, 5, 16, 6, 17, 1]

def extendedNodes : List Nat :=
  let n := extendedNode
  [0, 1, n 1, n 2, n 3, n 4, n 5, 1, 1, 1, 1, 1, 1, n 6, n 7, n 8, n 9, n 10] ++
  [1, 1, 1, 1, 1, 1, 1, 0, 0, 0, 0, 0, 0, 1, 1, 1, 1, 1] ++
  [1, 1, 1, 1, 1, 1, 1, n 1, n 1, n 1, n 1, n 1, n 1, 1, 1, 1, 1, 1] ++
  [1, 1, 1, 1, 1, 1, 1, n 2, n 2, n 2, n 2, n 2, n 2, 1, 1, 1, 1, 1] ++
  [1, 1, 1, 1, 1, 1, 1, n 3, n 3, n 3, n 3, n 3, n 3, 1, 1, 1, 1, 1] ++
  [1, 1, 1, 1, 1, 1, 1, n 4, n 4, n 4, n 4, n 4, n 4, 1, 1, 1, 1, 1] ++
  [1, 1, 1, 1, 1, 1, 1, 1, 1, 1, 1, 1, n 1, 1, 1, 1, 1, 1] ++
  [1, 1, 1, 1, 1, 1, 1, 1, 1, 1, 1, n 2, n 2, 1, 1, 1, 1, 1] ++
  [1, 1, 1, 1, 1, 1, 1, 1, 1, 1, n 3, n 3, n 3, 1, 1, 1, 1, 1] ++
  [1, 1, 1, 1, 1, 1, 1, 1, 1, n 4, n 4, n 4, n 4, 1, 1, 1, 1, 1] ++
  [1, 1, 1, 1, 1, 1, 1, 1, n 5, n 5, n 5, n 5, n 5, 1, 1, 1, 1, 1]

def extendedUtf8DfaTab : List Nat := extendedClasses ++ extendedNodes

def dfaNext (dfaTab : List Nat) (state : Nat) (c : U8) : Nat :=
  dfaTab.getD (256 + state + dfaTab.getD c.toNat 0) 0

/-- The loop of `PERL_IS_UTF8_CHAR_DFA`: the state it ends in, with the bytes it has read. -/
def dfaLoop (dfaTab : List Nat) (state read : Nat) : List U8 → Nat × Nat
  | [] => (state, read)
  | c :: rest =>
    let state := dfaNext dfaTab state c
    if 1 < state then dfaLoop dfaTab state (read + 1) rest else (state, read + 1)

/-- `isFF_overlong`, `FF_OVERLONG_PREFIX` being `"\xff\x80\x80\x80\x80\x80\x80"`. -/
def isFFOverlong (s : List U8) : Int :=
  let ffOverlongPrefix : List U8 := [0xFF, 0x80, 0x80, 0x80, 0x80, 0x80, 0x80]
  if s.take 7 ≠ ffOverlongPrefix.take (min s.length 7) then 0
  else if 7 ≤ s.length then 7
  else -1

/-- `is_utf8_overlong`: how many bytes tell that a sequence is overlong; -1 if they do not yet. -/
def isUtf8Overlong (s : List U8) : Int :=
  let c := byteAt s 0
  if c = 0xC0 ∨ c = 0xC1 then 1
  else if c = 0xE0 then
    if s.length < 2 then -1 else if (byteAt s 1).toNat < 0xA0 then 2 else 0
  else if c = 0xF0 ∨ c = 0xF8 ∨ c = 0xFC ∨ c = 0xFE then
    if s.length < 2 then -1
    else if (byteAt s 1).toNat < 0x80 + 0x100 - c.toNat then 2 else 0
  else if c = 0xFF then isFFOverlong s
  else 0

inductive Overflow where
  | noOverflow
  | couldOverflow
  | almostCertainlyOverflows
  | overflows
deriving DecidableEq

/-- `does_utf8_overflow` where the bytes are above those of the highest code point. -/
def overflowsIfNotOverlong (s : List U8) : Overflow :=
  if isUtf8Overlong s = 0 then .overflows
  else if isUtf8Overlong s < 0 then .almostCertainlyOverflows
  else .noOverflow

/-- Its loop, `y` being what is left of the bytes of the highest code point. -/
def overflowLoop (s : List U8) : List U8 → List U8 → Overflow
  | [], _ => if 3 ≤ s.length then .noOverflow else .couldOverflow
  | _ :: _, [] => .noOverflow
  | x :: xs, y :: ys =>
    if x.toNat < y.toNat then .noOverflow
    else if y.toNat < x.toNat then overflowsIfNotOverlong s
    else overflowLoop s xs ys

/-- `does_utf8_overflow`, `HIGHEST_REPRESENTABLE_UTF` being `"\xFF\x80\x87"`. -/
def doesUtf8Overflow (s : List U8) : Overflow := overflowLoop s s [0xFF, 0x80, 0x87]

def utf8DisallowSurrogate : U32 := bit 5

def utf8WarnSurrogate : U32 := bit 6

def utf8DisallowPerlExtended : U32 := bit 7

def utf8WarnPerlExtended : U32 := bit 8

def utf8DisallowSuper : U32 := bit 9

def utf8WarnSuper : U32 := bit 10

def utf8DisallowNonchar : U32 := bit 11

def utf8WarnNonchar : U32 := bit 12

def isUtf8FFHelper (s : List U8) (requirePartial : Bool) : Nat :=
  if !((s.drop 1).take 12).all isContinuation then 0
  else if doesUtf8Overflow s = .overflows then 0
  else if 0 < isFFOverlong s then 0
  else if s.length < 13 then if requirePartial then 1 else 0
  else if requirePartial then 0
  else 13

def isUTF8Char (s : List U8) : Nat :=
  let (state, read) := dfaLoop extendedUtf8DfaTab 0 0 s
  if s.isEmpty then 0
  else if state = 0 then read
  else if state = 1 then
    if byteAt s 0 ≠ 0xFF then 0 else isUtf8FFHelper s false
  else 0

def isSurrogateUtf8 (s : List U8) : Prop :=
  byteAt s 0 = 0xED ∧ 0xA0 ≤ (byteAt s 1).toNat ∧ (byteAt s 1).toNat ≤ 0xBF

def isShorterNonCharsUtf8 (s : List U8) : Prop :=
  byteAt s 0 = 0xEF ∧
    if byteAt s 1 = 0xB7 then 0x90 ≤ (byteAt s 2).toNat ∧ (byteAt s 2).toNat ≤ 0xAF
    else byteAt s 1 = 0xBF ∧ 0xBE ≤ (byteAt s 2).toNat ∧ (byteAt s 2).toNat ≤ 0xBF

def isLargerNonCharsUtf8 (s : List U8) : Prop :=
  if byteAt s 0 = 0xF0 then
    (byteAt s 1 = 0x9F ∨ byteAt s 1 &&& 0xEF = 0xAF) ∧ byteAt s 2 = 0xBF ∧
      0xBE ≤ (byteAt s 3).toNat ∧ (byteAt s 3).toNat ≤ 0xBF
  else if 0xF1 ≤ (byteAt s 0).toNat ∧ (byteAt s 0).toNat ≤ 0xF3 then
    byteAt s 1 &&& 0xCF = 0x8F ∧ byteAt s 2 = 0xBF ∧
      0xBE ≤ (byteAt s 3).toNat ∧ (byteAt s 3).toNat ≤ 0xBF
  else
    byteAt s 0 = 0xF4 ∧ byteAt s 1 = 0x8F ∧ byteAt s 2 = 0xBF ∧
      0xBE ≤ (byteAt s 3).toNat ∧ (byteAt s 3).toNat ≤ 0xBF

instance (s : List U8) : Decidable (isSurrogateUtf8 s) := inferInstanceAs (Decidable (_ ∧ _))

instance (s : List U8) : Decidable (isShorterNonCharsUtf8 s) :=
  inferInstanceAs (Decidable (_ ∧ _))

instance (s : List U8) : Decidable (isLargerNonCharsUtf8 s) :=
  inferInstanceAs (Decidable (ite _ _ _))

/-- `is_utf8_char_helper_`, on bytes that are in order so far. -/
def isUtf8CharHelper (s : List U8) (flags : U32) : Nat :=
  let fullLen := utf8Skip (byteAt s 0)
  let len := min s.length fullLen
  if fullLen ≤ 2 then fullLen
  else if fullLen = 3 then
    if (byteAt s 0).toNat < 0xED ∨ len < 2 then fullLen
    else if has flags utf8DisallowSurrogate ∧ isSurrogateUtf8 s then 0
    else if has flags utf8DisallowNonchar ∧ len = fullLen ∧ isShorterNonCharsUtf8 s then 0
    else fullLen
  else if fullLen = 4 then
    if 0xF4 < (byteAt s 0).toNat ∨
        (1 < len ∧ byteAt s 0 = 0xF4 ∧ 0x90 ≤ (byteAt s 1).toNat) then
      if has flags utf8DisallowSuper then 0 else fullLen
    else if has flags utf8DisallowNonchar ∧ len = fullLen ∧ isLargerNonCharsUtf8 s then 0
    else fullLen
  else if fullLen ≤ 6 then if has flags utf8DisallowSuper then 0 else fullLen
  else if has flags utf8DisallowPerlExtended then 0
  else if has flags utf8DisallowSuper then 0
  else fullLen

def isUTF8CharFlags (s : List U8) (flags : U32) : Nat :=
  let (state, _) := dfaLoop extendedUtf8DfaTab 0 0 s
  if s.isEmpty then 0
  else if state = 0 then isUtf8CharHelper s flags
  else if state = 1 then
    if byteAt s 0 ≠ 0xFF ∨ has flags (utf8DisallowSuper ||| utf8DisallowPerlExtended) then 0
    else isUtf8FFHelper s false
  else 0

end XPerl.Utf8
