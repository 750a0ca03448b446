import XPerl.Framework.Lanes

/-! Between bytes and UTF-8: the functions on whole strings, and their scans by words. -/

namespace XPerl.Utf8

open XPerl.Framework.Lanes

abbrev U8 := BitVec 8

def isInvariant (c : U8) : Bool := c.toNat < 0x80

def isContinuation (c : U8) : Bool := c &&& 0xC0 = 0x80

def isStart (c : U8) : Bool := 0xC2 ≤ c.toNat

def isDowngradeableStart (c : U8) : Bool := 0xC2 ≤ c.toNat ∧ c.toNat ≤ 0xC3

def eightBitUtf8ToNative (hi lo : U8) : U8 := ((hi &&& 0x1F) <<< 6) ||| (lo &&& 0x3F)

def eightBitHi (c : U8) : U8 := (c >>> 6) ||| 0xC0

def eightBitLo (c : U8) : U8 := (c &&& 0x3F) ||| 0x80

def byteAt (block : List U8) (i : Nat) : U8 := block.getD i 0

def loadWord (block : List U8) (i : Nat) : BitVec 64 := ofBytes fun k => byteAt block (i + k)

def bytesRemainingInWord (address : Nat) : Nat := (8 - (address &&& 7)) &&& 7

/-- `WORTH_PER_WORD_LOOP`, on offsets in a block at an address. -/
def worthPerWordLoop (address s e fullWordsNeeded : Nat) : Option Nat :=
  if s + bytesRemainingInWord (address + s) + fullWordsNeeded * 8 < e then
    some (s + bytesRemainingInWord (address + s))
  else none

def lsbitPos (word : BitVec 64) : Nat := ((List.range 64).find? fun i => word.getLsbD i).getD 64

def variantByteNumber (word : BitVec 64) : Nat :=
  ((lsbitPos (word &&& 0x8080808080808080) + 1) >>> 3) - 1

/-- Where a loop over words has stopped. -/
inductive Scan where
  | found (x : Nat)
  | upTo (x : Nat)

/-- The loops over bytes of `is_utf8_invariant_string_loc`. -/
def variantByByte (block : List U8) (e : Nat) : Nat → Nat → Option Nat
  | 0, _ => none
  | n + 1, x =>
    if x < e then
      if isInvariant (byteAt block x) then variantByByte block e n (x + 1) else some x
    else none

def variantByWord (block : List U8) (send : Nat) : Nat → Nat → Scan
  | 0, x => .upTo x
  | n + 1, x =>
    if loadWord block x &&& 0x8080808080808080 ≠ 0 then
      .found (x + variantByteNumber (loadWord block x))
    else if x + 16 ≤ send then variantByWord block send n (x + 8)
    else .upTo (x + 8)

/-- The first variant; none if the string has none. -/
def isUtf8InvariantStringLoc (address : Nat) (block : List U8) (len : Nat) : Option Nat :=
  match worthPerWordLoop address 0 len 1 with
  | none => variantByByte block len len 0
  | some perByteEnd =>
    match variantByByte block perByteEnd perByteEnd 0 with
    | some x => some x
    | none =>
      match variantByWord block len len perByteEnd with
      | .found x => some x
      | .upTo x => variantByByte block len len x

/-- The loops over bytes of `variant_under_utf8_count`. -/
def countByByte (block : List U8) (e : Nat) : Nat → Nat → Nat → Nat
  | 0, _, count => count
  | n + 1, x, count =>
    if x < e then
      countByByte block e n (x + 1) (if isInvariant (byteAt block x) then count else count + 1)
    else count

def countByWord (block : List U8) (e : Nat) : Nat → Nat → Nat → Nat × Nat
  | 0, x, count => (x, count)
  | n + 1, x, count =>
    let increment :=
      (((loadWord block x &&& 0x8080808080808080) >>> 7) * 0x0101010101010101) >>> 56
    if x + 16 ≤ e then countByWord block e n (x + 8) (count + increment.toNat)
    else (x + 8, count + increment.toNat)

def variantUnderUtf8Count (address : Nat) (block : List U8) (len : Nat) : Nat :=
  match worthPerWordLoop address 0 len 1 with
  | none => countByByte block len len 0 0
  | some perByteEnd =>
    let (x, count) :=
      countByWord block len len perByteEnd (countByByte block perByteEnd perByteEnd 0 0)
    countByByte block len len x count

def isNextCharDowngradeable (block : List U8) (s e : Nat) : Bool :=
  1 < e - s ∧ isDowngradeableStart (byteAt block s) ∧ isContinuation (byteAt block (s + 1))

/-- The loops over bytes of the first pass of `utf8_to_bytes_`, with the count of variants. -/
def checkBytes (block : List U8) (send bound : Nat) : Nat → Nat → Nat → Option Nat
  | 0, _, variantCount => some variantCount
  | n + 1, s, variantCount =>
    if s < bound then
      if isInvariant (byteAt block s) then checkBytes block send bound n (s + 1) variantCount
      else if isNextCharDowngradeable block s send then
        checkBytes block send bound n (s + 2) (variantCount + 1)
      else none
    else some variantCount

def startBytes (word : BitVec 64) : BitVec 64 :=
  zeroLanes ((word &&& 0xC0C0C0C0C0C0C0C0) ^^^ 0xC0C0C0C0C0C0C0C0)

def c2C3StartBytes (word : BitVec 64) : BitVec 64 :=
  zeroLanes ((word &&& 0xFEFEFEFEFEFEFEFE) ^^^ 0xC2C2C2C2C2C2C2C2)

def checkWords (block : List U8) (send : Nat) : Nat → Nat → Nat → Option (Nat × Nat)
  | 0, s, variantCount => some (s, variantCount)
  | n + 1, s, variantCount =>
    let word := loadWord block s
    if startBytes word ≠ c2C3StartBytes word then none
    else
      let count := (((startBytes word >>> 7) * 0x0101010101010101) >>> 56).toNat
      if s + 16 ≤ send then checkWords block send n (s + 8) (variantCount + count)
      else some (s + 8, variantCount + count)

def firstPass (address : Nat) (block : List U8) (len firstVariant : Nat) : Option Nat :=
  match worthPerWordLoop address firstVariant len 5 with
  | none => checkBytes block len len len firstVariant 0
  | some perByteEnd => do
    let variantCount ← checkBytes block len perByteEnd perByteEnd firstVariant 0
    let (s, variantCount) ← checkWords block len len perByteEnd variantCount
    -- A character that straddles the last word is looked at again.
    if firstVariant < s ∧ isStart (byteAt block (s - 1)) then
      checkBytes block len len len (s - 1) (variantCount - 1)
    else checkBytes block len len len s variantCount

/-- What the second pass leaves: the destination, and where it stands. -/
inductive Converted where
  | done (dst : List U8) (d : Nat)
  | cantConvert (dst : List U8) (s d : Nat)

def convert (overwrite : Bool) (src : List U8) (send : Nat) :
    Nat → List U8 → Nat → Nat → Converted
  | 0, dst, _, d => .done dst d
  | n + 1, dst, s, d =>
    if s < send then
      let c := byteAt (if overwrite then dst else src) s
      let next := byteAt (if overwrite then dst else src) (s + 1)
      if isInvariant c then convert overwrite src send n (dst.set d c) (s + 1) (d + 1)
      else if isContinuation c ∨ send ≤ s + 1 ∨ ¬ isContinuation next then
        .cantConvert dst (s + 1) d
      else
        convert overwrite src send n (dst.set d (eightBitUtf8ToNative c next)) (s + 2) (d + 1)
    else .done dst d

def byteAtInt (block : List U8) (i : Int) : U8 := if i < 0 then 0 else byteAt block i.toNat

def setInt (block : List U8) (i : Int) (c : U8) : List U8 :=
  if i < 0 then block else block.set i.toNat c

def moveBack (block : List U8) (d : Nat) : Nat → Int → Int → Int × Int
  | 0, s, s1 => (s, s1)
  | n + 1, s, s1 =>
    if d ≤ s then
      moveBack block d n (if isInvariant (byteAtInt block s1) then s - 1 else s - 2) (s1 - 1)
    else (s, s1)

def changeBack (firstVariant : Nat) : Nat → List U8 → Int → Int → List U8
  | 0, block, _, _ => block
  | n + 1, block, s, s1 =>
    if firstVariant ≤ s1 then
      let c := byteAtInt block s1
      if isInvariant c then changeBack firstVariant n (setInt block s c) (s - 1) (s1 - 1)
      else
        let block := setInt block s (eightBitLo c)
        let block := setInt block (s - 1) (eightBitHi (byteAtInt block s1))
        changeBack firstVariant n block (s - 2) (s1 - 1)
    else block

inductive ResultAs where
  | overwrite
  | newMemory
  | useTemporary
deriving DecidableEq

/-- What a call leaves: the block of the string, the new block that the string has moved to, its
length, and who frees the new block. -/
structure Outcome where
  converted : Bool
  input : List U8
  moved : Option (List U8)
  length : Nat
  freeMe : Bool
  saveFree : Bool
deriving DecidableEq

/-- The block that the string is in. -/
def Outcome.memory (r : Outcome) : List U8 := r.moved.getD r.input

/-- `utf8_to_bytes_`; a new block holds junk before it is written. -/
def utf8ToBytes (resultAs : ResultAs) (junk : U8) (address : Nat) (block : List U8) (len : Nat) :
    Outcome :=
  match isUtf8InvariantStringLoc address block len with
  | none => ⟨true, block, none, len, false, false⟩
  | some firstVariant =>
    match firstPass address block len firstVariant with
    | none => ⟨false, block, none, len, false, false⟩
    | some variantCount =>
      if resultAs = .overwrite then
        match convert true block len len block firstVariant firstVariant with
        | .done dst d => ⟨true, dst.set d 0, none, d, false, false⟩
        | .cantConvert dst s d =>
          let (s, s1) := moveBack dst d (s + 1) s d
          ⟨false, changeBack firstVariant (len + 1) dst s s1, none, len, false, false⟩
      else
        let new := List.replicate (len + 1 - variantCount) junk
        let d0 := block.take firstVariant ++ new.drop firstVariant
        match convert false block len len d0 firstVariant firstVariant with
        | .done dst d =>
          ⟨true, block, some (dst.set d 0), d, resultAs = .newMemory, resultAs = .useTemporary⟩
        | .cantConvert _ _ _ => ⟨false, block, none, len, false, false⟩

def appendUtf8FromNativeByte (byte : U8) (dst : List U8) (d : Nat) : List U8 × Nat :=
  if isInvariant byte then (dst.set d byte, d + 1)
  else ((dst.set d (eightBitHi byte)).set (d + 1) (eightBitLo byte), d + 2)

def upgradeLoop (block : List U8) (send : Nat) : Nat → Nat → List U8 → Nat → List U8 × Nat
  | 0, _, dst, d => (dst, d)
  | n + 1, s, dst, d =>
    if s < send then
      let (dst, d) := appendUtf8FromNativeByte (byteAt block s) dst d
      upgradeLoop block send n (s + 1) dst d
    else (dst, d)

/-- `bytes_to_utf8_free_me`: the new block, none where the input is returned, and the length. -/
def bytesToUtf8FreeMe (freeMe : Bool) (junk : U8) (address : Nat) (block : List U8) (len : Nat) :
    Option (List U8) × Nat :=
  let variantCount := variantUnderUtf8Count address block len
  if freeMe ∧ variantCount = 0 then (none, len)
  else
    let new := List.replicate (len + variantCount + 1) junk
    let (dst, d) := upgradeLoop block len len 0 new 0
    (some (dst.set d 0), d)

theorem topBit_eq (c : U8) : c &&& 0x80 = if !isInvariant c then 0x80 else 0 := by
  revert c
  decide

theorem topBits_loadWord (block : List U8) (x : Nat) :
    loadWord block x &&& 0x8080808080808080 =
      marks fun i => !isInvariant (byteAt block (x + i)) := by
  have htop : (0x8080808080808080 : BitVec 64) = ofBytes fun _ => 0x80 := by decide
  rw [htop, loadWord, ofBytes_and, marks, ofBytes_inj]
  intro i _
  exact topBit_eq _

variable {c : Nat → Bool} {block : List U8} {x e y z : Nat}

theorem marks_eq_zero_iff : marks c = 0 ↔ ∀ i < 8, c i = false := by
  have hzero : (0 : BitVec 64) = ofBytes fun _ => 0 := by decide
  rw [marks, hzero, ofBytes_inj]
  apply forall₂_congr
  intro i _
  cases c i <;> decide

theorem getLsbD_marks {k : Nat} (hk : k < 64) :
    (marks c).getLsbD k = (c (k / 8) && decide (k % 8 = 7)) := by
  have hlane := getLsbD_ofBytes (fun i => if c i then 0x80 else 0) (i := k / 8) (j := k % 8)
    (by omega) (by omega)
  rw [Nat.div_add_mod] at hlane
  rw [marks, hlane, getLsbD_mark _ (by omega)]

theorem lsbitPos_marks {i : Nat} (hi : i < 8) (hc : c i = true)
    (hfirst : ∀ j < i, c j = false) : lsbitPos (marks c) = 8 * i + 7 := by
  have hfind : (List.range 64).find? (fun k => (marks c).getLsbD k) = some (8 * i + 7) := by
    rw [List.find?_range_eq_some]
    refine ⟨?_, List.mem_range.2 (by omega), ?_⟩
    · rw [getLsbD_marks (by omega), show (8 * i + 7) / 8 = i by omega, hc]
      simp
    · intro k hk
      rw [getLsbD_marks (by omega)]
      by_cases htop : k % 8 = 7
      · rw [hfirst (k / 8) (by omega)]
        rfl
      · rw [decide_eq_false htop, Bool.and_false]
        rfl
  rw [lsbitPos, hfind]
  rfl

theorem variantByteNumber_loadWord {i : Nat} (hi : i < 8)
    (hvariant : isInvariant (byteAt block (x + i)) = false)
    (hfirst : ∀ j < i, isInvariant (byteAt block (x + j)) = true) :
    variantByteNumber (loadWord block x) = i := by
  rw [variantByteNumber, topBits_loadWord, lsbitPos_marks hi (by rw [hvariant]; rfl)]
  · rw [Nat.shiftRight_eq_div_pow]
    omega
  · intro j hj
    rw [hfirst j hj]
    rfl

theorem count_loadWord (c : Nat → Bool) :
    ((((marks c) >>> 7) * 0x0101010101010101) >>> 56).toNat = (List.range 8).countP c := by
  have hle : (List.range 8).countP c ≤ 8 := List.countP_le_length.trans (by decide)
  rw [count_marks, BitVec.toNat_ofNat, Nat.mod_eq_of_lt (by omega)]

theorem worthPerWordLoop_eq_some {address s n perByteEnd : Nat}
    (h : worthPerWordLoop address s e n = some perByteEnd) :
    s ≤ perByteEnd ∧ perByteEnd + n * 8 < e := by
  rw [worthPerWordLoop] at h
  split at h
  · cases h
    omega
  · cases h

def countOn (p : Nat → Bool) (x e : Nat) : Nat := (List.range' x (e - x)).countP p

theorem countOn_split (p : Nat → Bool) (hxy : x ≤ y) (hyz : y ≤ z) :
    countOn p x z = countOn p x y + countOn p y z := by
  have hrange : List.range' x (z - x) = List.range' x (y - x) ++ List.range' y (z - y) := by
    have happend : List.range' x (y - x) ++ List.range' (x + (y - x)) (z - y) =
        List.range' x ((y - x) + (z - y)) := List.range'_append_1
    rw [Nat.add_sub_cancel' hxy] at happend
    rw [happend]
    congr 1
    omega
  rw [countOn, hrange, List.countP_append]
  rfl

theorem countOn_self (p : Nat → Bool) (x : Nat) : countOn p x x = 0 := by
  rw [countOn, Nat.sub_self]
  rfl

theorem countOn_one (p : Nat → Bool) (x : Nat) : countOn p x (x + 1) = (p x).toNat := by
  rw [countOn, Nat.add_sub_cancel_left]
  cases hp : p x <;> simp [hp]

theorem countOn_word (p : Nat → Bool) (x : Nat) :
    (List.range 8).countP (fun i => p (x + i)) = countOn p x (x + 8) := by
  rw [countOn, Nat.add_sub_cancel_left, List.range'_eq_map_range, List.countP_map]
  rfl

def variantsOn (block : List U8) (x e : Nat) : Nat :=
  countOn (fun i => !isInvariant (byteAt block i)) x e

theorem variantsOn_split (block : List U8) (hxy : x ≤ y) (hyz : y ≤ z) :
    variantsOn block x z = variantsOn block x y + variantsOn block y z := countOn_split _ hxy hyz

theorem countByByte_eq (block : List U8) (e n x count : Nat) (h : e ≤ x + n) :
    countByByte block e n x count = count + variantsOn block x e := by
  induction n generalizing x count with
  | zero =>
    have hnone : e - x = 0 := Nat.sub_eq_zero_of_le h
    rw [countByByte, variantsOn, countOn, hnone]
    rfl
  | succ n ih =>
    rw [countByByte]
    by_cases hx : x < e
    · rw [if_pos hx, ih _ _ (by omega), variantsOn_split block (Nat.le_succ x) hx]
      rw [variantsOn, variantsOn, countOn_one]
      cases isInvariant (byteAt block x)
      · exact Nat.add_assoc _ _ _
      · exact congrArg _ (Nat.zero_add _).symm
    · rw [if_neg hx, variantsOn, countOn, Nat.sub_eq_zero_of_le (Nat.not_lt.1 hx)]
      rfl

theorem countByWord_eq (block : List U8) (e n x count : Nat) (hfuel : e ≤ x + n)
    (hx : x + 8 ≤ e) :
    x ≤ (countByWord block e n x count).1 ∧ (countByWord block e n x count).1 ≤ e ∧
      (countByWord block e n x count).2 =
        count + variantsOn block x (countByWord block e n x count).1 := by
  induction n generalizing x count with
  | zero => omega
  | succ n ih =>
    have hword : ((((loadWord block x &&& 0x8080808080808080) >>> 7) *
        0x0101010101010101) >>> 56).toNat = variantsOn block x (x + 8) := by
      rw [topBits_loadWord, count_loadWord]
      exact countOn_word (fun i => !isInvariant (byteAt block i)) x
    rw [countByWord, hword]
    by_cases hmore : x + 16 ≤ e
    · rw [if_pos hmore]
      obtain ⟨hle, he, hcount⟩ := ih (x + 8) (count + variantsOn block x (x + 8)) (by omega)
        (by omega)
      refine ⟨by omega, he, ?_⟩
      rw [hcount, variantsOn_split block (Nat.le_add_right x 8) hle, Nat.add_assoc]
    · rw [if_neg hmore]
      exact ⟨by omega, hx, rfl⟩

theorem variantUnderUtf8Count_eq (address : Nat) (block : List U8) (len : Nat) :
    variantUnderUtf8Count address block len = variantsOn block 0 len := by
  rw [variantUnderUtf8Count]
  cases hworth : worthPerWordLoop address 0 len 1 with
  | none =>
    dsimp only
    rw [countByByte_eq _ _ _ _ _ (by omega), Nat.zero_add]
  | some perByteEnd =>
    obtain ⟨-, hlong⟩ := worthPerWordLoop_eq_some hworth
    dsimp only
    rw [countByByte_eq block perByteEnd _ _ _ (by omega), Nat.zero_add]
    obtain ⟨hle, he, hcount⟩ := countByWord_eq block len len perByteEnd
      (variantsOn block 0 perByteEnd) (by omega) (by omega)
    rw [countByByte_eq _ _ _ _ _ (by omega), hcount, ← variantsOn_split block (Nat.zero_le _) hle,
      ← variantsOn_split block (Nat.zero_le _) he]

/-- A stretch of a block without a variant. -/
def InvariantOn (block : List U8) (x e : Nat) : Prop :=
  ∀ i, x ≤ i → i < e → isInvariant (byteAt block i) = true

def VariantAt (block : List U8) (x e v : Nat) : Prop :=
  x ≤ v ∧ v < e ∧ isInvariant (byteAt block v) = false ∧ InvariantOn block x v

theorem InvariantOn.append (h : InvariantOn block x y)
    (h' : InvariantOn block y z) : InvariantOn block x z := by
  intro i hx hz
  by_cases hi : i < y
  · exact h i hx hi
  · exact h' i (Nat.not_lt.1 hi) hz

theorem VariantAt.prepend {v : Nat} (h : InvariantOn block x y)
    (hle : x ≤ y) (h' : VariantAt block y e v) : VariantAt block x e v := by
  obtain ⟨hy, he, hvariant, hbefore⟩ := h'
  exact ⟨hle.trans hy, he, hvariant, h.append hbefore⟩

theorem VariantAt.mono {e' v : Nat} (h : VariantAt block x e v)
    (hle : e ≤ e') : VariantAt block x e' v := by
  obtain ⟨hx, he, hvariant, hbefore⟩ := h
  exact ⟨hx, he.trans_le hle, hvariant, hbefore⟩

/-- What a scan from one place to another finds. -/
def Scans (block : List U8) (x e : Nat) : Option Nat → Prop
  | none => InvariantOn block x e
  | some v => VariantAt block x e v

theorem variantByByte_scans (block : List U8) (e n x : Nat) (h : e ≤ x + n) :
    Scans block x e (variantByByte block e n x) := by
  induction n generalizing x with
  | zero =>
    intro i hx hi
    omega
  | succ n ih =>
    rw [variantByByte]
    by_cases hx : x < e
    · rw [if_pos hx]
      cases hc : isInvariant (byteAt block x) with
      | false => exact ⟨Nat.le_refl x, hx, hc, fun i hx hi => by omega⟩
      | true =>
        have hone : InvariantOn block x (x + 1) := by
          intro i hx hi
          rw [Nat.le_antisymm (Nat.le_of_lt_succ hi) hx]
          exact hc
        rw [if_pos rfl]
        have hrest := ih (x + 1) (by omega)
        cases hv : variantByByte block e n (x + 1) with
        | none =>
          rw [hv] at hrest
          exact hone.append hrest
        | some v =>
          rw [hv] at hrest
          exact VariantAt.prepend hone (Nat.le_succ x) hrest
    · rw [if_neg hx]
      intro i hx hi
      omega

theorem variantByWord_scans (block : List U8) (send n x : Nat) (hfuel : send ≤ x + n)
    (hx : x + 8 ≤ send) :
    match variantByWord block send n x with
    | .found v => VariantAt block x send v
    | .upTo y => InvariantOn block x y ∧ x ≤ y ∧ y ≤ send := by
  induction n generalizing x with
  | zero => omega
  | succ n ih =>
    rw [variantByWord, topBits_loadWord]
    by_cases hword : marks (fun i => !isInvariant (byteAt block (x + i))) = 0
    · have hclean : InvariantOn block x (x + 8) := by
        intro i hxi hi
        have hlane := marks_eq_zero_iff.1 hword (i - x) (by omega)
        rw [Nat.add_sub_cancel' hxi, Bool.not_eq_false'] at hlane
        exact hlane
      rw [if_neg (not_not.2 hword)]
      by_cases hmore : x + 16 ≤ send
      · rw [if_pos hmore]
        have hrest := ih (x + 8) (by omega) (by omega)
        cases hscan : variantByWord block send n (x + 8) with
        | found v =>
          rw [hscan] at hrest
          exact VariantAt.prepend hclean (by omega) hrest
        | upTo y =>
          rw [hscan] at hrest
          exact ⟨hclean.append hrest.1, by omega, hrest.2.2⟩
      · rw [if_neg hmore]
        exact ⟨hclean, by omega, by omega⟩
    · rw [if_pos hword]
      have hscan := variantByByte_scans block (x + 8) 8 x (Nat.le_refl _)
      cases hv : variantByByte block (x + 8) 8 x with
      | none =>
        rw [hv] at hscan
        refine absurd (marks_eq_zero_iff.2 fun i hi => ?_) hword
        rw [hscan (x + i) (by omega) (by omega)]
        rfl
      | some v =>
        rw [hv] at hscan
        obtain ⟨hxv, hv8, hvariant, hbefore⟩ := hscan
        have hnumber : variantByteNumber (loadWord block x) = v - x := by
          apply variantByteNumber_loadWord (by omega)
          · rw [Nat.add_sub_cancel' hxv]
            exact hvariant
          · intro j hj
            exact hbefore (x + j) (by omega) (by omega)
        dsimp only
        rw [hnumber, Nat.add_sub_cancel' hxv]
        exact ⟨hxv, by omega, hvariant, hbefore⟩

theorem isUtf8InvariantStringLoc_scans (address : Nat) (block : List U8) (len : Nat) :
    Scans block 0 len (isUtf8InvariantStringLoc address block len) := by
  rw [isUtf8InvariantStringLoc]
  cases hworth : worthPerWordLoop address 0 len 1 with
  | none => exact variantByByte_scans block len len 0 (by omega)
  | some perByteEnd =>
    obtain ⟨-, hlong⟩ := worthPerWordLoop_eq_some hworth
    have hhead := variantByByte_scans block perByteEnd perByteEnd 0 (by omega)
    dsimp only
    cases hv : variantByByte block perByteEnd perByteEnd 0 with
    | some v =>
      rw [hv] at hhead
      exact VariantAt.mono hhead (by omega)
    | none =>
      rw [hv] at hhead
      have hwords := variantByWord_scans block len len perByteEnd (by omega) (by omega)
      dsimp only
      cases hscan : variantByWord block len len perByteEnd with
      | found v =>
        rw [hscan] at hwords
        exact VariantAt.prepend hhead (Nat.zero_le _) hwords
      | upTo x =>
        rw [hscan] at hwords
        obtain ⟨hclean, hle, -⟩ := hwords
        have htail := variantByByte_scans block len len x (by omega)
        dsimp only
        cases hrest : variantByByte block len len x with
        | none =>
          rw [hrest] at htail
          exact (InvariantOn.append hhead hclean).append htail
        | some v =>
          rw [hrest] at htail
          exact VariantAt.prepend (InvariantOn.append hhead hclean) (Nat.zero_le _) htail

end XPerl.Utf8
