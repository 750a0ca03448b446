import XPerl.Numeric.Arithmetic
import XPerl.Numeric.Exact

/-! The scanners of `numeric.c`: `grok_uint_by_base`, `grok_number_flags`, `grok_infnan`, `grok_atoUV`. -/

namespace XPerl.Numeric

variable {NV : Type}

/-- The bases, each with its class of digits. -/
inductive Base where
  | two
  | eight
  | ten
  | sixteen
  deriving DecidableEq, Repr

def Base.value : Base → UInt64
  | .two => 2
  | .eight => 8
  | .ten => 10
  | .sixteen => 16

def isDIGIT (c : UInt8) : Bool := 0x30 ≤ c && c ≤ 0x39

def isXDIGIT (c : UInt8) : Bool :=
  isDIGIT c || (0x41 ≤ c && c ≤ 0x46) || (0x61 ≤ c && c ≤ 0x66)

/-- `Perl_isCC_by_bit` with the bit of the base's digits. -/
def Base.isCC (b : Base) (c : UInt8) : Bool :=
  match b with
  | .two => c == 0x30 || c == 0x31
  | .eight => 0x30 ≤ c && c ≤ 0x37
  | .ten => isDIGIT c
  | .sixteen => isXDIGIT c

/-- `XDIGIT_VALUE`, without branches: nine more for the letters. -/
def xdigitValue (c : UInt8) : UInt64 :=
  ((((c &&& 0x40) >>> 3) ||| ((c &&& 0x40) >>> 6)) + (c &&& 0xF)).toUInt64

def underscore : UInt8 := 0x5F

/-- The bits of `PERL_SCAN_*`. -/
structure ScanFlags where
  allowUnderscores : Bool := false
  disallowPrefix : Bool := false
  greaterThanUVMax : Bool := false
  silentIlldigit : Bool := false
  trailing : Bool := false
  silentNonPortable : Bool := false
  notifyIlldigit : Bool := false
  silentOverflow : Bool := false
  allowMedialUnderscoresOnly : Bool := false
  discardInsteadOfOverflow : Bool := false
  deriving DecidableEq, Repr

def ScanFlags.underscores (flags : ScanFlags) : Bool :=
  flags.allowUnderscores || flags.allowMedialUnderscoresOnly

/-- What the scan gives back: the value, `*len_p`, `*flags`, and `*approximation` if it was set. -/
structure Scanned (NV : Type) where
  value : UInt64
  len : Nat
  flags : ScanFlags
  approximation : Option NV
  deriving DecidableEq, Repr

def uvMax : UInt64 := 0xFFFFFFFFFFFFFFFF

/-- `MULTIPLY_BY_BASE(accumulated) + XDIGIT_VALUE(*s)`; `none` is a sum that wraps around. -/
def Base.accumulate (b : Base) (accumulated : UInt64) (c : UInt8) : Option UInt64 :=
  if accumulated.toNat * b.value.toNat + (xdigitValue c).toNat < 2 ^ 64 then
    some (accumulated * b.value + xdigitValue c)
  else none

/-- `underscore_valid`: a legal digit comes after it. -/
def underscoreValid (b : Base) : List UInt8 → Bool
  | _ :: c :: _ => b.isCC c
  | _ => false

def unrolled (b : Base) : UInt64 → List UInt8 → Option (UInt64 × List UInt8)
  | accumulated, [] => some (accumulated, [])
  | accumulated, c :: s =>
    if b.isCC c then do
      let accumulated ← b.accumulate accumulated c
      unrolled b accumulated s
    else some (accumulated, c :: s)

/-- Where the switch and the treatment of a first underscore go on. -/
inductive Jump where
  | redoSwitch (s : List UInt8)
  | loop (accumulated : UInt64) (s : List UInt8)
  | doneParse (accumulated : UInt64) (s : List UInt8)
  | returned (accumulated : UInt64)
  deriving DecidableEq, Repr

def unexpected (b : Base) (flags : ScanFlags) (s0 : List UInt8) (accumulated : UInt64)
    (s : List UInt8) : Option Jump :=
  match s with
  | [] => some (.returned accumulated)
  | c :: rest =>
    if c != underscore || !flags.underscores then some (.doneParse accumulated s)
    else if s.length == s0.length && flags.allowMedialUnderscoresOnly then
      some (.doneParse accumulated s)
    else if !underscoreValid b s then some (.doneParse accumulated s)
    else if accumulated == 0 then some (.redoSwitch rest)
    else
      match rest with
      | [] => some (.doneParse accumulated s)
      | d :: rest => do
        let accumulated ← b.accumulate accumulated d
        return .loop accumulated rest

def switch (b : Base) (flags : ScanFlags) (s0 s : List UInt8) : Option Jump :=
  match s with
  | [] => some (.returned 0)
  | c :: rest =>
    if 8 < s.length then
      if c == 0x30 then some (.redoSwitch (rest.dropWhile (· == 0x30)))
      else if !b.isCC c then unexpected b flags s0 0 s
      else some (.loop (xdigitValue c) rest)
    else if s.length == 8 then
      if !b.isCC c then unexpected b flags s0 0 s
      else do
        let (accumulated, s) ← unrolled b (xdigitValue c) rest
        unexpected b flags s0 accumulated s
    else do
      let (accumulated, s) ← unrolled b 0 s
      unexpected b flags s0 accumulated s

/-- The switch until it does not start again; `none` is also the end of the fuel. -/
def switches (b : Base) (flags : ScanFlags) (s0 : List UInt8) : Nat → List UInt8 → Option Jump
  | 0, _ => none
  | fuel + 1, s => do
    match ← switch b flags s0 s with
    | .redoSwitch s => switches b flags s0 fuel s
    | jump => return jump

def base16MaxDiv : UInt64 := uvMax / 16

def Base.maxDiv : Base → UInt64
  | .sixteen => base16MaxDiv
  | .ten => uvMax / 10
  | .eight => uvMax >>> 3
  | .two => uvMax >>> 1

/-- `check_overflow`: the limit from now on, and whether the digit goes above it. -/
def checkOverflow (b : Base) (maxDiv accumulated : UInt64) (c : UInt8) : UInt64 × Bool :=
  if accumulated ≥ maxDiv then
    let maxDiv := if maxDiv == base16MaxDiv then b.maxDiv else maxDiv
    (maxDiv, accumulated ≥ maxDiv &&
      (accumulated > maxDiv || (b == .ten && xdigitValue c > uvMax - maxDiv * b.value)))
  else (maxDiv, false)

/-- How the parsing loop ends: at `done_parse`, or in front of the digit that overflows. -/
inductive LoopEnd where
  | done (accumulated : UInt64) (s : List UInt8)
  | overflowed (maxDiv accumulated : UInt64) (s : List UInt8)
  deriving DecidableEq, Repr

def parseLoop (b : Base) (allowUnderscores : Bool) : UInt64 → UInt64 → List UInt8 → Option LoopEnd
  | _, accumulated, [] => some (.done accumulated [])
  | maxDiv, accumulated, c :: s =>
    if b.isCC c then
      let (maxDiv, overflows) := checkOverflow b maxDiv accumulated c
      if overflows then some (.overflowed maxDiv accumulated (c :: s))
      else do
        let accumulated ← b.accumulate accumulated c
        parseLoop b allowUnderscores maxDiv accumulated s
    else if c == underscore && allowUnderscores && underscoreValid b (c :: s) then
      parseLoop b allowUnderscores maxDiv accumulated s
    else some (.done accumulated (c :: s))

/-- `to_round`. -/
inductive ToRound where
  | dontRound
  | yesRoundUp
  | roundToEvenIfHalf
  deriving DecidableEq, Repr

def firstRounding (b : Base) (accumulated : UInt64) (c : UInt8) : ToRound :=
  if accumulated < uvMax then
    if xdigitValue c < b.value / 2 then .dontRound
    else if xdigitValue c > b.value / 2 then .yesRoundUp
    else .roundToEvenIfHalf
  else .dontRound

def findEnd (b : Base) (allowUnderscores : Bool) : ToRound → List UInt8 → ToRound × List UInt8
  | toRound, [] => (toRound, [])
  | toRound, c :: s =>
    if b.isCC c || c == underscore then
      if c == underscore && !(allowUnderscores && underscoreValid b (c :: s)) then (toRound, c :: s)
      else if toRound == .roundToEvenIfHalf && c != 0x30 then findEnd b allowUnderscores .yesRoundUp s
      else findEnd b allowUnderscores toRound s
    else (toRound, c :: s)

def roundValue (accumulated : UInt64) (toRound : ToRound) : UInt64 :=
  if toRound == .yesRoundUp || (toRound == .roundToEvenIfHalf && accumulated % 2 == 1) then
    accumulated + 1
  else accumulated

/-- The running totals of the approximation. -/
structure Batches (NV : Type) where
  accumulatedNV : NV
  accumulatedFactor : NV
  thisBatchAccumulated : UInt64
  thisBatchFactor : UInt64

def Batches.flush (f : Floats NV) (batches : Batches NV) : Batches NV where
  accumulatedNV := f.add batches.accumulatedNV
    (f.mul (f.ofUV batches.thisBatchAccumulated) batches.accumulatedFactor)
  accumulatedFactor := f.mul batches.accumulatedFactor (f.ofUV batches.thisBatchFactor)
  thisBatchAccumulated := 0
  thisBatchFactor := 1

/-- One digit into the batch; `none` is a sum or a product that wraps around. -/
def Batches.push (b : Base) (batches : Batches NV) (c : UInt8) : Option (Batches NV) :=
  if batches.thisBatchAccumulated.toNat +
      (xdigitValue c).toNat * batches.thisBatchFactor.toNat < 2 ^ 64 ∧
      batches.thisBatchFactor.toNat * b.value.toNat < 2 ^ 64 then
    some { batches with
      thisBatchAccumulated := batches.thisBatchAccumulated +
        xdigitValue c * batches.thisBatchFactor
      thisBatchFactor := batches.thisBatchFactor * b.value }
  else none

def accumulateBack (b : Base) (f : Floats NV) (maxDiv : UInt64) :
    Batches NV → List UInt8 → Option (Batches NV)
  | batches, [] => some batches
  | batches, c :: t =>
    if c == underscore then accumulateBack b f maxDiv batches t
    else do
      let fits := batches.thisBatchAccumulated ≤ maxDiv && batches.thisBatchFactor ≤ maxDiv
      let batches ← (if fits then batches else batches.flush f).push b c
      accumulateBack b f maxDiv batches t

def approximate (b : Base) (f : Floats NV) (maxDiv highOrderBatch : UInt64) (text : List UInt8) :
    Option NV := do
  let batches ← accumulateBack b f maxDiv ⟨f.zero, f.ofUV 1, 0, 1⟩ text.reverse
  let batches := batches.flush f
  return f.add batches.accumulatedNV (f.mul (f.ofUV highOrderBatch) batches.accumulatedFactor)

/-- `finish`: the length and the flag for an illegal digit. -/
def finish (inputFlags : ScanFlags) (start : List UInt8) (value : UInt64) (flags : ScanFlags)
    (approximation : Option NV) (s : List UInt8) : Scanned NV :=
  let illegal := match s with
    | [] => false
    | c :: _ => c != 0
  ⟨value, start.length - s.length,
    { flags with notifyIlldigit := illegal && inputFlags.notifyIlldigit }, approximation⟩

def doneParse (inputFlags : ScanFlags) (start : List UInt8) (accumulated : UInt64)
    (s : List UInt8) : Scanned NV :=
  let flags : ScanFlags := { silentNonPortable := decide (accumulated > 0xffffffff) }
  finish inputFlags start accumulated flags none s

/-- `overflowed`; `s` starts with the first overflowing digit. -/
def overflowed (f : Floats NV) (b : Base) (inputFlags : ScanFlags) (approximation : Bool)
    (start : List UInt8) (maxDiv accumulated : UInt64) (s : List UInt8) : Option (Scanned NV) :=
  match s with
  | [] => none
  | c :: rest =>
    if inputFlags.discardInsteadOfOverflow then
      let flags : ScanFlags := { discardInsteadOfOverflow := true }
      let (toRound, s) := findEnd b inputFlags.underscores (firstRounding b accumulated c) rest
      some (finish inputFlags start (roundValue accumulated toRound) flags none s)
    else
      let flags : ScanFlags := {
        greaterThanUVMax := true
        silentNonPortable := true
        silentOverflow := inputFlags.silentOverflow }
      if approximation then do
        let s1 := s
        let (_, s) := findEnd b inputFlags.underscores .dontRound rest
        let nv ← approximate b f maxDiv accumulated (s1.take (s1.length - s.length))
        return finish inputFlags start uvMax flags (some nv) s
      else
        let (toRound, s) := findEnd b inputFlags.underscores (firstRounding b uvMax c) rest
        some (finish inputFlags start (roundValue uvMax toRound) flags none s)

def grokUintByBase (f : Floats NV) (b : Base) (inputFlags : ScanFlags) (approximation : Bool)
    (offset : Nat) (start : List UInt8) : Option (Scanned NV) := do
  let s := start.drop offset
  match ← switches b inputFlags s (s.length + 1) s with
  | .returned accumulated => return ⟨accumulated, start.length, {}, none⟩
  | .doneParse accumulated s => return doneParse inputFlags start accumulated s
  | .redoSwitch _ => none
  | .loop accumulated s =>
    match ← parseLoop b inputFlags.underscores base16MaxDiv accumulated s with
    | .done accumulated s => return doneParse inputFlags start accumulated s
    | .overflowed maxDiv accumulated s =>
      overflowed f b inputFlags approximation start maxDiv accumulated s

def isAlphaFoldEq (c letter : UInt8) : Bool := (c &&& 0xDF) == (letter &&& 0xDF)

def prefixOffset (inputFlags : ScanFlags) (letter : UInt8) (start : List UInt8) : Nat :=
  if inputFlags.disallowPrefix then 0
  else
    match start with
    | c :: d :: rest =>
      if isAlphaFoldEq c letter then 1
      else if !rest.isEmpty && c == 0x30 && isAlphaFoldEq d letter then 2
      else 0
    | _ => 0

/-- `grok_bin_hex`, for `base` 2 or 16 with the letter of its prefix. -/
def grokBinHex (f : Floats NV) (b : Base) (letter : UInt8) (inputFlags : ScanFlags)
    (approximation : Bool) (start : List UInt8) : Option (Scanned NV) :=
  grokUintByBase f b inputFlags approximation (prefixOffset inputFlags letter start) start

def grokBin (f : Floats NV) : ScanFlags → Bool → List UInt8 → Option (Scanned NV) :=
  grokBinHex f .two 0x62

def grokHex (f : Floats NV) : ScanFlags → Bool → List UInt8 → Option (Scanned NV) :=
  grokBinHex f .sixteen 0x78

def grokOct (f : Floats NV) (inputFlags : ScanFlags) (approximation : Bool)
    (start : List UInt8) : Option (Scanned NV) :=
  grokUintByBase f .eight { inputFlags with disallowPrefix := true } approximation 0 start

/-- The bits of `IS_NUMBER_*`. -/
structure NumberFlags where
  inUV : Bool := false
  greaterThanUVMax : Bool := false
  notInt : Bool := false
  neg : Bool := false
  infinity : Bool := false
  nan : Bool := false
  trailing : Bool := false
  deriving DecidableEq, Repr

def NumberFlags.or (a b : NumberFlags) : NumberFlags where
  inUV := a.inUV || b.inUV
  greaterThanUVMax := a.greaterThanUVMax || b.greaterThanUVMax
  notInt := a.notInt || b.notInt
  neg := a.neg || b.neg
  infinity := a.infinity || b.infinity
  nan := a.nan || b.nan
  trailing := a.trailing || b.trailing

def isSPACE (c : UInt8) : Bool := c == 0x20 || (0x09 ≤ c && c ≤ 0x0D)

/-- `*s`, which is the NUL behind the string at its end. -/
def peek (s : List UInt8) : UInt8 := s.headD 0

/-- The character at `s` is the letter in either case; `s < send` included. -/
def atLetter (s : List UInt8) (letter : UInt8) : Bool :=
  match s with
  | [] => false
  | c :: _ => isAlphaFoldEq c letter

/-- `grok_numeric_radix`: the text behind a point. -/
def grokNumericRadix (s : List UInt8) : Option (List UInt8) :=
  match s with
  | [] => none
  | c :: rest => if c == 0x2E then some rest else none

/-- The words of `grok_infnan`. -/
inductive Word where
  | inf
  | ind
  | nan
  deriving DecidableEq, Repr

def stepOn (s : List UInt8) : Option (List UInt8) := if s.tail.isEmpty then none else some s.tail

def infnanSign (s : List UInt8) : Option (Bool × List UInt8) :=
  if peek s == 0x2B then (stepOn s).map (false, ·)
  else if peek s == 0x2D then (stepOn s).map (true, ·)
  else some (false, s)

def infnanHash (s : List UInt8) : Option (Bool × List UInt8) :=
  if peek s == 0x31 then do
    let s ← stepOn s
    let s ← if peek s == 0x2E then stepOn s else some s
    if peek s == 0x23 then (stepOn s).map (true, ·) else none
  else some (false, s)

/-- INF, IND, or NAN with an S or Q before it; and the text behind the word. -/
def infnanWord (odh : Bool) (s : List UInt8) : Option (Word × List UInt8) :=
  if isAlphaFoldEq (peek s) 0x49 then
    let s := s.tail
    if !atLetter s 0x4E then none
    else do
      let s ← stepOn s
      if atLetter s 0x46 then some (.inf, s.tail)
      else if atLetter s 0x44 && odh then some (.ind, s.tail)
      else none
  else do
    let s ← if isAlphaFoldEq (peek s) 0x53 || isAlphaFoldEq (peek s) 0x51 then stepOn s else some s
    if !isAlphaFoldEq (peek s) 0x4E then none
    else
      let s := s.tail
      if !atLetter s 0x41 then none
      else
        let s := s.tail
        if !atLetter s 0x4E then none else some (.nan, s.tail)

def okCheckSpace (flags : NumberFlags) (s : List UInt8) : NumberFlags × List UInt8 :=
  let s := s.dropWhile isSPACE
  ({ flags with trailing := flags.trailing || !s.isEmpty }, s)

/-- The letters one after the other; `none` where one is missing. -/
def letters : List UInt8 → List UInt8 → Option (List UInt8)
  | [], s => some s
  | letter :: rest, s => if atLetter s letter then letters rest s.tail else none

/-- Behind INF: an INITY, or the zeros of 1.#INF00. -/
def afterInf (odh : Bool) (flags : NumberFlags) (s : List UInt8) : NumberFlags × List UInt8 :=
  if atLetter s 0x49 then
    match letters [0x4E, 0x49, 0x54, 0x59] s.tail with
    | some s => okCheckSpace flags s
    | none => ({ flags with trailing := true }, s)
  else if odh then okCheckSpace flags (s.dropWhile (· == 0x30))
  else okCheckSpace flags s

/-- The number in parentheses: its flags, and the text behind it. `number` is
`grok_number_flags` with `PERL_SCAN_TRAILING`. -/
def infnanPayload (number : List UInt8 → Option NumberFlags) (content : List UInt8) :
    Option (NumberFlags × List UInt8) :=
  let ofScan (scanned : Scanned Unit) : NumberFlags × List UInt8 :=
    ({ inUV := !scanned.flags.greaterThanUVMax }, content.drop scanned.len)
  match content with
  | [] => (number content).map (·, content)
  | c :: rest =>
    let second := peek rest
    let third := peek rest.tail
    if c == 0x30 && 2 < content.length && isAlphaFoldEq second 0x78 && isXDIGIT third then
      (grokHex noFloats { allowUnderscores := true } false content).map ofScan
    else if c == 0x30 && 2 < content.length && isAlphaFoldEq second 0x62 &&
        (third == 0x30 || third == 0x31) then
      (grokBin noFloats { allowUnderscores := true } false content).map ofScan
    else (number content).map (·, content.dropWhile isDIGIT)

/-- Behind NAN: a Q or an S, then a payload in parentheses. -/
def afterNan (number : List UInt8 → Option NumberFlags) (flags : NumberFlags) (s : List UInt8) :
    Option (NumberFlags × List UInt8) :=
  if s.isEmpty then some (flags, s)
  else
    let quiet := isAlphaFoldEq (peek s) 0x71 || isAlphaFoldEq (peek s) 0x73
    let s := if quiet then s.tail else s
    if quiet && s.isEmpty then some (flags, s)
    else if peek s == 0x28 then
      let trail := ({ flags with trailing := true }, s)
      match s.tail with
      | [] => some trail
      | c :: rest =>
        -- up to the parenthesis, which is not looked for at the first character
        let content := c :: rest.takeWhile fun t => t != 0 && t != 0x29
        match rest.dropWhile fun t => t != 0 && t != 0x29 with
        | [] => some trail
        | t :: behind =>
          if t == 0x29 then do
            let (nantype, s) ← infnanPayload number content
            if nantype.notInt || !nantype.inUV then return trail
            else if !(s.dropWhile isSPACE).isEmpty then return trail
            else return okCheckSpace flags behind
          else some trail
    else some (okCheckSpace flags s)

/-- The flags and `*sp`; `none` is an accumulation of a payload that wraps around. -/
def grokInfnan (number : List UInt8 → Option NumberFlags) (sp : List UInt8) :
    Option (NumberFlags × List UInt8) :=
  if sp.isEmpty then some ({}, sp)
  else
    let word := do
      let (neg, s) ← infnanSign sp
      let (odh, s) ← infnanHash s
      let (word, s) ← infnanWord odh s
      return (neg, odh, word, s)
    match word with
    | none => some ({}, sp)
    | some (neg, odh, word, s) =>
      match word with
      | .inf => some (afterInf odh { neg, infinity := true, notInt := true } s)
      | .ind => some (okCheckSpace { neg, nan := true, notInt := true } (s.dropWhile (· == 0x30)))
      | .nan => afterNan number { neg, nan := true, notInt := true } s

/-- The string "0 but true". -/
def zeroButTrue : List UInt8 := [0x30, 0x20, 0x62, 0x75, 0x74, 0x20, 0x74, 0x72, 0x75, 0x65]

/-- A stage of `grok_number_flags`: it returns, or goes on at `s`. The value is what was stored
through `valuep`. -/
inductive Stage where
  | returns (numtype : NumberFlags) (value : Option UInt64)
  | goes (numtype : NumberFlags) (value : Option UInt64) (s : List UInt8)
  deriving DecidableEq, Repr

/-- The white space and the sign in front; `none` is `return 0`. -/
def grokStart (pv : List UInt8) : Option (Bool × List UInt8) :=
  let s := pv.dropWhile isSPACE
  if isSPACE (peek pv) && s.isEmpty then none
  else if (peek s) &&& 0xF9 == 0x29 then
    if peek s == 0x2D then (stepOn s).map (true, ·)
    else if peek s == 0x2B then (stepOn s).map (false, ·)
    else some (false, s)
  else some (false, s)

def grokPoint (numtype : NumberFlags) (value : Option UInt64) (s : List UInt8) : Stage :=
  match grokNumericRadix s with
  | some s => .goes { numtype with notInt := true } value (s.dropWhile isDIGIT)
  | none => .goes numtype value s

/-- The digits and the point; `none` is an accumulation that wraps around. -/
def grokDigits (numtype : NumberFlags) (s : List UInt8) : Option Stage :=
  if isDIGIT (peek s) then do
    let scanned ← grokUintByBase noFloats .ten
      { silentIlldigit := true, silentNonPortable := true, discardInsteadOfOverflow := true }
      false 0 s
    let s := s.drop scanned.len
    let discarded := scanned.flags.discardInsteadOfOverflow
    let numtype := if discarded then { numtype with greaterThanUVMax := true }
      else { numtype with inUV := true }
    let value := if discarded then none else some scanned.value
    if !discarded && s.isEmpty then return .returns numtype value
    else return grokPoint numtype value s
  else
    match grokNumericRadix s with
    | some s =>
      if isDIGIT (peek s) then
        return .goes { numtype with notInt := true, inUV := true } (some 0) (s.dropWhile isDIGIT)
      else return .returns {} none
    | none => return .goes numtype none s

def grokExponent (trailing : Bool) (d : List UInt8) (numtype : NumberFlags)
    (value : Option UInt64) (s : List UInt8) : Stage :=
  if s.length < d.length && atLetter s 0x65 then
    let s := s.tail
    let s := if peek s == 0x2D || peek s == 0x2B then s.tail else s
    if isDIGIT (peek s) then
      .goes { neg := numtype.neg, notInt := true } value (s.dropWhile isDIGIT)
    else if trailing then .returns { numtype with trailing := true } value
    else .returns {} value
  else .goes numtype value s

def startsInfnan (c : UInt8) : Bool :=
  isAlphaFoldEq c 0x49 || isAlphaFoldEq c 0x4E || isAlphaFoldEq c 0x51 || isAlphaFoldEq c 0x53 ||
    c == 0x23

/-- The white space behind, `end_space` and infinity or NaN. -/
def grokEnd (number : List UInt8 → Option NumberFlags) (trailing : Bool) (pv d : List UInt8)
    (numtype : NumberFlags) (value : Option UInt64) (s : List UInt8) :
    Option (NumberFlags × Option UInt64) :=
  let s := s.dropWhile isSPACE
  if s.isEmpty then some (numtype, value)
  else if pv == zeroButTrue then some ({ inUV := true }, some 0)
  else if 2 < s.length && startsInfnan (peek s) then do
    let (infnan, _) ← grokInfnan number d
    if infnan.trailing && !trailing then return ({}, value)
    else if infnan.infinity then return (numtype.or infnan, value)
    else if infnan.nan then return ({ numtype.or infnan with neg := false }, value)
    else return ({}, value)
  else if trailing then some ({ numtype with trailing := true }, value)
  else some ({}, value)

/-- `grok_number_flags` with fuel for the payloads of NaNs. -/
def grokNumberFuel : Nat → Bool → List UInt8 → Option (NumberFlags × Option UInt64)
  | 0, _, _ => none
  | fuel + 1, trailing, pv =>
    match grokStart pv with
    | none => some ({}, none)
    | some (neg, d) => do
      match ← grokDigits { neg } d with
      | .returns numtype value => return (numtype, value)
      | .goes numtype value s =>
        match grokExponent trailing d numtype value s with
        | .returns numtype value => return (numtype, value)
        | .goes numtype value s =>
          grokEnd (fun content => (grokNumberFuel fuel true content).map Prod.fst) trailing pv d
            numtype value s

/-- The numeric type and what is stored through `valuep`; `none` is an accumulation that wraps
around. `trailing` is the flag `PERL_SCAN_TRAILING`. -/
def grokNumberFlags (trailing : Bool) (pv : List UInt8) :
    Option (NumberFlags × Option UInt64) :=
  grokNumberFuel (pv.length + 1) trailing pv

def uvMaxDiv10 : UInt64 := uvMax / 10

def uvMaxMod10 : UInt8 := (uvMax % 10).toUInt8

/-- The digits behind the first one; `none` is `return FALSE`. -/
def atoUVLoop : UInt64 → List UInt8 → Option (UInt64 × List UInt8)
  | val, [] => some (val, [])
  | val, c :: s =>
    if isDIGIT c then
      let digit := c - 0x30
      if val < uvMaxDiv10 || (val == uvMaxDiv10 && digit ≤ uvMaxMod10) then
        atoUVLoop (val * 10 + digit.toUInt64) s
      else none
    else some (val, c :: s)

/-- The value and `*endptr`; `none` is FALSE. With `endptr` the text `pv` ends there, without it
`pv` ends with its first NUL. -/
def grokAtoUV (endptr : Bool) (pv : List UInt8) : Option (UInt64 × List UInt8) :=
  match pv with
  | [] => none
  | c :: s =>
    if !isDIGIT c then none
    else do
      let val := (c - 0x30).toUInt64
      let (val, s) ←
        if isDIGIT (peek s) then (if val == 0 then none else atoUVLoop val s) else some (val, s)
      if !endptr && !s.isEmpty then none else some (val, s)

end XPerl.Numeric
