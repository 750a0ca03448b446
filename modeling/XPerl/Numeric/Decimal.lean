import XPerl.Numeric.Discarding
import XPerl.Numeric.Scan
import XPerl.Numeric.Scanning

/-! The texts of numbers, and the three parsers of decimal integers, which agree. -/

namespace XPerl.Numeric

open XPerl.Framework XPerl.Framework.Separated

/-- White space, which may be none. -/
def Spaces (t : List UInt8) : Prop := ∀ c ∈ t, isSPACE c = true

def Digits (t : List UInt8) : Prop := ∀ c ∈ t, isDIGIT c = true

def Zeros (t : List UInt8) : Prop := ∀ c ∈ t, c = 0x30

def Spells (letters t : List UInt8) : Prop :=
  List.Forall₂ (fun letter c => isAlphaFoldEq c letter = true) letters t

inductive Sign where
  | none
  | plus
  | minus
  deriving DecidableEq, Repr

def Sign.text : Sign → List UInt8
  | .none => []
  | .plus => [0x2B]
  | .minus => [0x2D]

def Sign.neg (sign : Sign) : Bool := sign == .minus

/-- The letter e, an optional sign and digits. -/
structure Exponent where
  letter : UInt8
  sign : Sign
  digits : List UInt8
  isE : isAlphaFoldEq letter 0x65 = true
  areDigits : Digits digits
  nonempty : digits ≠ []

def Exponent.text (e : Exponent) : List UInt8 := e.letter :: (e.sign.text ++ e.digits)

/-- Digits, an optional point with digits behind it, and an optional exponent; a digit is in front
of the point or behind it. -/
structure Number where
  whole : List UInt8
  fraction : Option (List UInt8)
  exponent : Option Exponent
  wholeDigits : Digits whole
  fractionDigits : ∀ ds, fraction = some ds → Digits ds
  someDigit : whole ≠ [] ∨ ∃ ds, fraction = some ds ∧ ds ≠ []

def pointText : Option (List UInt8) → List UInt8
  | none => []
  | some ds => 0x2E :: ds

def exponentText : Option Exponent → List UInt8
  | none => []
  | some e => e.text

def Number.text (n : Number) : List UInt8 :=
  n.whole ++ (pointText n.fraction ++ exponentText n.exponent)

def Number.fits (n : Number) : Bool := numberValue .ten n.whole < 2 ^ 64

/-- The type of a number: NOT_INT for a point or an exponent, and without an exponent what the
integer part is. -/
def Number.numtype (n : Number) (neg : Bool) : NumberFlags where
  neg
  notInt := n.fraction.isSome || n.exponent.isSome
  inUV := n.exponent.isNone && n.fits
  greaterThanUVMax := n.exponent.isNone && !n.fits

/-- The integer part where it fits. -/
def Number.value (n : Number) : Option UInt64 :=
  if n.fits then some (UInt64.ofNat (numberValue .ten n.whole)) else none

/-- The number does not go on in the text behind it. -/
structure Number.Stops (n : Number) (behind : List UInt8) : Prop where
  digit : isDIGIT (peek behind) = false
  point : n.fraction = none → n.exponent = none → peek behind ≠ 0x2E
  exponent : n.exponent = none → ∀ (e : Exponent) rest, behind ≠ e.text ++ rest

/-- White space, a sign, the number, and white space. -/
def IsNumberText (pv : List UInt8) (sign : Sign) (n : Number) : Prop :=
  ∃ before behind, Spaces before ∧ Spaces behind ∧
    pv = before ++ (sign.text ++ (n.text ++ behind))

/-- Visual C's 1# and 1.#, or nothing. -/
inductive Hash where
  | without
  | short
  | long
  deriving DecidableEq, Repr

def Hash.text : Hash → List UInt8
  | .without => []
  | .short => [0x31, 0x23]
  | .long => [0x31, 0x2E, 0x23]

def Hash.odh (hash : Hash) : Bool := hash != .without

/-- INF, NAN, SNAN, QNAN, and behind a hash IND. -/
inductive Spelling (odh : Bool) : Word → List UInt8 → Prop where
  | inf {t : List UInt8} : Spells [0x49, 0x4E, 0x46] t → Spelling odh .inf t
  | ind {t : List UInt8} : odh = true → Spells [0x49, 0x4E, 0x44] t → Spelling odh .ind t
  | nan {t : List UInt8} : Spells [0x4E, 0x41, 0x4E] t → Spelling odh .nan t
  | snan {t : List UInt8} : Spells [0x53, 0x4E, 0x41, 0x4E] t → Spelling odh .nan t
  | qnan {t : List UInt8} : Spells [0x51, 0x4E, 0x41, 0x4E] t → Spelling odh .nan t

/-- The number in the parentheses of a NaN: decimal, or in hexadecimal or binary digits, which
underscores may separate. It fits in a UV. -/
inductive Payload : List UInt8 → Prop where
  | decimal {ds : List UInt8} : Digits ds → ds ≠ [] → numberValue .ten ds < 2 ^ 64 → Payload ds
  | hex {x d : UInt8} {ds : List UInt8} : isAlphaFoldEq x 0x78 = true →
      Base.sixteen.isCC d = true → IsNumber .sixteen { allowUnderscores := true } (d :: ds) →
      numberValue .sixteen (d :: ds) < 2 ^ 64 → Payload (0x30 :: x :: d :: ds)
  | bin {b d : UInt8} {ds : List UInt8} : isAlphaFoldEq b 0x62 = true →
      Base.two.isCC d = true → IsNumber .two { allowUnderscores := true } (d :: ds) →
      numberValue .two (d :: ds) < 2 ^ 64 → Payload (0x30 :: b :: d :: ds)

def Quiet (t : List UInt8) : Prop := t = [] ∨ Spells [0x71] t ∨ Spells [0x73] t

/-- What belongs to the word behind it. -/
inductive Suffix (odh : Bool) : Word → List UInt8 → Prop where
  | inf : Suffix odh .inf []
  | inity {t : List UInt8} : Spells [0x49, 0x4E, 0x49, 0x54, 0x59] t → Suffix odh .inf t
  | infZeros {t : List UInt8} : odh = true → Zeros t → Suffix odh .inf t
  | indZeros {t : List UInt8} : Zeros t → Suffix odh .ind t
  | quiet {t : List UInt8} : Quiet t → Suffix odh .nan t
  | payload {t p spaces : List UInt8} : Quiet t → Payload p → Spaces spaces →
      Suffix odh .nan (t ++ 0x28 :: (p ++ (spaces ++ [0x29])))

/-- A suffix and white space, and nothing else. -/
def Ends (odh : Bool) (word : Word) (s : List UInt8) : Prop :=
  ∃ suffix behind, Suffix odh word suffix ∧ Spaces behind ∧ s = suffix ++ behind

/-- White space, a sign and the word, with `rest` behind it. -/
def IsWordText (pv : List UInt8) (sign : Sign) (hash : Hash) (word : Word)
    (rest : List UInt8) : Prop :=
  ∃ before t, Spaces before ∧ Spelling hash.odh word t ∧
    pv = before ++ (sign.text ++ (hash.text ++ (t ++ rest)))

/-- The bits of an infinity or a NaN. The sign of a NaN is not kept. -/
structure IsInfNan (sign : Sign) (word : Word) (trailing : Bool) (numtype : NumberFlags) :
    Prop where
  infinity : numtype.infinity = (word == .inf)
  nan : numtype.nan = (word != .inf)
  notInt : numtype.notInt = true
  neg : numtype.neg = (sign.neg && word == .inf)
  greaterThanUVMax : numtype.greaterThanUVMax = false
  trailing : numtype.trailing = trailing

/-- What `grok_number` is for. -/
inductive Accepted (pv : List UInt8) : Prop where
  | number (sign : Sign) (n : Number) : IsNumberText pv sign n → Accepted pv
  | infnan (sign : Sign) (hash : Hash) (word : Word) (rest : List UInt8) :
      IsWordText pv sign hash word rest → Ends hash.odh word rest → Accepted pv
  | zeroButTrue : pv = zeroButTrue → Accepted pv

/-- A minus sign with nothing but white space around it, and some behind it. -/
def LoneMinus (pv : List UInt8) : Prop :=
  ∃ before behind, Spaces before ∧ Spaces behind ∧ behind ≠ [] ∧ pv = before ++ 0x2D :: behind

variable {NV : Type} {t : List UInt8}

theorem digit_value {c : UInt8} (h : isDIGIT c = true) : (c - 0x30).toUInt64 = xdigitValue c := by
  have hall : ∀ c : UInt8, (!isDIGIT c || (c - 0x30).toUInt64 == xdigitValue c) = true :=
    forall_byte (by decide +kernel)
  simpa [h] using hall c

theorem atoUV_fits (val : UInt64) {c : UInt8} (h : isDIGIT c = true) :
    (val < uvMaxDiv10 || (val == uvMaxDiv10 && c - 0x30 ≤ uvMaxMod10)) = true ↔
      val.toNat * 10 + (xdigitValue c).toNat < 2 ^ 64 := by
  have hworth := worth_lt .ten c h
  have hbase : Base.ten.value.toNat = 10 := rfl
  have hdiv : uvMaxDiv10.toNat = 1844674407370955161 := rfl
  have hmod : uvMaxMod10.toNat = 5 := rfl
  have hcast : (c - 0x30).toNat = (xdigitValue c).toNat := by
    rw [← digit_value h, UInt8.toNat_toUInt64]
  rw [hbase] at hworth
  simp only [Bool.or_eq_true, Bool.and_eq_true, decide_eq_true_eq, beq_iff_eq,
    UInt64.lt_iff_toNat_lt, UInt8.le_iff_toNat_le, ← UInt64.toNat_inj]
  omega

theorem atoUVLoop_spec (val : UInt64) {s : List UInt8} (hs : ∀ c ∈ s, isDIGIT c = true) :
    if (Base.ten.script true).read val.toNat s < 2 ^ 64 then
      ∃ v, atoUVLoop val s = some (v, []) ∧ v.toNat = (Base.ten.script true).read val.toNat s
    else atoUVLoop val s = none := by
  induction s generalizing val with
  | nil =>
    rw [read_nil, if_pos val.toNat_lt]
    exact ⟨val, rfl, rfl⟩
  | cons c s ih =>
    have hc : isDIGIT c = true := hs c List.mem_cons_self
    have hdigit : (Base.ten.script true).digit c = true := hc
    have hrest := ih (val * 10 + (c - 0x30).toUInt64) fun d hd =>
      hs d (List.mem_cons_of_mem c hd)
    have hfits := atoUV_fits val hc
    have hstep : (Base.ten.script true).read val.toNat (c :: s) =
        (Base.ten.script true).read (val.toNat * 10 + (xdigitValue c).toNat) s :=
      read_cons_digit hdigit
    rw [hstep]
    unfold atoUVLoop
    dsimp only
    rw [if_pos hc]
    by_cases hlt : val.toNat * 10 + (xdigitValue c).toNat < 2 ^ 64
    · have hnext : (val * 10 + (c - 0x30).toUInt64).toNat =
          val.toNat * 10 + (xdigitValue c).toNat := by
        have hten : (10 : UInt64).toNat = 10 := rfl
        rw [digit_value hc, UInt64.toNat_add, UInt64.toNat_mul, hten]
        omega
      rw [if_pos (hfits.2 hlt)]
      rwa [hnext] at hrest
    · have hle : val.toNat * 10 + (xdigitValue c).toNat ≤ (Base.ten.script true).read
          (val.toNat * 10 + (xdigitValue c).toNat) s := le_read (by decide)
      rw [if_neg (fun h => hlt (hfits.1 h)), if_neg (by omega)]

/-- A string of digits without a leading zero, or the digit zero. -/
structure IsDecimal (t : List UInt8) : Prop where
  digits : ∀ c ∈ t, isDIGIT c = true
  lead : t = [0x30] ∨ ∃ c rest, t = c :: rest ∧ c ≠ 0x30

theorem IsDecimal.cons (ht : IsDecimal t) :
    ∃ c s, t = c :: s ∧ isDIGIT c = true ∧ (∀ d ∈ s, isDIGIT d = true) ∧ (c = 0x30 → s = []) := by
  rcases ht.lead with rfl | ⟨c, s, rfl, hc⟩
  · exact ⟨0x30, [], rfl, rfl, by simp, fun _ => rfl⟩
  · exact ⟨c, s, rfl, ht.digits c List.mem_cons_self,
      fun d hd => ht.digits d (List.mem_cons_of_mem c hd), fun h => absurd h hc⟩

theorem numberValue_cons {c : UInt8} {s : List UInt8} (hc : isDIGIT c = true) :
    numberValue .ten (c :: s) = (Base.ten.script true).read (c - 0x30).toUInt64.toNat s := by
  have hdigit : (Base.ten.script true).digit c = true := hc
  rw [numberValue, read_cons_digit hdigit, Nat.zero_mul, Nat.zero_add, digit_value hc]
  rfl

theorem grokAtoUV_spec (endptr : Bool) (ht : IsDecimal t) :
    if numberValue .ten t < 2 ^ 64 then
      ∃ v, grokAtoUV endptr t = some (v, []) ∧ v.toNat = numberValue .ten t
    else grokAtoUV endptr t = none := by
  obtain ⟨c, s, rfl, hc, hs, hzero⟩ := ht.cons
  rw [numberValue_cons hc]
  generalize hval : (c - 0x30).toUInt64 = val
  have hloop := atoUVLoop_spec val hs
  have hrun : grokAtoUV endptr (c :: s) =
      (atoUVLoop val s).bind fun r => if !endptr && !r.2.isEmpty then none else some r := by
    cases s with
    | nil =>
      have hnul : isDIGIT 0 = false := rfl
      simp [grokAtoUV, hc, hval, peek, hnul, atoUVLoop]
    | cons d s =>
      have hd : isDIGIT d = true := hs d List.mem_cons_self
      have hne : val ≠ 0 := by
        rintro rfl
        have hall : ∀ c : UInt8, (!(isDIGIT c && (c - 0x30).toUInt64 == 0) || c == 0x30) = true :=
          forall_byte (by decide +kernel)
        have hcz : c = 0x30 := by simpa [hc, hval] using hall c
        cases hzero hcz
      simp [grokAtoUV, hc, hval, peek, hd, hne]
  rw [hrun]
  split_ifs at hloop ⊢ with hfits
  · obtain ⟨v, hv, hread⟩ := hloop
    refine ⟨v, ?_, hread⟩
    rw [hv]
    simp
  · rw [hloop]
    rfl

section Digits

variable {s : List UInt8}

theorem numberText_ten {flags : ScanFlags} (hflags : flags.underscores = false) (s : List UInt8) :
    numberText .ten flags s = s.takeWhile isDIGIT := by
  have hmedial : flags.allowMedialUnderscoresOnly = false := by
    rw [ScanFlags.underscores, Bool.or_eq_false_iff] at hflags
    exact hflags.2
  have hstart : mayStart flags s = true := by
    cases s with
    | nil => rfl
    | cons c s => simp [mayStart, hmedial]
  rw [numberText, if_pos hstart, hflags]
  induction s with
  | nil => rfl
  | cons c s ih =>
    have hs : mayStart flags s = true := by
      cases s with
      | nil => rfl
      | cons d s => simp [mayStart, hmedial]
    by_cases hc : isDIGIT c = true
    · have hdigit : (Base.ten.script false).digit c = true := hc
      rw [run_cons_digit hdigit, List.takeWhile_cons_of_pos hc, ih hs]
    · rw [List.takeWhile_cons_of_neg hc]
      refine run_eq_nil (Bool.not_eq_true _ ▸ hc) ?_
      rintro u - ha
      cases ha

def IntegerPart (ds : List UInt8) (numtype next : NumberFlags) (value : Option UInt64) : Prop :=
  if numberValue .ten ds < 2 ^ 64 then
    next = { numtype with inUV := true } ∧ ∃ v, value = some v ∧ v.toNat = numberValue .ten ds
  else next = { numtype with greaterThanUVMax := true } ∧ value = none

theorem grokDigits_spec (numtype : NumberFlags) (h : isDIGIT (peek s) = true) :
    ∃ next value stage, grokDigits numtype s = some stage ∧
      IntegerPart (s.takeWhile isDIGIT) numtype next value ∧
      (stage = grokPoint next value (s.dropWhile isDIGIT) ∨
        (stage = .returns next value ∧ s.dropWhile isDIGIT = [])) := by
  obtain ⟨scanned, hscan, hlen, houtcome⟩ := grokUintByBase_outcome noFloats .ten
    { silentIlldigit := true, silentNonPortable := true, discardInsteadOfOverflow := true }
    false (Nat.zero_le s.length)
  rw [List.drop_zero, numberText_ten rfl, Nat.zero_add] at hlen
  rw [List.drop_zero, numberText_ten rfl] at houtcome
  have hdrop : s.drop scanned.len = s.dropWhile isDIGIT := by
    rw [hlen]
    have hsplit : s.takeWhile isDIGIT ++ s.dropWhile isDIGIT = s :=
      List.takeWhile_append_dropWhile
    generalize s.dropWhile isDIGIT = rest at hsplit ⊢
    generalize s.takeWhile isDIGIT = ds at hsplit ⊢
    rw [← hsplit, List.drop_left]
  unfold grokDigits
  rw [if_pos h, hscan]
  simp only [Option.bind_eq_bind, Option.bind_some, hdrop]
  generalize s.dropWhile isDIGIT = rest
  unfold IntegerPart
  cases houtcome with
  | exact hvalue _ hflag =>
    have hfits : numberValue .ten (s.takeWhile isDIGIT) < 2 ^ 64 := by
      rw [← hvalue]
      exact scanned.value.toNat_lt
    simp only [hflag, hfits, if_true, Bool.false_eq_true, if_false, Bool.not_false, Bool.true_and]
    by_cases hend : rest = []
    · subst hend
      exact ⟨_, _, _, rfl, ⟨rfl, _, rfl, hvalue⟩, Or.inr ⟨rfl, rfl⟩⟩
    · have hempty : rest.isEmpty = false := by simpa using hend
      rw [hempty]
      exact ⟨_, _, _, rfl, ⟨rfl, _, rfl, hvalue⟩, Or.inl rfl⟩
  | tooLarge _ hset => cases hset
  | discarded hover _ _ _ hflag =>
    have hlarge : ¬numberValue .ten (s.takeWhile isDIGIT) < 2 ^ 64 := Nat.not_lt.2 hover.large
    simp only [hflag, hlarge, if_true, if_false, Bool.not_true, Bool.false_and, Bool.false_eq_true]
    exact ⟨_, _, _, rfl, ⟨rfl, rfl⟩, Or.inl rfl⟩

end Digits

theorem grokNumberFlags_decimal (trailing : Bool) (ht : IsDecimal t) :
    ∃ numtype value, grokNumberFlags trailing t = some (numtype, value) ∧
      IntegerPart t {} numtype value := by
  obtain ⟨c, s, hcons, hc, -⟩ := ht.cons
  have hall : ∀ c : UInt8, (!isDIGIT c || (!isSPACE c && c &&& 0xF9 != 0x29)) = true :=
    forall_byte (by decide +kernel)
  have hplain : isSPACE c = false ∧ (c &&& 0xF9 == 0x29) = false := by
    simpa [hc] using hall c
  have hstart : grokStart t = some (false, t) := by
    simp [hcons, grokStart, peek, hplain.1, hplain.2]
  have hpeek : isDIGIT (peek t) = true := by rw [hcons]; exact hc
  have hdrop : t.dropWhile isDIGIT = [] := List.dropWhile_eq_nil_iff.2 ht.digits
  have htake : t.takeWhile isDIGIT = t := List.takeWhile_eq_self_iff.2 ht.digits
  obtain ⟨next, value, stage, hstage, hpart, hcases⟩ := grokDigits_spec {} hpeek
  rw [htake] at hpart
  rw [hdrop] at hcases
  refine ⟨next, value, ?_, hpart⟩
  unfold grokNumberFlags grokNumberFuel
  rw [hstart]
  simp only [Option.bind_eq_bind, hstage, Option.bind_some]
  rcases hcases with rfl | ⟨rfl, -⟩
  · simp [grokPoint, grokNumericRadix, grokExponent, grokEnd, atLetter]
  · rfl

theorem scan_digits (f : Floats NV) (flags : ScanFlags) (approximation : Bool)
    (ht : ∀ c ∈ t, isDIGIT c = true) :
    ∃ scanned, grokUintByBase f .ten flags approximation 0 t = some scanned ∧
      Outcome .ten flags t scanned := by
  obtain ⟨scanned, hscan, -, houtcome⟩ :=
    grokUintByBase_outcome f .ten flags approximation (Nat.zero_le t.length)
  have hfilter : t.filter Base.ten.isCC = t := List.filter_eq_self.2 ht
  have hnumber := isNumber_filter .ten flags t
  rw [hfilter] at hnumber
  have htext : numberText .ten flags t = t := by
    rw [numberText, if_pos hnumber.first, hnumber.run_eq]
  rw [List.drop_zero, htext] at houtcome
  exact ⟨scanned, hscan, houtcome⟩

/-- The three parsers of a decimal string: each gives its value up to UV_MAX, and no other. -/
theorem decimal_parsers_agree (f : Floats NV) (endptr trailing : Bool) (flags : ScanFlags)
    (approximation : Bool) (t : List UInt8) (ht : IsDecimal t) :
    ∃ numtype value scanned, grokNumberFlags trailing t = some (numtype, value) ∧
      grokUintByBase f .ten flags approximation 0 t = some scanned ∧
      ((∃ v s, grokAtoUV endptr t = some (v, s)) ↔
        numtype.inUV = true ∧ numtype.greaterThanUVMax = false) ∧
      ((∃ v s, grokAtoUV endptr t = some (v, s)) ↔
        scanned.flags.greaterThanUVMax = false ∧
          scanned.flags.discardInsteadOfOverflow = false) ∧
      ((∃ v s, grokAtoUV endptr t = some (v, s)) ↔ numberValue .ten t ≤ uvMax.toNat) ∧
      ∀ v s, grokAtoUV endptr t = some (v, s) →
        v.toNat = numberValue .ten t ∧ s = [] ∧ value = some v ∧ scanned.value = v := by
  have hatoUV := grokAtoUV_spec endptr ht
  obtain ⟨numtype, value, hnumber, hpart⟩ := grokNumberFlags_decimal trailing ht
  obtain ⟨scanned, hscan, houtcome⟩ := scan_digits f flags approximation ht.digits
  have hmax : uvMax.toNat = 2 ^ 64 - 1 := rfl
  refine ⟨numtype, value, scanned, hnumber, hscan, ?_⟩
  unfold IntegerPart at hpart
  by_cases hfits : numberValue .ten t < 2 ^ 64
  · rw [if_pos hfits] at hatoUV hpart
    obtain ⟨v, hv, hvalue⟩ := hatoUV
    obtain ⟨rfl, w, rfl, hw⟩ := hpart
    have hexact : scanned.value.toNat = numberValue .ten t ∧
        scanned.flags.greaterThanUVMax = false ∧
        scanned.flags.discardInsteadOfOverflow = false := by
      cases houtcome with
      | exact h hgreater hdiscard => exact ⟨h, hgreater, hdiscard⟩
      | tooLarge hover => have hlarge := hover.large; omega
      | discarded hover => have hlarge := hover.large; omega
    have hex : ∃ v s, grokAtoUV endptr t = some (v, s) := ⟨v, [], hv⟩
    refine ⟨iff_of_true hex ⟨rfl, rfl⟩, iff_of_true hex hexact.2, iff_of_true hex (by omega), ?_⟩
    rintro x s hx
    obtain ⟨rfl, rfl⟩ : v = x ∧ [] = s := by
      rw [hv] at hx
      simpa using hx
    exact ⟨hvalue, rfl, congrArg some (UInt64.toNat_inj.1 (hw.trans hvalue.symm)),
      UInt64.toNat_inj.1 (hexact.1.trans hvalue.symm)⟩
  · rw [if_neg hfits] at hatoUV hpart
    obtain ⟨rfl, rfl⟩ := hpart
    have hnone : ¬∃ v s, grokAtoUV endptr t = some (v, s) := by
      rw [hatoUV]
      rintro ⟨v, s, h⟩
      cases h
    refine ⟨iff_of_false hnone (by simp), iff_of_false hnone ?_, iff_of_false hnone (by omega),
      fun v s h => absurd ⟨v, s, h⟩ hnone⟩
    rintro ⟨hgreater, hdiscard⟩
    cases houtcome with
    | exact h =>
      have hlt := scanned.value.toNat_lt
      omega
    | tooLarge _ _ _ h => rw [h] at hgreater; cases hgreater
    | discarded _ _ _ _ h => rw [h] at hdiscard; cases hdiscard

/-- The first number that all of them reject. -/
theorem decimal_parsers_agree_limit :
    (∃ numtype value, grokNumberFlags false
      [0x31, 0x38, 0x34, 0x34, 0x36, 0x37, 0x34, 0x34, 0x30, 0x37, 0x33, 0x37, 0x30, 0x39, 0x35,
        0x35, 0x31, 0x36, 0x31, 0x36] = some (numtype, value) ∧
      ¬(numtype.inUV = true ∧ numtype.greaterThanUVMax = false)) ∧
    numberValue .ten [0x31, 0x38, 0x34, 0x34, 0x36, 0x37, 0x34, 0x34, 0x30, 0x37, 0x33, 0x37, 0x30,
      0x39, 0x35, 0x35, 0x31, 0x36, 0x31, 0x36] = uvMax.toNat + 1 := by
  have hvalue : numberValue .ten [0x31, 0x38, 0x34, 0x34, 0x36, 0x37, 0x34, 0x34, 0x30, 0x37, 0x33,
      0x37, 0x30, 0x39, 0x35, 0x35, 0x31, 0x36, 0x31, 0x36] = uvMax.toNat + 1 := by decide +kernel
  obtain ⟨numtype, value, -, hnumber, -, hiff, -, hmax, -⟩ := decimal_parsers_agree noFloats true
    false {} false _ (⟨by decide +kernel, Or.inr ⟨0x31, _, rfl, by decide⟩⟩ : IsDecimal [0x31, 0x38, 0x34,
      0x34, 0x36, 0x37, 0x34, 0x34, 0x30, 0x37, 0x33, 0x37, 0x30, 0x39, 0x35, 0x35, 0x31, 0x36,
      0x31, 0x36])
  refine ⟨⟨numtype, value, hnumber, ?_⟩, hvalue⟩
  rw [← hiff, hmax, hvalue]
  exact Nat.not_succ_le_self _

end XPerl.Numeric
