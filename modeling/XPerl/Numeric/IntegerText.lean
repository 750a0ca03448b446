import XPerl.Framework.PlaceValue
import XPerl.Numeric.Exact
import XPerl.Numeric.NumberGrammar

/-! Integers as text: what `uiv_2buf` prints, `S_sv_2iuv_common` reads. -/

namespace XPerl.Numeric

open XPerl.Framework XPerl.Framework.PlaceValue XPerl.Framework.Separated

variable {NV : Type} {uv : UInt64} {ds : List Nat} {v : Nat} {z w : Int}

def asciiDigit (uv : UInt64) : UInt8 := uv.toUInt8 + 0x30

/-- `int2str_table`: the two digits of a number below 100. -/
def int2str (uv : UInt64) : List UInt8 := [asciiDigit (uv / 10), asciiDigit (uv % 10)]

/-- The loop of `uiv_2buf` with the words in front of `ptr`; none is a write before the buffer. -/
def uivLoop : Nat → UInt64 → List UInt8 → Option (List UInt8)
  | 0, _, _ => none
  | words + 1, uv, text =>
    if 99 < uv then uivLoop words (uv / 100) (int2str (uv % 100) ++ text)
    else if uv < 10 then some (asciiDigit uv :: text)
    else some (int2str uv ++ text)

/-- `TYPE_CHARS(UV)` -/
def typeCharsUV : Nat := 22

def uiv2buf (iv : Int64) (uv : UInt64) (isUV : Bool) : Defined (List UInt8) := do
  let sign := !isUV && decide (iv < 0)
  let uv ← if isUV then some uv else if sign then negate2UV iv else some iv.toUInt64
  let text ← uivLoop (typeCharsUV / 2) uv []
  if sign then
    if text.length < typeCharsUV then some (0x2D :: text) else none
  else some text

/-- What `S_sv_2iuv_common` makes of a string that `grok_number` calls an integer; none is a number
that goes on to floating point. -/
def grokInteger (pv : List UInt8) : Option (Value NV) := do
  let (numtype, value) ← grokNumberFlags false pv
  let value ← value
  if numtype.inUV && !numtype.notInt then
    if numtype.neg then
      if value ≤ absIVMin then (negate2IV value).map .iv else none
    else some (svSetuv value)
  else none

/-- The string branch of `S_sv_2iuv_common`, with its short-cut for a single digit. -/
def sv2iuvText : List UInt8 → Option (Value NV)
  | [c] => if isDIGIT c then some (svSetiv (c - 0x30).toUInt64.toInt64) else grokInteger [c]
  | pv => grokInteger pv

def decimalText (v : Nat) : List UInt8 := (numeral 10 v).map fun d => asciiDigit (UInt64.ofNat d)

/-- The text of an integer: a sign where it is negative, and its digits without leading zeros. -/
def integerText (z : Int) : List UInt8 :=
  if z < 0 then 0x2D :: decimalText z.natAbs else decimalText z.natAbs

theorem asciiDigit_spec : ∀ d < 10, isDIGIT (asciiDigit (UInt64.ofNat d)) = true ∧
    (xdigitValue (asciiDigit (UInt64.ofNat d))).toNat = d ∧
    (asciiDigit (UInt64.ofNat d) = 0x30 → d = 0) := by decide

theorem int2str_eq (h : uv.toNat < 100) : int2str uv =
    [asciiDigit (UInt64.ofNat (uv.toNat / 10)), asciiDigit (UInt64.ofNat (uv.toNat % 10))] := by
  have hdiv : uv / 10 = UInt64.ofNat (uv.toNat / 10) := UInt64.toNat_inj.1 (by simp; omega)
  have hmod : uv % 10 = UInt64.ofNat (uv.toNat % 10) := UInt64.toNat_inj.1 (by simp; omega)
  rw [int2str, hdiv, hmod]

theorem decimalText_of_lt (h : v < 10) : decimalText v = [asciiDigit (UInt64.ofNat v)] := by
  rw [decimalText, numeral_of_lt h]
  rfl

theorem decimalText_of_le (h : 10 ≤ v) :
    decimalText v = decimalText (v / 10) ++ [asciiDigit (UInt64.ofNat (v % 10))] := by
  rw [decimalText, numeral_of_le (by decide) h, List.map_append]
  rfl

theorem lastDigits_eq (text : List UInt8) (h : uv.toNat < 100) :
    (if uv < 10 then some (asciiDigit uv :: text) else some (int2str uv ++ text)) =
      some (decimalText uv.toNat ++ text) := by
  split_ifs with hone
  · have hlt : uv.toNat < 10 := UInt64.lt_iff_toNat_lt.1 hone
    rw [decimalText_of_lt hlt, UInt64.ofNat_toNat]
    rfl
  · have hle : 10 ≤ uv.toNat := UInt64.le_iff_toNat_le.1 (UInt64.not_lt.1 hone)
    rw [decimalText_of_le hle, decimalText_of_lt (by omega), int2str_eq h]
    rfl

theorem uivLoop_eq (words : Nat) (text : List UInt8) (h : uv.toNat < 100 ^ (words + 1)) :
    uivLoop (words + 1) uv text = some (decimalText uv.toNat ++ text) := by
  have hsmall {uv : UInt64} : ¬ 99 < uv → uv.toNat < 100 := by
    rw [UInt64.lt_iff_toNat_lt]
    exact fun h => Nat.lt_succ_of_le (Nat.not_lt.1 h)
  induction words generalizing uv text with
  | zero =>
    have hlast : ¬ 99 < uv := by
      rw [UInt64.lt_iff_toNat_lt]
      exact Nat.not_lt.2 (Nat.le_of_lt_succ h)
    rw [uivLoop, if_neg hlast]
    exact lastDigits_eq text (hsmall hlast)
  | succ words ih =>
    rw [uivLoop]
    by_cases hlarge : 99 < uv
    · have hle : 100 ≤ uv.toNat := UInt64.lt_iff_toNat_lt.1 hlarge
      have hrest : (uv / 100).toNat = uv.toNat / 100 := UInt64.toNat_div uv 100
      have hlast : (uv % 100).toNat = uv.toNat % 100 := UInt64.toNat_mod uv 100
      rw [Nat.pow_succ] at h
      rw [if_pos hlarge, ih _ (by omega), hrest, int2str_eq (by omega), hlast,
        decimalText_of_le (v := uv.toNat) (by omega),
        decimalText_of_le (v := uv.toNat / 10) (by omega), Nat.div_div_eq_div_mul,
        show uv.toNat % 100 / 10 = uv.toNat / 10 % 10 by omega,
        show uv.toNat % 100 % 10 = uv.toNat % 10 by omega]
      simp
    · rw [if_neg hlarge]
      exact lastDigits_eq text (hsmall hlarge)

theorem length_decimalText (h : v < 2 ^ 64) : (decimalText v).length ≤ 20 := by
  rw [decimalText, List.length_map, length_numeral]
  rcases Nat.eq_zero_or_pos v with rfl | hv
  · decide
  · exact Nat.log_lt_of_lt_pow hv.ne' (by omega)

theorem uiv2buf_eq (sv : Sv NV) : uiv2buf sv.ivx sv.uvx sv.isUV = some (integerText sv.value) := by
  have hloop (u : UInt64) : uivLoop (typeCharsUV / 2) u [] = some (decimalText u.toNat) := by
    have hu := u.toNat_lt
    have hrun := uivLoop_eq 10 [] (show u.toNat < 100 ^ 11 by omega)
    rwa [List.append_nil] at hrun
  rw [uiv2buf, Sv.value, integerText]
  cases hUV : sv.isUV with
  | true => simp [hloop]
  | false =>
    by_cases hneg : sv.ivx.toInt < 0
    · have hlow := sv.ivx.le_toInt
      have hsign : sv.ivx < 0 := Int64.lt_iff_toInt_lt.2 hneg
      obtain ⟨u, hu, hvalue⟩ := negate2UV_spec sv.ivx hneg
      have hlength := length_decimalText u.toNat_lt
      have habs : sv.ivx.toInt.natAbs = u.toNat := by omega
      have hroom : (decimalText u.toNat).length < typeCharsUV := by rw [typeCharsUV]; omega
      simp [hu, hloop, hsign, hneg, habs, hroom]
    · have hsign : ¬ sv.ivx < 0 := fun h => hneg (Int64.lt_iff_toInt_lt.1 h)
      have hvalue : sv.ivx.toUInt64.toNat = sv.ivx.toInt.natAbs := by
        have hcast := toNat_toUInt64 sv.ivx
        have hhigh := sv.ivx.toInt_lt
        omega
      simp [hloop, hsign, hneg, hvalue]

theorem numberValue_decimalText (v : Nat) : numberValue .ten (decimalText v) = v := by
  have hdigits : ∀ ds, Numeral 10 ds → (Base.ten.script true).digits
      (ds.map fun d => asciiDigit (UInt64.ofNat d)) = ds := by
    intro ds hds
    induction ds with
    | nil => rfl
    | cons d ds ih =>
      obtain ⟨hdigit, hworth, -⟩ := asciiDigit_spec d (hds d List.mem_cons_self)
      rw [List.map_cons, digits_cons_digit (show (Base.ten.script true).digit _ = true from hdigit),
        ih fun x hx => hds x (List.mem_cons_of_mem d hx)]
      exact congrArg (· :: ds) hworth
  rw [numberValue, Script.read, decimalText, hdigits _ (numeral_digits_numeral (by decide) v)]
  exact readFrom_numeral (by decide) v

theorem isDecimal_decimalText (v : Nat) : IsDecimal (decimalText v) := by
  constructor
  · intro c hc
    obtain ⟨d, hd, rfl⟩ := List.mem_map.1 hc
    exact (asciiDigit_spec d (numeral_digits_numeral (by decide) v d hd)).1
  · induction v using Nat.strong_induction_on with
    | _ v ih =>
      by_cases hlt : v < 10
      · rw [decimalText_of_lt hlt]
        by_cases hzero : v = 0
        · exact .inl (by rw [hzero]; rfl)
        · exact .inr ⟨_, [], rfl, fun hc => hzero ((asciiDigit_spec v hlt).2.2 hc)⟩
      · rw [decimalText_of_le (Nat.not_lt.1 hlt)]
        rcases ih (v / 10) (by omega) with hlead | ⟨c, rest, hlead, hc⟩
        · have hvalue := numberValue_decimalText (v / 10)
          rw [hlead] at hvalue
          have hnone : numberValue .ten [0x30] = 0 := rfl
          omega
        · exact .inr ⟨c, _, by rw [hlead, List.cons_append], hc⟩

theorem grokInteger_integerText (h : FitsWord z) :
    grokInteger (integerText z) = some (Value.ofInt z : Value NV) := by
  obtain ⟨hlow, hhigh⟩ := h
  have hdecimal := isDecimal_decimalText z.natAbs
  have hvalue := numberValue_decimalText z.natAbs
  obtain ⟨c, rest, hcons, -⟩ := hdecimal.cons
  let n := Number.ofDigits (decimalText z.natAbs) hdecimal.digits (by rw [hcons]; simp)
  have htext : n.text = decimalText z.natAbs := by
    simp [n, Number.text, Number.ofDigits, pointText, exponentText]
  have hfits : n.fits = true := decide_eq_true (hvalue.trans_lt (by omega))
  have hrun (sign : Sign) (hsign : sign.neg = decide (z < 0))
      (htext' : integerText z = sign.text ++ n.text) : grokNumberFlags false (integerText z) =
      some ({ inUV := true, neg := decide (z < 0) }, some (UInt64.ofNat z.natAbs)) := by
    have hnone : Spaces [] := List.forall_mem_nil _
    have his : IsNumberText (integerText z) sign n :=
      ⟨[], [], hnone, hnone, by rw [htext', List.append_nil, List.nil_append]⟩
    rw [grokNumberFlags_number his, Number.numtype, Number.value, hfits, hsign]
    simp [n, Number.ofDigits, hvalue]
  have hnat : (UInt64.ofNat z.natAbs).toNat = z.natAbs :=
    UInt64.toNat_ofNat_of_lt' (show _ < 2 ^ 64 by omega)
  by_cases hneg : z < 0
  · have hsmall : (UInt64.ofNat z.natAbs).toNat ≤ 2 ^ 63 := by omega
    have hback : -((z.natAbs : Nat) : Int) = z := by omega
    have htext' : integerText z = Sign.minus.text ++ n.text := by
      rw [integerText, if_pos hneg, htext]
      rfl
    have hvalue' : (Value.ofInt z : Value NV) = .iv (Int64.ofInt z) := if_pos (by omega)
    rw [grokInteger, hrun .minus (decide_eq_true hneg).symm htext', hvalue']
    have hle : UInt64.ofNat z.natAbs ≤ absIVMin := UInt64.le_iff_toNat_le.2 hsmall
    have hnegate : negate2IV (UInt64.ofNat z.natAbs) = some (Int64.ofInt z) := by
      rw [negate2IV_spec _ hsmall, hnat, hback]
    simp [hneg, hle, hnegate]
  · have hback : ((z.natAbs : Nat) : Int) = z := by omega
    have htext' : integerText z = Sign.none.text ++ n.text := by
      rw [integerText, if_neg hneg, htext]
      rfl
    rw [grokInteger, hrun .none (decide_eq_false hneg).symm htext']
    simp [hneg, svSetuv_eq, hnat, hback]

theorem sv2iuvText_integerText (h : FitsWord z) :
    sv2iuvText (integerText z) = some (Value.ofInt z : Value NV) := by
  have hgrok : grokInteger (integerText z) = some (Value.ofInt z : Value NV) :=
    grokInteger_integerText h
  by_cases hdigit : 0 ≤ z ∧ z < 10
  · obtain ⟨v, rfl⟩ := Int.eq_ofNat_of_zero_le hdigit.1
    have hlt : v < 10 := by omega
    have hall : ∀ v < 10, isDIGIT (asciiDigit (UInt64.ofNat v)) = true ∧
        (asciiDigit (UInt64.ofNat v) - 0x30).toUInt64.toInt64 = Int64.ofInt v := by decide
    rw [integerText, if_neg (by omega), Int.natAbs_natCast, decimalText_of_lt hlt, sv2iuvText,
      if_pos (hall v hlt).1, (hall v hlt).2, Value.ofInt, if_pos (by omega)]
    rfl
  · rw [← hgrok]
    have hlong : 2 ≤ (integerText z).length := by
      rw [integerText]
      split_ifs with hneg
      · obtain ⟨c, rest, hcons, -⟩ := (isDecimal_decimalText z.natAbs).cons
        simp [hcons]
      · rw [decimalText, List.length_map, length_numeral]
        exact Nat.succ_le_succ (Nat.log_pos (by decide) (by omega))
    cases htext : integerText z with
    | nil => simp [htext] at hlong
    | cons c rest =>
      cases rest with
      | nil => simp [htext] at hlong
      | cons d rest => rfl

theorem integerText_injective (h : integerText z = integerText w) : z = w := by
  have hplain {v u : Nat} (h : decimalText v = decimalText u) : v = u := by
    have hvalue := congrArg (numberValue .ten) h
    rwa [numberValue_decimalText, numberValue_decimalText] at hvalue
  have hsign {v : Nat} {rest : List UInt8} (h : decimalText v = 0x2D :: rest) : False := by
    have hdigit := (isDecimal_decimalText v).digits 0x2D (by rw [h]; exact List.mem_cons_self)
    cases hdigit
  rw [integerText, integerText] at h
  split_ifs at h
  · have habs := hplain (List.cons.inj h).2
    omega
  · exact (hsign h.symm).elim
  · exact (hsign h).elim
  · have habs := hplain h
    omega

/-- Integers survive their text: `uiv_2buf` stays in its buffer and writes the shortest text of the
value, which is read back as it, so that equal texts are equal values. -/
theorem integer_text_round_trip (sv : Sv NV) : ∃ text,
    uiv2buf sv.ivx sv.uvx sv.isUV = some text ∧
    (∃ ds, IsDecimal ds ∧ text = (if sv.value < 0 then [0x2D] else []) ++ ds ∧
      numberValue .ten ds = sv.value.natAbs ∧ text.length < typeCharsUV) ∧
    sv2iuvText text = some (Value.ofInt sv.value : Value NV) ∧
    ∀ sv' : Sv NV, uiv2buf sv'.ivx sv'.uvx sv'.isUV = some text ↔ sv'.value = sv.value := by
  have hread : sv2iuvText (integerText sv.value) = some (Value.ofInt sv.value : Value NV) :=
    sv2iuvText_integerText (value_fits sv)
  obtain ⟨hlow, hhigh⟩ := value_fits sv
  have hlength := length_decimalText (show sv.value.natAbs < 2 ^ 64 by omega)
  refine ⟨_, uiv2buf_eq sv, ⟨decimalText sv.value.natAbs, isDecimal_decimalText _, ?_,
    numberValue_decimalText _, ?_⟩, hread, fun sv' => ?_⟩
  · rw [integerText]
    split_ifs <;> rfl
  · rw [integerText, typeCharsUV]
    split_ifs
    · rw [List.length_cons]
      omega
    · omega
  · rw [uiv2buf_eq, Option.some_inj]
    exact ⟨integerText_injective, congrArg integerText⟩

end XPerl.Numeric
