import XPerl.Framework.Lanes
import XPerl.Framework.Search

/-! The scalars that `dispatch` compares, its tables, and what the comparisons say. -/

namespace XPerl.Dispatch

abbrev Str := List Nat

/-- The integer slot of a scalar with the IOK flag. -/
structure Integer where
  isUV : Bool
  uv : UInt64
  deriving DecidableEq, Repr

def Integer.iv (i : Integer) : Int64 := i.uv.toInt64

def Integer.value (i : Integer) : Int := if i.isUV then i.uv.toNat else i.iv.toInt

/-- A scalar without magic that is no object. A reference has its address in `rok`, a glob its name
in `glob`. -/
structure Sv (NV : Type) where
  iok : Option Integer
  nok : Option NV
  pok : Option Str
  rok : Option Nat
  glob : Option Str
  bool : Option Bool
  deriving DecidableEq, Repr

/-- Floating point, and the conversions of `sv.c` between the slots. -/
structure Conversions (NV L : Type) [LinearOrder L] where
  /-- The place of a number in the order; NaN has none. -/
  place : NV → Option L
  ofInt : Int → NV
  /-- `SvIV_please` on a number: the IV or UV that is flagged as accurate. -/
  toInteger : NV → Option Integer
  looksLikeNumber : Str → Bool
  /-- The numeric value of a string; the integer is there when it is flagged as accurate. -/
  number : Str → Option Integer × NV
  /-- The string form of a scalar without a string of its own. -/
  stringOf : Sv NV → Str
  placeInt : Int → L
  place_ofInt : ∀ n, place (ofInt n) = some (placeInt n)
  placeInt_mono : ∀ m n, m ≤ n → placeInt m ≤ placeInt n
  place_toInteger : ∀ f i, toInteger f = some i → place f = some (placeInt i.value)
  /-- Accurate integers are within the range in which all integers are told apart. -/
  apart : ∀ f i n, toInteger f = some i → placeInt n = placeInt i.value → n = i.value
  place_number : ∀ s i, (number s).1 = some i → place (number s).2 = some (placeInt i.value)

/-- A scalar whose integer and number slots agree when both flags are up. -/
structure Scalar {NV L : Type} [LinearOrder L] (conv : Conversions NV L) where
  sv : Sv NV
  agree : ∀ i f, sv.iok = some i → sv.nok = some f → conv.place f = some (conv.placeInt i.value)

namespace Sv

variable {NV : Type} (sv : Sv NV)

def ok : Bool :=
  sv.iok.isSome || sv.nok.isSome || sv.pok.isSome || sv.rok.isSome || sv.glob.isSome

def niok : Bool := sv.iok.isSome || sv.nok.isSome

end Sv

variable {NV L : Type} [LinearOrder L] (conv : Conversions NV L)

/-- `SvIV_please_nomg`: the integer of the scalar, as far as it is one. -/
def svIVPlease (sv : Sv NV) : Option Integer :=
  match sv.iok, sv.nok, sv.pok with
  | some i, _, _ => some i
  | none, some f, _ => conv.toInteger f
  | none, none, some s => (conv.number s).1
  | none, none, none => none

def svNV (sv : Sv NV) : NV :=
  match sv.nok, sv.iok, sv.pok, sv.rok with
  | some f, _, _, _ => f
  | none, some i, _, _ => conv.ofInt i.value
  | none, none, some s, _ => (conv.number s).2
  | none, none, none, some address => conv.ofInt address
  | none, none, none, none => conv.ofInt 0

/-- The result of comparing two ordered values. -/
def sign {α : Type} [LT α] [DecidableLT α] (x y : α) : Int :=
  if x < y then -1 else if y < x then 1 else 0

/-- The integer half of `do_ncmp`, by the four combinations of signedness. -/
def integerNcmp (left right : Integer) : Int :=
  if left.isUV = false then
    if right.isUV = false then sign left.iv right.iv
    else if left.iv < 0 then -1
    else sign left.iv.toUInt64 right.uv
  else if right.isUV = true then sign left.uv right.uv
  else if right.iv < 0 then 1
  else sign left.uv right.iv.toUInt64

/-- The floating half of `do_ncmp`; 2 says that there was a NaN. -/
def floatNcmp (left right : NV) : Int :=
  match conv.place left, conv.place right with
  | some x, some y => sign x y
  | _, _ => 2

def doNcmp (left right : Sv NV) : Int :=
  match svIVPlease conv right, svIVPlease conv left with
  | some r, some l => integerNcmp l r
  | _, _ => floatNcmp conv (svNV conv left) (svNV conv right)

/-- `S_dispatch_pattern_is_numerically_comparable`; without a string slot `looks_like_number` sees
only the flags. -/
def numericallyComparable (sv : Sv NV) : Bool :=
  sv.niok || sv.rok.isSome ||
    (match sv.pok with
    | some s => conv.looksLikeNumber s
    | none => false)

def patternNumeq (left right : Sv NV) : Bool :=
  numericallyComparable conv left && numericallyComparable conv right &&
    doNcmp conv left right == 0

def svPV (sv : Sv NV) : Str := sv.pok.getD (conv.stringOf sv)

def patternStreq (left right : Sv NV) : Bool :=
  left.ok && right.ok && svPV conv left == svPV conv right

end XPerl.Dispatch

/-! The tables that `dispatch_on_compile` builds and `pp_dispatch` reads, beside the clauses that
`pp_dispatch_on` tries in the order of the source. -/

namespace XPerl.Dispatch

open XPerl.Framework

/-- The shapes of guard-free clauses that go into tables, by the kinds of
`dispatch_pattern_compile`. -/
inductive Shape (NV : Type) where
  | undef
  | bool (b : Bool)
  | integer (i : Integer)
  | floating (f : NV)
  | string (s : Str)
  | wildcard
  deriving DecidableEq, Repr

/-- The values of `PERL_CONST_DISPATCH_STRATEGY`; `unknown` is any other text. -/
inductive Mode where
  | unset
  | auto
  | arrayBinary
  | arrayLinear
  | none
  | hv
  | unknown
  deriving DecidableEq, Repr

/-- `DISPATCH_ON_NONE` and its siblings. -/
inductive Strategy where
  | none
  | arrayLinear
  | arrayBinary
  deriving DecidableEq, Repr

def dispatchOnStrategy (mode : Mode) (clauseCount : Nat) : Strategy :=
  match mode with
  | .unset | .auto => if clauseCount < 16 then .arrayLinear else .arrayBinary
  | .arrayBinary => .arrayBinary
  | .arrayLinear => .arrayLinear
  | .none => .none
  | .hv => .arrayBinary
  | .unknown => .arrayLinear

/-- The fields `iv_min_is_uv` to `iv_max_uv`. -/
structure IvBounds where
  minIsUV : Bool
  maxIsUV : Bool
  minIV : Int64
  maxIV : Int64
  minUV : UInt64
  maxUV : UInt64
  deriving DecidableEq, Repr

/-- The fields `nv_min` and `nv_max`. -/
structure NvBounds (NV : Type) where
  min : NV
  max : NV

/-- The fields `pv_minlen` and `pv_maxlen`. -/
structure PvBounds where
  minlen : Nat
  maxlen : Nat

/-- `struct dispatch_on_aux`, with values and clauses as pairs; `none` is DISPATCH_ON_NO_CLAUSE. -/
structure Tables (NV : Type) where
  undefClause : Option Nat
  boolClause : Bool → Option Nat
  defaultClause : Option Nat
  ivBounds : Option IvBounds
  nvBounds : Option (NvBounds NV)
  pvBounds : Option PvBounds
  ivTable : List (Sv NV × Nat)
  nvTable : List (Sv NV × Nat)
  pvTable : List (Str × Nat)

def Tables.new (NV : Type) : Tables NV where
  undefClause := none
  boolClause := fun _ => none
  defaultClause := none
  ivBounds := none
  nvBounds := none
  pvBounds := none
  ivTable := []
  nvTable := []
  pvTable := []

variable {NV L : Type} [LinearOrder L] (conv : Conversions NV L)

def integerSv (i : Integer) : Sv NV := ⟨some i, none, none, none, none, none⟩

def floatSv (f : NV) : Sv NV := ⟨none, some f, none, none, none, none⟩

def stringSv (s : Str) : Sv NV := ⟨none, none, some s, none, none, none⟩

/-- `S_dispatch_on_push`: a value that is there already stays with its earliest clause. -/
def dispatchOnPush (table : List (Sv NV × Nat)) (value : Sv NV) (clause : Nat) :
    List (Sv NV × Nat) :=
  if table.any (fun old => doNcmp conv old.1 value == 0) then table else table ++ [(value, clause)]

/-- The `iv_min` half of `S_dispatch_on_add_iv_bound`. -/
def IvBounds.addMin (b : IvBounds) (value : Integer) : IvBounds :=
  let iv := value.iv
  let uv := value.uv
  if value.isUV then
    if b.minIsUV then if uv < b.minUV then { b with minUV := uv } else b
    else if iv ≥ 0 ∧ uv < b.minIV.toUInt64 then { b with minIsUV := true, minUV := uv }
    else b
  else if b.minIsUV then
    if iv < 0 ∨ iv.toUInt64 < b.minUV then { b with minIsUV := false, minIV := iv } else b
  else if iv < b.minIV then { b with minIV := iv }
  else b

def IvBounds.addMax (b : IvBounds) (value : Integer) : IvBounds :=
  let iv := value.iv
  let uv := value.uv
  if value.isUV then
    if b.maxIsUV then if uv > b.maxUV then { b with maxUV := uv } else b
    else if iv < 0 ∨ uv > b.maxIV.toUInt64 then { b with maxIsUV := true, maxUV := uv }
    else b
  else if b.maxIsUV then
    if iv < 0 ∨ iv.toUInt64 > b.maxUV then { b with maxIsUV := false, maxIV := iv } else b
  else if iv > b.maxIV then { b with maxIV := iv }
  else b

def dispatchOnAddIvBound (bounds : Option IvBounds) (value : Integer) : IvBounds :=
  match bounds with
  | none => ⟨value.isUV, value.isUV, value.iv, value.iv, value.uv, value.uv⟩
  | some b => (b.addMin value).addMax value

def nvLt (x y : NV) : Bool := floatNcmp conv x y == -1

/-- The comparison `x <= y` of numbers, which a NaN fails too. -/
def nvLe (x y : NV) : Bool := floatNcmp conv x y == -1 || floatNcmp conv x y == 0

def dispatchOnAddNvBound (bounds : Option (NvBounds NV)) (nv : NV) : NvBounds NV :=
  match bounds with
  | none => ⟨nv, nv⟩
  | some b =>
    let b := if nvLt conv nv b.min then { b with min := nv } else b
    if nvLt conv b.max nv then { b with max := nv } else b

def dispatchOnAddPvBound (bounds : Option PvBounds) (len : Nat) : PvBounds :=
  match bounds with
  | none => ⟨len, len⟩
  | some b =>
    let b := if len < b.minlen then { b with minlen := len } else b
    if len > b.maxlen then { b with maxlen := len } else b

def dispatchOnKey (s : Str) : Str := [115, 58] ++ s

def dispatchOnStore (table : List (Str × Nat)) (s : Str) (clause : Nat) : List (Str × Nat) :=
  match table.lookup (dispatchOnKey s) with
  | some _ => table
  | none => (dispatchOnKey s, clause) :: table

/-- What `dispatch_on_compile` does with the clause of a shape that is no wildcard. -/
def Tables.addClause (tables : Tables NV) (clause : Nat) : Shape NV → Tables NV
  | .undef => { tables with undefClause := tables.undefClause.or (some clause) }
  | .bool b =>
    { tables with
      boolClause := fun b' =>
        if b' = b then (tables.boolClause b).or (some clause) else tables.boolClause b' }
  | .integer i =>
    { tables with
      ivBounds := some (dispatchOnAddIvBound tables.ivBounds i)
      ivTable := dispatchOnPush conv tables.ivTable (integerSv i) clause }
  | .floating f =>
    { tables with
      nvBounds := some (dispatchOnAddNvBound conv tables.nvBounds f)
      nvTable := dispatchOnPush conv tables.nvTable (floatSv f) clause }
  | .string s =>
    { tables with
      pvBounds := some (dispatchOnAddPvBound tables.pvBounds s.length)
      pvTable := dispatchOnStore tables.pvTable s clause }
  | .wildcard => tables

def Tables.addClauses (tables : Tables NV) (clause : Nat) : List (Shape NV) → Tables NV
  | [] => tables
  | .wildcard :: _ => { tables with defaultClause := some clause }
  | shape :: shapes => (tables.addClause conv clause shape).addClauses (clause + 1) shapes

def clauseCount : List (Shape NV) → Nat
  | [] => 0
  | .wildcard :: _ => 1
  | _ :: shapes => clauseCount shapes + 1

def hasConstant : List (Shape NV) → Bool
  | [] => false
  | .wildcard :: _ => false
  | _ => true

def dispatchOnSort (table : List (Sv NV × Nat)) : List (Sv NV × Nat) :=
  insertionSort (fun x y => decide (doNcmp conv x.1 y.1 > 0)) table

/-- `dispatch_on_compile`: the strategy and the tables, or none. -/
def dispatchOnCompile (mode : Mode) (shapes : List (Shape NV)) : Option (Strategy × Tables NV) :=
  if hasConstant shapes = false then none
  else
    let tables := (Tables.new NV).addClauses conv 0 shapes
    match dispatchOnStrategy mode (clauseCount shapes) with
    | .none => none
    | .arrayLinear => some (.arrayLinear, tables)
    | .arrayBinary =>
      some (.arrayBinary,
        { tables with
          ivTable := dispatchOnSort conv tables.ivTable
          nvTable := dispatchOnSort conv tables.nvTable })

/-- `S_dispatch_on_candidate` for numbers: the clause of the first value that matches. -/
def dispatchOnCandidate (table : List (Sv NV × Nat)) (subject : Sv NV) : Option Nat :=
  (table.find? fun entry => patternNumeq conv subject entry.1).map Prod.snd

def equalRun (compare : Sv NV → Int) : List (Sv NV × Nat) → Option Nat → Option Nat
  | [], best => best
  | (value, clause) :: rest, best =>
    if compare value ≠ 0 then best else equalRun compare rest (sooner best (some clause))

def dispatchOnBinaryCandidate (table : List (Sv NV × Nat)) (subject : Sv NV) : Option Nat :=
  let lo := bisect (fun entry : Sv NV × Nat => doNcmp conv entry.1 subject) table table.length 0
    table.length
  equalRun (doNcmp conv · subject) (table.drop lo) none

def dispatchOnIvInBounds (bounds : Option IvBounds) (subject : Sv NV) : Bool :=
  match bounds, subject.iok with
  | some b, some s =>
    let below :=
      if b.minIsUV then
        if s.isUV then decide (s.uv < b.minUV) else decide (s.iv < 0 ∨ s.iv.toUInt64 < b.minUV)
      else if s.isUV then decide (b.minIV ≥ 0 ∧ s.uv < b.minIV.toUInt64)
      else decide (s.iv < b.minIV)
    let above :=
      if b.maxIsUV then
        if s.isUV then decide (s.uv > b.maxUV) else decide (s.iv ≥ 0 ∧ s.iv.toUInt64 > b.maxUV)
      else if s.isUV then decide (b.maxIV < 0 ∨ s.uv > b.maxIV.toUInt64)
      else decide (s.iv > b.maxIV)
    !below && !above
  | _, _ => true

def dispatchOnNvInBounds (bounds : Option (NvBounds NV)) (subject : Sv NV) : Bool :=
  match bounds, subject.nok with
  | some b, some nv => nvLe conv b.min nv && nvLe conv nv b.max
  | _, _ => true

def dispatchOnPvInBounds (bounds : Option PvBounds) (subject : Sv NV) : Bool :=
  match bounds, subject.pok with
  | some b, some s => decide (b.minlen ≤ s.length) && decide (s.length ≤ b.maxlen)
  | _, _ => true

def dispatchOnHvCandidate (table : List (Str × Nat)) (subject : Sv NV) : Option Nat :=
  table.lookup (dispatchOnKey (svPV conv subject))

/-- The numeric tables are searched for a subject that compares as a number; bounds are for
subjects without a string slot. -/
def numericCandidate (strategy : Strategy) (table : List (Sv NV × Nat)) (inBounds : Bool)
    (subject : Sv NV) : Option Nat :=
  if numericallyComparable conv subject &&
      (if subject.pok.isNone && subject.niok then inBounds else true) then
    if strategy = .arrayLinear then dispatchOnCandidate conv table subject
    else dispatchOnBinaryCandidate conv table subject
  else none

/-- The clause that `pp_dispatch` computes from the tables. -/
def ppDispatch (strategy : Strategy) (tables : Tables NV) (subject : Sv NV) : Option Nat :=
  let best := tables.defaultClause
  let best := if subject.ok then best else sooner best tables.undefClause
  let best :=
    match subject.bool with
    | some b => sooner best (tables.boolClause b)
    | none => best
  if subject.ok then
    let best := sooner best (numericCandidate conv strategy tables.ivTable
      (dispatchOnIvInBounds tables.ivBounds subject) subject)
    let best := sooner best (numericCandidate conv strategy tables.nvTable
      (dispatchOnNvInBounds conv tables.nvBounds subject) subject)
    if dispatchOnPvInBounds tables.pvBounds subject then
      sooner best (dispatchOnHvCandidate conv tables.pvTable subject)
    else best
  else best

/-- The test of `pp_dispatch_on` when there are no tables. -/
def ppDispatchOn (subject : Sv NV) : Shape NV → Bool
  | .undef => !subject.ok
  | .bool b => subject.bool == some b
  | .integer i => patternNumeq conv subject (integerSv i)
  | .floating f => patternNumeq conv subject (floatSv f)
  | .string s => patternStreq conv subject (stringSv s)
  | .wildcard => true

def Integer.smallUV (i : Integer) : Bool := i.isUV && decide (i.uv.toNat < 2 ^ 63)

/-- The first clause in the order of the source whose test succeeds. -/
def sourceOrder (subject : Sv NV) (shapes : List (Shape NV)) : Option Nat :=
  shapes.findIdx? (ppDispatchOn conv subject)

/-- The clause that a dispatch selects: by its tables, or one test after the other. -/
def dispatch (mode : Mode) (shapes : List (Shape NV)) (subject : Sv NV) : Option Nat :=
  match dispatchOnCompile conv mode shapes with
  | some (strategy, tables) => ppDispatch conv strategy tables subject
  | none => sourceOrder conv subject shapes

theorem sign_congr {α β : Type} [LT α] [DecidableLT α] [LT β] [DecidableLT β] {x y : α} {x' y' : β}
    (hlt : x < y ↔ x' < y') (hgt : y < x ↔ y' < x') : sign x y = sign x' y' := by
  simp only [sign, hlt, hgt]

section Sign

variable {α β : Type} [LinearOrder α] [LinearOrder β]

theorem sign_eq_zero {x y : α} : sign x y = 0 ↔ x = y := by
  rw [sign]
  rcases lt_trichotomy x y with h | h | h
  · simp [h, h.ne]
  · simp [h]
  · simp [h, h.ne', h.not_gt]

theorem sign_eq_neg_one {x y : α} : sign x y = -1 ↔ x < y := by
  rw [sign]
  rcases lt_trichotomy x y with h | h | h
  · simp [h]
  · simp [h]
  · simp [h, h.not_gt]

theorem sign_pos {x y : α} : 0 < sign x y ↔ y < x := by
  rw [sign]
  rcases lt_trichotomy x y with h | h | h
  · simp [h, h.not_gt]
  · simp [h]
  · simp [h, h.not_gt]

theorem sign_mono {x x' : α} (y : α) (h : x ≤ x') : sign x y ≤ sign x' y := by
  simp only [sign]
  rcases lt_trichotomy x y with hx | hx | hx
  · rw [if_pos hx]
    split
    · exact Int.le_refl _
    · split
      · decide
      · decide
  · rw [if_neg hx.not_lt, if_neg hx.not_gt, if_neg (hx ▸ h).not_gt]
    split
    · decide
    · decide
  · have hx' := lt_of_lt_of_le hx h
    rw [if_neg hx.not_gt, if_pos hx, if_neg hx'.not_gt, if_pos hx']

end Sign

theorem Integer.iv_toInt (i : Integer) :
    i.iv.toInt = if i.uv.toNat < 2 ^ 63 then (i.uv.toNat : Int) else i.uv.toNat - 2 ^ 64 := by
  have hlt := i.uv.toNat_lt
  have hiv : i.iv.toInt = (i.uv.toNat : Int).bmod (2 ^ 64) := by
    change i.uv.toBitVec.toInt = _
    rw [BitVec.toInt_eq_toNat_bmod]
    rfl
  rw [hiv, Int.bmod_def]
  split <;> split <;> omega

theorem integerNcmp_eq (l r : Integer) : integerNcmp l r = sign l.value r.value := by
  have hl := l.iv_toInt
  have hr := r.iv_toInt
  have hlu := toNat_toUInt64 l.iv
  have hru := toNat_toUInt64 r.iv
  have hllt := l.uv.toNat_lt
  have hrlt := r.uv.toNat_lt
  have hlneg : l.iv < 0 ↔ l.iv.toInt < 0 := Int64.lt_iff_toInt_lt
  have hrneg : r.iv < 0 ↔ r.iv.toInt < 0 := Int64.lt_iff_toInt_lt
  rw [integerNcmp]
  cases hluv : l.isUV with
  | false =>
    cases hruv : r.isUV with
    | false =>
      simp only [Integer.value, hluv, hruv, if_true]
      exact sign_congr Int64.lt_iff_toInt_lt Int64.lt_iff_toInt_lt
    | true =>
      simp only [Integer.value, hluv, hruv, if_true]
      by_cases hneg : l.iv < 0
      · simp only [hneg, if_true]
        symm
        apply sign_eq_neg_one.2
        have hlneg' := hlneg.1 hneg
        simp only [Bool.false_eq_true, if_false]
        omega
      · simp only [hneg, Bool.true_eq_false, if_false]
        rw [hlneg] at hneg
        apply sign_congr
        · rw [UInt64.lt_iff_toNat_lt]
          simp only [Bool.false_eq_true, if_false]
          omega
        · rw [UInt64.lt_iff_toNat_lt]
          simp only [Bool.false_eq_true, if_false]
          omega
  | true =>
    cases hruv : r.isUV with
    | true =>
      simp only [Integer.value, hluv, hruv, if_true, Bool.true_eq_false, if_false]
      apply sign_congr
      · rw [UInt64.lt_iff_toNat_lt]
        omega
      · rw [UInt64.lt_iff_toNat_lt]
        omega
    | false =>
      simp only [Integer.value, hluv, hruv, if_true, Bool.true_eq_false, Bool.false_eq_true,
        if_false]
      by_cases hneg : r.iv < 0
      · simp only [hneg, if_true]
        symm
        have hrneg' := hrneg.1 hneg
        have hlt : r.iv.toInt < (l.uv.toNat : Int) := by omega
        simp only [sign, hlt, if_true, hlt.not_gt, if_false]
      · simp only [hneg, if_false]
        rw [hrneg] at hneg
        apply sign_congr
        · rw [UInt64.lt_iff_toNat_lt]
          omega
        · rw [UInt64.lt_iff_toNat_lt]
          omega

variable {conv}

theorem placeInt_lt_iff {f : NV} {i : Integer} (h : conv.toInteger f = some i) (n : Int) :
    (conv.placeInt i.value < conv.placeInt n ↔ i.value < n) ∧
      (conv.placeInt n < conv.placeInt i.value ↔ n < i.value) := by
  have hapart := conv.apart f i n h
  have hup := conv.placeInt_mono i.value n
  have hdown := conv.placeInt_mono n i.value
  constructor
  · constructor
    · intro hlt
      apply lt_of_not_ge
      intro hge
      exact absurd (hdown hge) (not_le_of_gt hlt)
    · intro hlt
      apply lt_of_le_of_ne (hup hlt.le)
      intro heq
      exact absurd (hapart heq.symm) hlt.ne'
  · constructor
    · intro hlt
      apply lt_of_not_ge
      intro hge
      exact absurd (hup hge) (not_le_of_gt hlt)
    · intro hlt
      apply lt_of_le_of_ne (hdown hlt.le)
      intro heq
      exact absurd (hapart heq) hlt.ne

theorem Scalar.place_svNV (s : Scalar conv) {i : Integer} (h : svIVPlease conv s.sv = some i) :
    conv.place (svNV conv s.sv) = some (conv.placeInt i.value) := by
  obtain ⟨⟨iok, nok, pok, rok, glob, bool⟩, hagree⟩ := s
  cases iok with
  | some j =>
    obtain rfl : j = i := Option.some.inj h
    cases nok with
    | some f => exact hagree j f rfl rfl
    | none => exact conv.place_ofInt j.value
  | none =>
    cases nok with
    | some f => exact conv.place_toInteger f i h
    | none =>
      cases pok with
      | some str => exact conv.place_number str i h
      | none => cases h

theorem doNcmp_integer (i : Integer) (s : Scalar conv) :
    doNcmp conv (integerSv i) s.sv = (match svIVPlease conv s.sv with
      | some n => sign i.value n.value
      | none => match conv.place (svNV conv s.sv) with
        | some y => sign (conv.placeInt i.value) y
        | none => 2) := by
  have hplease : svIVPlease conv (integerSv i : Sv NV) = some i := rfl
  have hnv : svNV conv (integerSv i : Sv NV) = conv.ofInt i.value := rfl
  rw [doNcmp, hplease, hnv]
  cases svIVPlease conv s.sv with
  | some n => exact integerNcmp_eq i n
  | none =>
    simp only [floatNcmp, conv.place_ofInt]
    cases conv.place (svNV conv s.sv) with
    | none => rfl
    | some y => rfl

theorem doNcmp_float (f : NV) (s : Scalar conv) :
    doNcmp conv (floatSv f) s.sv = floatNcmp conv f (svNV conv s.sv) := by
  have hplease : svIVPlease conv (floatSv f : Sv NV) = conv.toInteger f := rfl
  have hnv : svNV conv (floatSv f : Sv NV) = f := rfl
  rw [doNcmp, hplease, hnv]
  cases hs : svIVPlease conv s.sv with
  | none => rfl
  | some n =>
    cases hf : conv.toInteger f with
    | none => rfl
    | some m =>
      simp only [integerNcmp_eq, floatNcmp, s.place_svNV hs, conv.place_toInteger f m hf]
      obtain ⟨hlt, hgt⟩ := placeInt_lt_iff hf n.value
      exact sign_congr hlt.symm hgt.symm

theorem doNcmp_eq_zero_comm (a b : Sv NV) : doNcmp conv a b = 0 ↔ doNcmp conv b a = 0 := by
  have hint (l r : Integer) : integerNcmp l r = 0 ↔ integerNcmp r l = 0 := by
    rw [integerNcmp_eq, integerNcmp_eq, sign_eq_zero, sign_eq_zero]
    exact eq_comm
  have hfloat (x y : NV) : floatNcmp conv x y = 0 ↔ floatNcmp conv y x = 0 := by
    rw [floatNcmp, floatNcmp]
    cases conv.place x with
    | none =>
      cases conv.place y with
      | none => exact Iff.rfl
      | some _ => exact Iff.rfl
    | some p =>
      cases conv.place y with
      | none => exact Iff.rfl
      | some q =>
        simp only [sign_eq_zero]
        exact eq_comm
  rw [doNcmp, doNcmp]
  cases svIVPlease conv a with
  | none =>
    cases svIVPlease conv b with
    | none => exact hfloat _ _
    | some _ => exact hfloat _ _
  | some l =>
    cases svIVPlease conv b with
    | none => exact hfloat _ _
    | some r => exact hint l r

theorem floatNcmp_eq_zero {x y : NV} :
    floatNcmp conv x y = 0 ↔ ∃ p, conv.place x = some p ∧ conv.place y = some p := by
  rw [floatNcmp]
  cases conv.place x with
  | none => simp
  | some p =>
    cases conv.place y with
    | none => simp
    | some q =>
      simp only [sign_eq_zero, Option.some.injEq]
      constructor
      · intro h
        exact ⟨p, rfl, h.symm⟩
      · intro h
        obtain ⟨r, rfl, rfl⟩ := h
        rfl

theorem doNcmp_integer_iok (i : Integer) (s : Scalar conv) {n : Integer} (hs : s.sv.iok = some n) :
    doNcmp conv (integerSv i) s.sv = sign i.value n.value := by
  have hplease : svIVPlease conv s.sv = some n := by
    rw [svIVPlease, hs]
  rw [doNcmp_integer, hplease]

def SameHits (conv : Conversions NV L) (v w : Sv NV) : Prop :=
  ∀ s : Scalar conv, doNcmp conv v s.sv = 0 ↔ doNcmp conv w s.sv = 0

theorem SameHits.refl (v : Sv NV) : SameHits conv v v := fun _ => Iff.rfl

theorem sameHits_integer {i j : Integer}
    (h : doNcmp conv (integerSv i) (integerSv j) = 0) :
    SameHits conv (integerSv i) (integerSv j) := by
  have hint : integerNcmp i j = 0 := h
  rw [integerNcmp_eq, sign_eq_zero] at hint
  intro s
  rw [doNcmp_integer, doNcmp_integer, hint]

theorem sameHits_float {f g : NV}
    (h : doNcmp conv (floatSv f) (floatSv g) = 0) : SameHits conv (floatSv f) (floatSv g) := by
  have hagree : ∀ i f', (floatSv g : Sv NV).iok = some i → (floatSv g : Sv NV).nok = some f' →
      conv.place f' = some (conv.placeInt i.value) := by
    intro i f' hi
    cases hi
  have hplace := doNcmp_float f ⟨floatSv g, hagree⟩
  rw [h] at hplace
  obtain ⟨p, hf, hg⟩ := floatNcmp_eq_zero.1 hplace.symm
  change conv.place g = some p at hg
  intro s
  rw [doNcmp_float, doNcmp_float, floatNcmp_eq_zero, floatNcmp_eq_zero, hf, hg]

end XPerl.Dispatch
