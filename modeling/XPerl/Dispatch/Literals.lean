import XPerl.Dispatch.Selection

/-! Constants as shapes: at the top level, in a table and as an item of an array. -/

namespace XPerl.Dispatch

open XPerl.Framework

variable {NV L : Type} [LinearOrder L] {conv : Conversions NV L}

/-- What the `==` and `eq` of an overloaded object answer for the other operand. -/
structure Overload (NV : Type) where
  numeq : Sv NV → Bool
  streq : Sv NV → Bool

/-- A scalar without get magic; only a reference to an object can be overloaded. -/
structure Subject (conv : Conversions NV L) where
  scalar : Scalar conv
  object : Bool
  overload : Option (Overload NV)
  object_of_overload : overload.isSome = true → object = true

/-- A constant shape: `OP_UNDEF`, or an `OP_CONST` that is no bareword. -/
inductive Literal (conv : Conversions NV L) where
  | undef
  | const (c : Scalar conv)

/-- The kinds of `dispatch_pattern_compile` for these shapes. -/
inductive Kind where
  | simpleUndef
  | simpleBool
  | simpleNum
  | simpleStr
  deriving DecidableEq, Repr

/-- The scalar of the op, which is `PL_sv_undef` for `OP_UNDEF`. -/
def Literal.sv : Literal conv → Sv NV
  | .undef => ⟨none, none, none, none, none, none⟩
  | .const c => c.sv

/-- The choice of `aux->kind` in `dispatch_pattern_compile`. -/
def Literal.kind : Literal conv → Kind
  | .undef => .simpleUndef
  | .const c =>
    if c.sv.bool.isSome then .simpleBool
    else if c.sv.iok.isSome || c.sv.nok.isSome then .simpleNum
    else .simpleStr

variable (conv)

/-- `S_dispatch_pattern_numeq`, which leaves an overloaded operand to its method. -/
def subjectNumeq (subject : Subject conv) (value : Sv NV) : Bool :=
  match subject.overload with
  | some methods => methods.numeq value
  | none => patternNumeq conv subject.scalar.sv value

def subjectStreq (subject : Subject conv) (value : Sv NV) : Bool :=
  match subject.overload with
  | some methods => subject.scalar.sv.ok && value.ok && methods.streq value
  | none => patternStreq conv subject.scalar.sv value

def sameBool (subject : Subject conv) (value : Sv NV) : Bool :=
  subject.scalar.sv.bool.isSome && subject.scalar.sv.bool == value.bool

/-- The branches of `pp_dispatch_on` for the simple kinds. -/
def matchesSimple (pattern : Literal conv) (subject : Subject conv) : Bool :=
  match pattern.kind with
  | .simpleUndef => !subject.scalar.sv.ok
  | .simpleBool => sameBool conv subject pattern.sv
  | .simpleNum => subjectNumeq conv subject pattern.sv
  | .simpleStr => subjectStreq conv subject pattern.sv

/-- The branches of `S_dispatch_pattern_match` for `OP_UNDEF` and `OP_CONST`. -/
def patternMatch (pattern : Literal conv) (value : Subject conv) : Bool :=
  match pattern with
  | .undef => !value.scalar.sv.ok
  | .const c =>
    if c.sv.bool.isSome then sameBool conv value c.sv
    else if !c.sv.bool.isSome && !c.sv.pok.isSome && c.sv.niok then subjectNumeq conv value c.sv
    else subjectStreq conv value c.sv

/-- A value that a shape is matched with: a scalar, or a reference to an array and what the array
has at its indexes. -/
inductive Value (conv : Conversions NV L) where
  | scalar (subject : Subject conv)
  | arrayRef (av : List (Option (Subject conv)))

def undefSubject : Subject conv where
  scalar := ⟨⟨none, none, none, none, none, none⟩, fun _ _ h => by cases h⟩
  object := false
  overload := none
  object_of_overload h := by cases h

/-- The items of an array shape one after the other, where `av_fetch` finds nothing as undef. -/
def matchItems : List (Literal conv) → List (Option (Subject conv)) → Bool
  | [], _ => true
  | _ :: _, [] => false
  | item :: items, svp :: av =>
    patternMatch conv item (svp.getD (undefSubject conv)) && matchItems items av

/-- The array branch of `S_dispatch_pattern_match` for a shape whose items are constants. -/
def patternMatchArray (items : List (Literal conv)) : Value conv → Bool
  | .scalar _ => false
  | .arrayRef av =>
    if av.length < items.length then false
    else if av.length ≠ items.length then false
    else matchItems conv items av

/-- What `dispatch_on_compile` does with the clause of a constant shape. -/
def Tables.addLiteral (tables : Tables NV) (clause : Nat) (pattern : Literal conv) : Tables NV :=
  match pattern.kind with
  | .simpleUndef => { tables with undefClause := tables.undefClause.or (some clause) }
  | .simpleBool =>
    match pattern.sv.bool with
    | some b =>
      { tables with
        boolClause := fun b' =>
          if b' = b then (tables.boolClause b).or (some clause) else tables.boolClause b' }
    | none => tables
  | .simpleNum =>
    match pattern.sv.nok, pattern.sv.iok with
    | some f, _ =>
      { tables with
        nvBounds := some (dispatchOnAddNvBound conv tables.nvBounds f)
        nvTable := dispatchOnPush conv tables.nvTable pattern.sv clause }
    | none, some i =>
      { tables with
        ivBounds := some (dispatchOnAddIvBound tables.ivBounds i)
        ivTable := dispatchOnPush conv tables.ivTable pattern.sv clause }
    | none, none => tables
  | .simpleStr =>
    { tables with
      pvBounds := some (dispatchOnAddPvBound tables.pvBounds (svPV conv pattern.sv).length)
      pvTable := dispatchOnStore tables.pvTable (svPV conv pattern.sv) clause }

open Tables

def Tables.addLiterals (tables : Tables NV) (clause : Nat) : List (Literal conv) → Tables NV
  | [] => tables
  | pattern :: patterns =>
    (tables.addLiteral conv clause pattern).addLiterals (clause + 1) patterns

/-- `dispatch_on_compile` for clauses with constant shapes. -/
def dispatchOnCompileLiterals (mode : Mode) (patterns : List (Literal conv)) :
    Option (Strategy × Tables NV) :=
  if patterns = [] then none
  else
    let tables := (Tables.new NV).addLiterals conv 0 patterns
    match dispatchOnStrategy mode patterns.length with
    | .none => none
    | .arrayLinear => some (.arrayLinear, tables)
    | .arrayBinary =>
      some (.arrayBinary,
        { tables with
          ivTable := dispatchOnSort conv tables.ivTable
          nvTable := dispatchOnSort conv tables.nvTable })

/-- The clause of a dispatch over constants: by its tables, which an object does not use, or one
test after the other. -/
def dispatchLiterals (mode : Mode) (patterns : List (Literal conv)) (subject : Subject conv) :
    Option Nat :=
  match dispatchOnCompileLiterals conv mode patterns with
  | some (strategy, tables) =>
    if subject.object then patterns.findIdx? (matchesSimple conv · subject)
    else ppDispatch conv strategy tables subject.scalar.sv
  | none => patterns.findIdx? (matchesSimple conv · subject)

variable {conv}

/-- A constant with a string and a number, which is no boolean. -/
def Literal.dual : Literal conv → Bool
  | .undef => false
  | .const c => c.sv.bool.isNone && c.sv.pok.isSome && c.sv.niok

def Literal.hollow : Literal conv → Bool
  | .undef => false
  | .const c => c.sv.bool.isNone && !c.sv.ok

theorem matchesSimple_eq {pattern : Literal conv} (h : pattern.dual = false)
    (subject : Subject conv) :
    matchesSimple conv pattern subject = patternMatch conv pattern subject := by
  cases pattern with
  | undef => rfl
  | const c =>
    simp only [Literal.dual] at h
    cases hbool : c.sv.bool with
    | some b => simp [matchesSimple, patternMatch, Literal.kind, Literal.sv, hbool]
    | none =>
      cases hniok : c.sv.niok with
      | false =>
        have hflags : (c.sv.iok.isSome || c.sv.nok.isSome) = false := hniok
        simp [matchesSimple, patternMatch, Literal.kind, Literal.sv, hbool, hniok, hflags]
      | true =>
        have hflags : (c.sv.iok.isSome || c.sv.nok.isSome) = true := hniok
        have hpok : c.sv.pok = none := by simpa [hbool, hniok] using h
        simp [matchesSimple, patternMatch, Literal.kind, Literal.sv, hbool, hniok, hflags, hpok]

theorem place_of_equal {a b : Scalar conv} (h : doNcmp conv a.sv b.sv = 0) :
    ∃ p, conv.place (svNV conv a.sv) = some p ∧ conv.place (svNV conv b.sv) = some p := by
  rw [doNcmp] at h
  cases ha : svIVPlease conv a.sv with
  | none =>
    cases hb : svIVPlease conv b.sv with
    | none =>
      rw [ha, hb] at h
      exact floatNcmp_eq_zero.1 h
    | some r =>
      rw [ha, hb] at h
      exact floatNcmp_eq_zero.1 h
  | some l =>
    cases hb : svIVPlease conv b.sv with
    | none =>
      rw [ha, hb] at h
      exact floatNcmp_eq_zero.1 h
    | some r =>
      rw [ha, hb] at h
      simp only [integerNcmp_eq, sign_eq_zero] at h
      refine ⟨conv.placeInt l.value, a.place_svNV ha, ?_⟩
      rw [h]
      exact b.place_svNV hb

theorem ivInBounds_single {c v : Scalar conv} {i : Integer} (hc : c.sv.iok = some i)
    (h : doNcmp conv c.sv v.sv = 0) :
    dispatchOnIvInBounds (some (dispatchOnAddIvBound none i)) v.sv = true := by
  cases hv : v.sv.iok with
  | none => exact ivInBounds_of_none _ hv
  | some s =>
    have hleft : svIVPlease conv c.sv = some i := by rw [svIVPlease, hc]
    have hright : svIVPlease conv v.sv = some s := by rw [svIVPlease, hv]
    have hvalue : i.value = s.value := by
      rw [doNcmp, hleft, hright] at h
      simp only [integerNcmp_eq, sign_eq_zero] at h
      exact h
    rw [ivInBounds_iff _ hv, ← hvalue]
    exact ⟨le_refl i.value, le_refl i.value⟩

theorem nvInBounds_single {c v : Scalar conv} {f : NV} (hc : c.sv.nok = some f)
    (h : doNcmp conv c.sv v.sv = 0) :
    dispatchOnNvInBounds conv (some (dispatchOnAddNvBound conv none f)) v.sv = true := by
  cases hv : v.sv.nok with
  | none => exact nvInBounds_of_none _ hv
  | some nv =>
    obtain ⟨p, hleft, hright⟩ := place_of_equal h
    have hcf : svNV conv c.sv = f := by rw [svNV, hc]
    have hvnv : svNV conv v.sv = nv := by rw [svNV, hv]
    rw [hcf] at hleft
    rw [hvnv] at hright
    simp only [dispatchOnNvInBounds, dispatchOnAddNvBound, hv, Bool.and_eq_true]
    exact ⟨nvLe_of hleft hright (le_refl p), nvLe_of hright hleft (le_refl p)⟩

theorem binaryCandidate_single (c v : Sv NV) (n : Nat) :
    dispatchOnBinaryCandidate conv [(c, n)] v =
      if doNcmp conv c v = 0 then some n else none := by
  by_cases hneg : doNcmp conv c v < 0
  · have hne : doNcmp conv c v ≠ 0 := by omega
    simp [dispatchOnBinaryCandidate, bisect, hneg, hne, equalRun]
  · by_cases hzero : doNcmp conv c v = 0
    · simp [dispatchOnBinaryCandidate, bisect, hzero, equalRun, sooner]
    · simp [dispatchOnBinaryCandidate, bisect, hneg, hzero, equalRun]

theorem numericCandidate_single {c v : Scalar conv} (hc : c.sv.niok = true) (strategy : Strategy)
    (n : Nat) {inBounds : Bool} (h : doNcmp conv c.sv v.sv = 0 → inBounds = true) :
    numericCandidate conv strategy [(c.sv, n)] inBounds v.sv =
      if patternNumeq conv v.sv c.sv = true then some n else none := by
  have hiff : patternNumeq conv v.sv c.sv = true ↔ numericallyComparable conv v.sv = true ∧
      doNcmp conv c.sv v.sv = 0 := patternNumeq_iff hc
  by_cases hnumeq : patternNumeq conv v.sv c.sv = true
  · obtain ⟨hcomparable, hzero⟩ := hiff.1 hnumeq
    rw [if_pos hnumeq, numericCandidate, hcomparable, h hzero]
    simp [dispatchOnCandidate, hnumeq, binaryCandidate_single, hzero]
  · rw [if_neg hnumeq, numericCandidate]
    cases hcomparable : numericallyComparable conv v.sv with
    | false => rfl
    | true =>
      have hne : doNcmp conv c.sv v.sv ≠ 0 := fun hzero => hnumeq (hiff.2 ⟨hcomparable, hzero⟩)
      have hlinear : dispatchOnCandidate conv [(c.sv, n)] v.sv = none := by
        simp [dispatchOnCandidate, hnumeq]
      have hbinary : dispatchOnBinaryCandidate conv [(c.sv, n)] v.sv = none := by
        rw [binaryCandidate_single, if_neg hne]
      rw [hlinear, hbinary, ite_self, ite_self]

theorem numericCandidate_nil (strategy : Strategy) (inBounds : Bool) (v : Sv NV) :
    numericCandidate conv strategy [] inBounds v = none := by
  have hbinary : dispatchOnBinaryCandidate conv [] v = none := rfl
  rw [numericCandidate, hbinary]
  simp [dispatchOnCandidate]

section Tables

variable (strategy : Strategy) {c : Scalar conv} (subject : Subject conv)

def selected (pattern : Literal conv) : Option Nat :=
  ppDispatch conv strategy (((Tables.new NV).addLiteral conv 0 pattern).arranged conv strategy)
    subject.scalar.sv

theorem selected_undef :
    selected strategy subject (Literal.undef) =
      if matchesSimple conv Literal.undef subject = true then some 0 else none := by
  have hnil : dispatchOnSort conv [] = [] := rfl
  rw [selected, ppDispatch_eq]
  cases hok : subject.scalar.sv.ok with
  | false =>
    simp [addLiteral, Literal.kind, arranged, new, matchesSimple, hok, hnil,
      numericCandidate_nil, sooner]
  | true =>
    simp [addLiteral, Literal.kind, arranged, new, matchesSimple, hok, hnil,
      numericCandidate_nil, sooner, dispatchOnHvCandidate]

theorem selected_bool {b : Bool} (hbool : c.sv.bool = some b) :
    selected strategy subject (.const c) =
      if matchesSimple conv (.const c) subject = true then some 0 else none := by
  have hnil : dispatchOnSort conv [] = [] := rfl
  have hkind : (Literal.const c).kind = .simpleBool := by simp [Literal.kind, hbool]
  rw [selected, ppDispatch_eq]
  cases hsubject : subject.scalar.sv.bool with
  | none =>
    simp [addLiteral, hkind, Literal.sv, hbool, arranged, new, matchesSimple,
      sameBool, hsubject, hnil, numericCandidate_nil, sooner, dispatchOnHvCandidate]
  | some b' =>
    by_cases heq : b' = b
    · simp [addLiteral, hkind, Literal.sv, hbool, arranged, new, matchesSimple,
        sameBool, hsubject, heq, hnil, numericCandidate_nil, sooner, dispatchOnHvCandidate]
    · simp [addLiteral, hkind, Literal.sv, hbool, arranged, new, matchesSimple,
        sameBool, hsubject, heq, hnil, numericCandidate_nil, sooner, dispatchOnHvCandidate]

theorem selected_num (hbool : c.sv.bool = none) (hniok : c.sv.niok = true)
    (hoverload : subject.overload = none) :
    selected strategy subject (.const c) =
      if matchesSimple conv (.const c) subject = true then some 0 else none := by
  have hnil : dispatchOnSort conv [] = [] := rfl
  have hsort (x : Sv NV × Nat) : dispatchOnSort conv [x] = [x] := rfl
  have hfirst (a : Option Nat) : sooner none a = a := rfl
  have hflags : (c.sv.iok.isSome || c.sv.nok.isSome) = true := hniok
  have hkind : (Literal.const c).kind = .simpleNum := by simp [Literal.kind, hbool, hflags]
  have hmatches : matchesSimple conv (.const c) subject =
      patternNumeq conv subject.scalar.sv c.sv := by
    simp [matchesSimple, hkind, subjectNumeq, hoverload, Literal.sv]
  rw [selected, ppDispatch_eq, hmatches]
  cases hnok : c.sv.nok with
  | some f =>
    have hcandidate := numericCandidate_single (v := subject.scalar) hniok strategy 0
      (nvInBounds_single hnok)
    simp [addLiteral, hkind, Literal.sv, hnok, arranged, new, hnil, hsort,
      dispatchOnPush, numericCandidate_nil, hcandidate, hfirst, sooner_none, dispatchOnHvCandidate]
  | none =>
    obtain ⟨i, hiok⟩ : ∃ i, c.sv.iok = some i := by
      rw [hnok] at hflags
      exact Option.isSome_iff_exists.1 (by simpa using hflags)
    have hcandidate := numericCandidate_single (v := subject.scalar) hniok strategy 0
      (ivInBounds_single hiok)
    simp [addLiteral, hkind, Literal.sv, hnok, hiok, arranged, new, hnil,
      hsort, dispatchOnPush, numericCandidate_nil, hcandidate, hfirst, sooner_none,
      dispatchOnHvCandidate]

theorem pvInBounds_single {v : Sv NV} {s : Str} (h : svPV conv v = s) :
    dispatchOnPvInBounds (some (dispatchOnAddPvBound none s.length)) v = true := by
  cases hv : v.pok with
  | none => exact pvInBounds_of_none _ hv
  | some t =>
    have heq : t = s := by
      rw [svPV, hv] at h
      exact h
    simp [dispatchOnPvInBounds, dispatchOnAddPvBound, hv, heq]

theorem selected_str (hbool : c.sv.bool = none) (hniok : c.sv.niok = false) :
    selected strategy subject (.const c) =
      if subject.scalar.sv.ok = true ∧ svPV conv subject.scalar.sv = svPV conv c.sv then some 0
      else none := by
  have hnil : dispatchOnSort conv [] = [] := rfl
  have hfirst (a : Option Nat) : sooner none a = a := rfl
  have hflags : (c.sv.iok.isSome || c.sv.nok.isSome) = false := hniok
  have hkind : (Literal.const c).kind = .simpleStr := by simp [Literal.kind, hbool, hflags]
  have hstore (s : Str) : dispatchOnStore [] s 0 = [(dispatchOnKey s, 0)] := rfl
  have hfound : dispatchOnHvCandidate conv [(dispatchOnKey (svPV conv c.sv), 0)]
      subject.scalar.sv =
      if svPV conv subject.scalar.sv = svPV conv c.sv then some 0 else none := by
    by_cases heq : svPV conv subject.scalar.sv = svPV conv c.sv
    · simp [dispatchOnHvCandidate, heq]
    · simp [dispatchOnHvCandidate, dispatchOnKey, beq_eq_false_iff_ne.2 heq, heq, List.lookup_cons]
  rw [selected, ppDispatch_eq]
  simp only [addLiteral, hkind, Literal.sv, arranged, new, hnil, ite_self,
    numericCandidate_nil, hfirst, sooner_none, hstore, hfound]
  by_cases heq : svPV conv subject.scalar.sv = svPV conv c.sv
  · simp [pvInBounds_single heq, heq, hfirst]
  · simp [heq, hfirst]

theorem selected_eq {pattern : Literal conv} (h : pattern.hollow = false)
    (hoverload : subject.overload = none) :
    selected strategy subject pattern =
      if matchesSimple conv pattern subject = true then some 0 else none := by
  cases pattern with
  | undef => exact selected_undef strategy subject
  | const c =>
    cases hbool : c.sv.bool with
    | some b => exact selected_bool strategy subject hbool
    | none =>
      cases hniok : c.sv.niok with
      | true => exact selected_num strategy subject hbool hniok hoverload
      | false =>
        have hflags : (c.sv.iok.isSome || c.sv.nok.isSome) = false := hniok
        have hok : c.sv.ok = true := by simpa [Literal.hollow, hbool] using h
        rw [selected_str strategy subject hbool hniok]
        simp [matchesSimple, Literal.kind, Literal.sv, hbool, hflags, subjectStreq, hoverload,
          patternStreq, hok]

end Tables

theorem dispatchLiterals_single (mode : Mode) {pattern : Literal conv}
    (h : pattern.hollow = false) (subject : Subject conv) :
    dispatchLiterals conv mode [pattern] subject =
      if matchesSimple conv pattern subject = true then some 0 else none := by
  have hsource : [pattern].findIdx? (matchesSimple conv · subject) =
      if matchesSimple conv pattern subject = true then some 0 else none := by
    by_cases hmatch : matchesSimple conv pattern subject = true <;> simp [hmatch]
  have htable (strategy : Strategy) (hobject : subject.object = false) :
      ppDispatch conv strategy
        (((new NV).addLiteral conv 0 pattern).arranged conv strategy) subject.scalar.sv =
      if matchesSimple conv pattern subject = true then some 0 else none := by
    apply selected_eq strategy subject h
    cases hoverload : subject.overload with
    | none => rfl
    | some methods =>
      have htrue := subject.object_of_overload (by rw [hoverload]; rfl)
      rw [hobject] at htrue
      cases htrue
  rw [dispatchLiterals, dispatchOnCompileLiterals, if_neg (List.cons_ne_nil _ _)]
  cases hstrategy : dispatchOnStrategy mode [pattern].length with
  | none => exact hsource
  | arrayLinear =>
    cases hobject : subject.object with
    | true => exact hsource
    | false => exact htable .arrayLinear hobject
  | arrayBinary =>
    cases hobject : subject.object with
    | true => exact hsource
    | false => exact htable .arrayBinary hobject

theorem patternMatchArray_single (pattern : Literal conv) (subject : Subject conv) :
    patternMatchArray conv [pattern] (.arrayRef [some subject]) =
      patternMatch conv pattern subject := by
  simp [patternMatchArray, matchItems]

/-- For one constant: the simple kinds, the table and the item of an array agree, and a constant
with both values is compared as a string. -/
structure Uniform (pattern : Literal conv) : Prop where
  simple : ∀ subject, matchesSimple conv pattern subject =
    patternMatchArray conv [pattern] (.arrayRef [some subject])
  table : ∀ mode subject, dispatchLiterals conv mode [pattern] subject = some 0 ↔
    patternMatchArray conv [pattern] (.arrayRef [some subject]) = true
  string : pattern.dual = true → ∀ subject,
    matchesSimple conv pattern subject = subjectStreq conv subject pattern.sv ∧
      patternMatchArray conv [pattern] (.arrayRef [some subject]) =
        subjectStreq conv subject pattern.sv

/-- A scalar as a subject that is no object. -/
def Scalar.subject (scalar : Scalar conv) : Subject conv :=
  ⟨scalar, false, none, fun h => by cases h⟩

theorem exists_numeq_ne_streq {c : Scalar conv} (hniok : c.sv.niok = true)
    (hpok : c.sv.pok.isSome = true) :
    ∃ subject, subjectNumeq conv subject c.sv ≠ subjectStreq conv subject c.sv := by
  obtain ⟨s, hs⟩ := Option.isSome_iff_exists.1 hpok
  let other : Scalar conv := ⟨{ c.sv with pok := some (s ++ [0]) }, c.agree⟩
  have hcompare : doNcmp conv other.sv c.sv = doNcmp conv c.sv c.sv := by
    obtain ⟨⟨iok, nok, pok, rok, glob, bool⟩, hagree⟩ := c
    cases iok with
    | some i => cases nok <;> rfl
    | none =>
      cases nok with
      | some f => rfl
      | none => cases hniok
  have hcomparable (sv : Sv NV) (h : sv.niok = true) : numericallyComparable conv sv = true := by
    simp [numericallyComparable, h]
  have hother : other.sv.niok = true := hniok
  by_cases hzero : doNcmp conv c.sv c.sv = 0
  · refine ⟨other.subject, ?_⟩
    have hnumeq : subjectNumeq conv other.subject c.sv = true := by
      rw [hzero] at hcompare
      simp [subjectNumeq, Scalar.subject, patternNumeq, hcomparable _ hother, hcomparable _ hniok,
        hcompare]
    have hstreq : subjectStreq conv other.subject c.sv = false := by
      simp [subjectStreq, Scalar.subject, patternStreq, svPV, hs, other]
    rw [hnumeq, hstreq]
    decide
  · refine ⟨c.subject, ?_⟩
    have hok : c.sv.ok = true := by simp [Sv.ok, hs]
    have hnumeq : subjectNumeq conv c.subject c.sv = false := by
      simp [subjectNumeq, Scalar.subject, patternNumeq, hzero]
    have hstreq : subjectStreq conv c.subject c.sv = true := by
      simp [subjectStreq, Scalar.subject, patternStreq, hok]
    rw [hnumeq, hstreq]
    decide

/-- The condition is exact: a constant is treated alike everywhere unless it has both values, or
is an `OP_CONST` without a defined value. -/
theorem uniform_iff (pattern : Literal conv) :
    Uniform pattern ↔ pattern.dual = false ∧ pattern.hollow = false := by
  constructor
  · intro h
    cases pattern with
    | undef => exact ⟨rfl, rfl⟩
    | const c =>
      cases hbool : c.sv.bool with
      | some b => simp [Literal.dual, Literal.hollow, hbool]
      | none =>
        constructor
        · cases hdual : (Literal.const c).dual with
          | false => rfl
          | true =>
            have hboth : c.sv.pok.isSome = true ∧ c.sv.niok = true := by
              simpa [Literal.dual, hbool] using hdual
            obtain ⟨subject, hne⟩ := exists_numeq_ne_streq hboth.2 hboth.1
            have hflags : (c.sv.iok.isSome || c.sv.nok.isSome) = true := hboth.2
            have hkind : (Literal.const c).kind = .simpleNum := by
              simp [Literal.kind, hbool, hflags]
            have hsimple : matchesSimple conv (.const c) subject = subjectNumeq conv subject c.sv := by
              simp only [matchesSimple, hkind, Literal.sv]
            exact absurd (hsimple.symm.trans (h.string hdual subject).1) hne
        · cases hok : c.sv.ok with
          | true => simp [Literal.hollow, hok]
          | false =>
            have hniok : c.sv.niok = false := by
              simp only [Sv.ok, Bool.or_eq_false_iff] at hok
              simp [Sv.niok, hok]
            let subject : Subject conv := Scalar.subject
              ⟨stringSv (svPV conv c.sv), fun _ _ h => by cases h⟩
            have htable : dispatchLiterals conv .unset [.const c] subject = some 0 := by
              have hselected := selected_str .arrayLinear subject hbool hniok
              rw [if_pos ⟨rfl, rfl⟩] at hselected
              exact hselected
            have hmatch := (h.table .unset subject).1 htable
            rw [patternMatchArray_single] at hmatch
            have hfails : patternMatch conv (.const c) subject = false := by
              simp [patternMatch, hbool, hniok, subjectStreq, subject, Scalar.subject, patternStreq,
                hok]
            rw [hfails] at hmatch
            cases hmatch
  · intro h
    obtain ⟨hdual, hhollow⟩ := h
    have hsimple := matchesSimple_eq hdual
    refine ⟨?_, ?_, ?_⟩
    · intro subject
      rw [patternMatchArray_single, hsimple]
    · intro mode subject
      rw [patternMatchArray_single, dispatchLiterals_single mode hhollow, hsimple]
      simp
    · intro htrue
      rw [hdual] at htrue
      cases htrue

/-- The number 5 with the string "x". -/
def fiveX : Scalar halves where
  sv := ⟨some ⟨false, 5⟩, none, some [120], none, none, none⟩
  agree i f _ h := by cases h

/-- The integer 5. -/
def five : Scalar halves where
  sv := integerSv ⟨false, 5⟩
  agree i f _ h := by cases h

/-- A constant with both values matches its number at the top level and its string in an array. -/
theorem constant_with_both_values :
    (Literal.const fiveX).dual = true ∧
      matchesSimple halves (.const fiveX) five.subject = true ∧
      dispatchLiterals halves .unset [.const fiveX] five.subject = some 0 ∧
      patternMatchArray halves [.const fiveX] (.arrayRef [some five.subject]) = false := by
  decide

end XPerl.Dispatch
