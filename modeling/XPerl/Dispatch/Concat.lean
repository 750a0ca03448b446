import XPerl.Utf8.Sequences

/-! Concatenated string shapes of `pp_ctl.c`: their validation and `S_dispatch_pattern_concat_match`. -/

namespace XPerl.Dispatch

open XPerl.Utf8

/-- The text of a scalar: bytes, or characters that the buffer has as UTF-8. -/
inductive Pv where
  | bytes (pv : List U8)
  | utf8 (chars : List CodePoint)
  deriving DecidableEq, Repr

def Pv.pv : Pv → List U8
  | .bytes pv => pv
  | .utf8 chars => characters.encodeAll chars

/-- The characters, whichever way they are kept. -/
def Pv.chars : Pv → List CodePoint
  | .bytes pv => pv.map ofByte
  | .utf8 chars => chars

def svUtf8Upgrade : Pv → List U8
  | .bytes pv => upgrade pv
  | .utf8 chars => characters.encodeAll chars

/-- A copy as it is compared: upgraded, but for `use bytes`. -/
def normalized (inBytes : Bool) (sv : Pv) : List U8 :=
  if inBytes then sv.pv else svUtf8Upgrade sv

/-- The operands of a concatenation: a constant with its text, a variable to capture into, a pinned
variable, and whatever else. -/
inductive Part where
  | const (sv : Pv)
  | padsv (padix : Nat)
  | pin (padix : Nat)
  | other
  deriving DecidableEq, Repr

/-- `struct dispatch_pattern_node` for a concatenation. Ops of type `OP_NULL` have no node. -/
inductive Node where
  | part (p : Part)
  | concat (child : List Node)

inductive ConcatError where
  | expressionUnsupported
  | componentUnsupported
  | captureSeparatorMissing
  | duplicateCapture
  | adjacentCaptures
  deriving DecidableEq, Repr

mutual

def validateConcat : Node → Except ConcatError Unit
  | .concat [] => throw .expressionUnsupported
  | .concat (kid :: kids) => do
    validateConcat kid
    validateConcatKids kids
  | .part .other => throw .expressionUnsupported
  | .part _ => return ()

def validateConcatKids : List Node → Except ConcatError Unit
  | [] => return ()
  | kid :: kids => do
    validateConcat kid
    validateConcatKids kids

end

/-- `seen_capture` and `has_literal`. -/
structure Boundaries where
  seenCapture : Bool
  hasLiteral : Bool
  deriving DecidableEq, Repr

/-- An operand in `S_dispatch_pattern_validate_concat_boundaries`. -/
def Boundaries.see (b : Boundaries) : Part → Except ConcatError Boundaries
  | .const sv => return if sv.pv.length ≠ 0 then { b with hasLiteral := true } else b
  | .padsv _ =>
    if b.seenCapture && !b.hasLiteral then throw .captureSeparatorMissing
    else return ⟨true, false⟩
  | _ => return b

mutual

/-- `S_dispatch_pattern_validate_concat_boundaries`. -/
def validateConcatBoundaries : Node → Boundaries → Except ConcatError Boundaries
  | .concat kids, b => validateBoundariesKids kids b
  | .part p, b => b.see p

def validateBoundariesKids : List Node → Boundaries → Except ConcatError Boundaries
  | [], b => return b
  | kid :: kids, b => do
    let b ← validateConcatBoundaries kid b
    validateBoundariesKids kids b

end

/-- What `S_dispatch_pattern_validate` makes sure of for a concatenation. -/
def validate (node : Node) : Except ConcatError Unit := do
  validateConcat node
  let _ ← validateConcatBoundaries node ⟨false, false⟩
  return ()

mutual

def concatCount : Node → Nat
  | .part _ => 1
  | .concat child => concatCountKids child

def concatCountKids : List Node → Nat
  | [] => 0
  | part :: child => concatCount part + concatCountKids child

end

mutual

def concatFlatten (max : Nat) : Node → List Part → Option (List Part)
  | .part p, parts => if parts.length ≥ max then none else some (parts ++ [p])
  | .concat child, parts => concatFlattenKids max child parts

def concatFlattenKids (max : Nat) : List Node → List Part → Option (List Part)
  | [], parts => some parts
  | part :: child, parts =>
    match concatFlatten max part parts with
    | none => none
    | some parts => concatFlattenKids max child parts

end

def isCapture : Part → Bool
  | .padsv _ => true
  | _ => false

def isLiteral : Part → Bool
  | .const _ => true
  | _ => false

/-- `S_dispatch_pattern_concat_fixed_value`, with the texts of the variables of the pad. -/
def concatFixedValue (pad : Nat → Pv) : Part → Option Pv
  | .const sv => some sv
  | .pin padix => some (pad padix)
  | _ => none

/-- A part with its entry in `fixed_values`, which captures leave empty. -/
structure Fragment where
  part : Part
  fixed : List U8
  deriving DecidableEq, Repr

def fixedValues (inBytes : Bool) (pad : Nat → Pv) : List Part → Except ConcatError (List Fragment)
  | [] => return []
  | part :: parts => do
    let fixed ← if isCapture part then pure [] else
      match concatFixedValue pad part with
      | some raw => pure (normalized inBytes raw)
      | none => throw .componentUnsupported
    return ⟨part, fixed⟩ :: (← fixedValues inBytes pad parts)

/-- The inner loop over the literals that follow one: its text with theirs, and they left empty. -/
def mergeRun (text : List U8) : List Fragment → List U8 × List Fragment
  | [] => (text, [])
  | f :: fragments =>
    if isLiteral f.part then
      let (merged, rest) := mergeRun (text ++ f.fixed) fragments
      (merged, ⟨f.part, []⟩ :: rest)
    else (text, f :: fragments)

/-- `Adjacent literal fragments form one boundary`: the outer loop, over so many fragments. -/
def mergeLiterals : Nat → List Fragment → List Fragment
  | 0, fragments => fragments
  | _ + 1, [] => []
  | n + 1, f :: fragments =>
    if isLiteral f.part then
      let (merged, rest) := mergeRun f.fixed fragments
      ⟨f.part, merged⟩ :: mergeLiterals n rest
    else f :: mergeLiterals n fragments

def nextBoundary : List Fragment → Except ConcatError (Option (List U8))
  | [] => return none
  | f :: fragments =>
    if isCapture f.part then throw .adjacentCaptures
    else if f.fixed.length ≠ 0 then return some f.fixed
    else nextBoundary fragments

/-- The loop that validates all capture boundaries; `seen` are the captures before. -/
def validateCaptures (seen : List Nat) : List Fragment → Except ConcatError Unit
  | [] => return ()
  | f :: fragments =>
    match f.part with
    | .padsv padix =>
      if padix ∈ seen then throw .duplicateCapture
      else do
        let _ ← nextBoundary fragments
        validateCaptures (padix :: seen) fragments
    | _ => validateCaptures seen fragments

def scanFind (subject needle : List U8) : Nat → Nat → Option Nat
  | 0, _ => none
  | n + 1, pos =>
    if (subject.drop pos).take needle.length = needle then some pos
    else scanFind subject needle n (pos + 1)

def concatFind (subject : List U8) (start : Nat) (needle : List U8) : Option Nat :=
  if needle.length = 0 then some start
  else if needle.length > subject.length ∨ start > subject.length - needle.length then none
  else scanFind subject needle (subject.length - needle.length + 1 - start) start

/-- A binding: the variable and the text captured for it. -/
structure Captured where
  padix : Nat
  pv : List U8
  utf8 : Bool
  deriving DecidableEq, Repr

def matchFragments (utf8 : Bool) (subject : List U8) :
    List Fragment → Nat → List Captured → Except ConcatError (Bool × List Captured)
  | [], cursor, bindings => return (cursor == subject.length, bindings)
  | f :: fragments, cursor, bindings =>
    match f.part with
    | .padsv padix => do
      let found ← match ← nextBoundary fragments with
        | none => pure (some subject.length)
        | some text => pure (concatFind subject cursor text)
      match found with
      | none => return (false, bindings)
      | some stop =>
        let captured := (subject.drop cursor).take (stop - cursor)
        matchFragments utf8 subject fragments stop (bindings ++ [⟨padix, captured, utf8⟩])
    | _ =>
      if cursor > subject.length ∨ f.fixed.length > subject.length - cursor ∨
          (subject.drop cursor).take f.fixed.length ≠ f.fixed then
        return (false, bindings)
      else matchFragments utf8 subject fragments (cursor + f.fixed.length) bindings

/-- The flags of the subject that matter, and its text as `sv_copypv` gives it. -/
structure ConcatSubject where
  pok : Bool
  amagic : Bool
  isBool : Bool
  text : Pv

def concatMatch (inBytes : Bool) (pad : Nat → Pv) (node : Node) (value : ConcatSubject) :
    Except ConcatError (Bool × List Captured) :=
  if (!value.pok && !value.amagic) || value.isBool then return (false, [])
  else
    let subject := normalized inBytes value.text
    let capacity := concatCount node
    if capacity = 0 then throw .expressionUnsupported
    else
      match concatFlatten capacity node [] with
      | none => throw .expressionUnsupported
      | some parts => do
        let fragments ← fixedValues inBytes pad parts
        let fragments := mergeLiterals fragments.length fragments
        validateCaptures [] fragments
        matchFragments (!inBytes) subject fragments 0 []

end XPerl.Dispatch
