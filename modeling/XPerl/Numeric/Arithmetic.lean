import XPerl.Framework.Lanes

/-! The integer operators of `pp_hot.c` and `pp.c`, with the overflow tests of `inline.h`. -/

namespace XPerl.Numeric

open XPerl.Framework

/-- Which overflow tests the compiler provides; the others are the fallbacks of `inline.h`. -/
structure Build where
  ivAdd : Bool
  ivSub : Bool
  ivMul : Bool
  uvAdd : Bool
  uvMul : Bool
  deriving DecidableEq, Repr

/-- The flags and slots that the operators read; `otherOk` stands for the flags of `SvOK` without a
use here. -/
structure Sv (NV : Type) where
  iok : Bool
  pIok : Bool
  nok : Bool
  pok : Bool
  otherOk : Bool
  isUV : Bool
  gmg : Bool
  uvx : UInt64
  nvx : NV

variable {NV : Type}

def Sv.ok (sv : Sv NV) : Bool := sv.iok || sv.pIok || sv.nok || sv.pok || sv.otherOk

def Sv.ivx (sv : Sv NV) : Int64 := sv.uvx.toInt64

def Sv.value (sv : Sv NV) : Int := if sv.isUV then sv.uvx.toNat else sv.ivx.toInt

/-- Floating point and the conversions of `sv.c`. -/
structure Floats (NV : Type) where
  add : NV → NV → NV
  sub : NV → NV → NV
  mul : NV → NV → NV
  neg : NV → NV
  zero : NV
  ofUV : UInt64 → NV
  losslessNVToIV : NV → Option Int64
  sv2iv : Sv NV → Sv NV
  svNV : Sv NV → NV

/-- What the operators store in TARG. -/
inductive Value (NV : Type) where
  | iv (i : Int64)
  | uv (u : UInt64)
  | nv (n : NV)
  deriving DecidableEq, Repr

/-- What the stores look at in TARG: `bareIV` is type SVt_IV without THINKFIRST and IVisUV. -/
structure Targ where
  bareIV : Bool
  tainted : Bool
  deriving DecidableEq, Repr

def Targ.cheap (targ : Targ) (doTaint : Bool) : Bool :=
  targ.bareIV && (if doTaint then !targ.tainted else true)

def ivMax : UInt64 := 0x7FFFFFFFFFFFFFFF

def svSetiv (i : Int64) : Value NV := .iv i

def svSetuv (u : UInt64) : Value NV :=
  if u ≤ ivMax then svSetiv u.toInt64 else .uv u

def targi (targ : Targ) (i : Int64) (doTaint : Bool) : Value NV :=
  if targ.cheap doTaint then .iv i else svSetiv i

/-- `TARGu`: the cheap store takes only what an IV can hold. -/
def targu (targ : Targ) (u : UInt64) (doTaint : Bool) : Value NV :=
  if targ.cheap doTaint && u ≤ ivMax then .iv u.toInt64 else svSetuv u

/-- Code whose signed operations may overflow: `none` is undefined behaviour. -/
abbrev Defined (α : Type) := Option α

/-- `NEGATE_2UV`: the absolute value of a negative IV. -/
def negate2UV (iv : Int64) : Defined UInt64 :=
  if iv < 0 then do
    let next ← checked (iv.toInt + 1)
    let negated ← checked (-next.toInt)
    return negated.toUInt64 + 1
  else none

def absIVMin : UInt64 := 0x8000000000000000

/-- `NEGATE_2IV`: the negative of an absolute value. -/
def negate2IV (uv : UInt64) : Defined Int64 :=
  if uv ≤ absIVMin then
    if uv < 8 then checked (-uv.toInt64.toInt)
    else do
      let negated ← checked (-(uv - 8).toInt64.toInt)
      checked (negated.toInt - 8)
  else none

/-- The overflow test shared by the fallbacks of addition and subtraction: both operands
have two equal top bits. -/
def ivTopBitsDiffer (il ir : Int64) : Bool :=
  let topl : UInt64 := il.toUInt64 >>> 62
  let topr : UInt64 := ir.toUInt64 >>> 62
  let tops : UInt64 := (topl + 1) ||| (topr + 1)
  tops &&& (2 : UInt64) != 0

def ivAddMayOverflow (build : Build) (il ir : Int64) : Defined (Option Int64) :=
  if build.ivAdd then some (checked (il.toInt + ir.toInt))
  else if !ivTopBitsDiffer il ir then do
    let result ← checked (il.toInt + ir.toInt)
    return some result
  else return none

def ivSubMayOverflow (build : Build) (il ir : Int64) : Defined (Option Int64) :=
  if build.ivSub then some (checked (il.toInt - ir.toInt))
  else if !ivTopBitsDiffer il ir then do
    let result ← checked (il.toInt - ir.toInt)
    return some result
  else return none

def ivTopHalvesDiffer (il ir : Int64) : Bool :=
  let topl : UInt64 := il.toUInt64 >>> 31
  let topr : UInt64 := ir.toUInt64 >>> 31
  let tops : UInt64 := (topl + 1) ||| (topr + 1)
  tops &&& (((1 : UInt64) <<< 33) - 2) != 0

def ivMulMayOverflow (build : Build) (il ir : Int64) : Defined (Option Int64) :=
  if build.ivMul then some (checked (il.toInt * ir.toInt))
  else if !ivTopHalvesDiffer il ir then do
    let result ← checked (il.toInt * ir.toInt)
    return some result
  else return none

/-- The strict unsigned tests: `none` is "overflow". -/
def uvAddOverflow (build : Build) (auv buv : UInt64) : Option UInt64 :=
  if build.uvAdd then
    if auv.toNat + buv.toNat < 2 ^ 64 then some (auv + buv) else none
  else
    let result := auv + buv
    if result < auv then none else some result

def uvMulOverflow (build : Build) (auv buv : UInt64) : Option UInt64 :=
  if build.uvMul then
    if auv.toNat * buv.toNat < 2 ^ 64 then some (auv * buv) else none
  else
    let topmask : UInt64 := (~~~ (0 : UInt64)) <<< 32
    let botmask := ~~~ topmask
    let ahigh := auv >>> 32
    let alow := auv &&& botmask
    let bhigh := buv >>> 32
    let blow := buv &&& botmask
    if ahigh != 0 && bhigh != 0 then none
    else if ahigh != 0 || bhigh != 0 then
      let productMiddle := ahigh * blow + alow * bhigh
      if productMiddle &&& topmask != 0 then none
      else uvAddOverflow build (productMiddle <<< 32) (alow * blow)
    else uvAddOverflow build 0 (alow * blow)

/-- The special case for simple operands: `none` goes on to `generic`. -/
def simpleCase (f : Floats NV) (mayOverflow : Int64 → Int64 → Defined (Option Int64))
    (nvOp : NV → NV → NV) (targ : Targ) (svl svr : Sv NV) : Defined (Option (Value NV)) :=
  if svl.isUV || svr.isUV || svl.gmg || svr.gmg then return none
  else if svl.iok && svr.iok then do
    let result ← mayOverflow svl.ivx svr.ivx
    return result.map (targi targ · false)
  else if svl.nok && svr.nok then
    match f.losslessNVToIV svl.nvx, f.losslessNVToIV svr.nvx with
    | some il, some ir => do
      let result ← mayOverflow il ir
      return result.map (targi targ · false)
    | _, _ => return some (.nv (nvOp svl.nvx svr.nvx))
  else return none

/-- `SvIV_please_nomg`: the scalar after a conversion, and whether it is IOK. -/
def svIVPleaseNomg (f : Floats NV) (sv : Sv NV) : Sv NV × Bool :=
  if !(sv.iok || sv.pIok) && (sv.nok || sv.pok) then
    let converted := f.sv2iv sv
    (converted, converted.iok)
  else (sv, sv.iok)

def magnitude (sv : Sv NV) : Defined (UInt64 × Bool) :=
  if sv.isUV then return (sv.uvx, true)
  else
    let aiv := sv.ivx
    if aiv ≥ 0 then return (aiv.toUInt64, true)
    else do
      let auv ← negate2UV aiv
      return (auv, false)

def subtractMagnitudes (auv : UInt64) (auvok : Bool) (buv : UInt64) : Option (UInt64 × Bool) :=
  if auv ≥ buv then
    let result := auv - buv
    if result ≤ auv then some (result, auvok) else none
  else
    let result := buv - auv
    if result ≤ buv then some (result, !auvok) else none

def addMagnitudes (auv : UInt64) (auvok : Bool) (buv : UInt64) : Option (UInt64 × Bool) :=
  let result := auv + buv
  if result ≥ auv then some (result, auvok) else none

def storeSigned (f : Floats NV) (targ : Targ) (result : UInt64) (auvok : Bool) :
    Defined (Value NV) :=
  if auvok then return targu targ result true
  else if result ≤ absIVMin then do
    let negated ← negate2IV result
    return targi targ negated true
  else return .nv (f.neg (f.ofUV result))

def leftMagnitude (f : Floats NV) (useleft : Bool) (svl : Sv NV) :
    Sv NV × Defined (Option (UInt64 × Bool)) :=
  if !useleft then (svl, some (some (0, true)))
  else
    let (svl, aok) := svIVPleaseNomg f svl
    (svl, if aok then (magnitude svl).map some else some none)

/-- Addition and subtraction from `generic` on; `combine` is the case analysis on the signs. -/
def additive (f : Floats NV)
    (combine : UInt64 → Bool → UInt64 → Bool → Option (UInt64 × Bool)) (nvOp : NV → NV → NV)
    (stacked : Bool) (targ : Targ) (svl svr : Sv NV) : Defined (Value NV) :=
  let useleft := svl.ok || !stacked
  let (svr, bok) := svIVPleaseNomg f svr
  let nvCase (svl : Sv NV) : Value NV :=
    .nv (nvOp (if useleft then f.svNV svl else f.zero) (f.svNV svr))
  if bok then do
    let (svl, left) := leftMagnitude f useleft svl
    match ← left with
    | some (auv, auvok) =>
      let (buv, buvok) ← magnitude svr
      match combine auv auvok buv buvok with
      | some (result, auvok) => storeSigned f targ result auvok
      | none => return nvCase svl
    | none => return nvCase svl
  else return nvCase svl

/-- `pp_add`: subtract if the signs differ, add if they are the same. -/
def addSigned (auv : UInt64) (auvok : Bool) (buv : UInt64) (buvok : Bool) :
    Option (UInt64 × Bool) :=
  if auvok ^^ buvok then subtractMagnitudes auv auvok buv else addMagnitudes auv auvok buv

/-- `pp_subtract`: add if the signs differ, subtract if they are the same. -/
def subtractSigned (auv : UInt64) (auvok : Bool) (buv : UInt64) (buvok : Bool) :
    Option (UInt64 × Bool) :=
  if auvok ^^ buvok then addMagnitudes auv auvok buv else subtractMagnitudes auv auvok buv

def addGeneric (f : Floats NV) (stacked : Bool) (targ : Targ) (svl svr : Sv NV) :
    Defined (Value NV) :=
  additive f addSigned f.add stacked targ svl svr

def subtractGeneric (f : Floats NV) (stacked : Bool) (targ : Targ) (svl svr : Sv NV) :
    Defined (Value NV) :=
  additive f subtractSigned f.sub stacked targ svl svr

def multiplyGeneric (build : Build) (f : Floats NV) (targ : Targ) (svl svr : Sv NV) :
    Defined (Value NV) :=
  let (svr, bok) := svIVPleaseNomg f svr
  let nvCase (svl : Sv NV) : Value NV := .nv (f.mul (f.svNV svl) (f.svNV svr))
  if bok then
    let (svl, aok) := svIVPleaseNomg f svl
    if aok then do
      let (alow, auvok) ← magnitude svl
      let (blow, buvok) ← magnitude svr
      match uvMulOverflow build alow blow with
      | some product =>
        if auvok == buvok then return targu targ product true
        else if product ≤ absIVMin then do
          let negated ← negate2IV product
          return targi targ negated true
        else return nvCase svl
      | none => return nvCase svl
    else return nvCase svl
  else return nvCase svl

/-- The three operators. -/
inductive Arith where
  | add
  | subtract
  | multiply
  deriving DecidableEq, Repr

def Arith.mayOverflow (build : Build) : Arith → Int64 → Int64 → Defined (Option Int64)
  | .add => ivAddMayOverflow build
  | .subtract => ivSubMayOverflow build
  | .multiply => ivMulMayOverflow build

def Arith.nvOp (f : Floats NV) : Arith → NV → NV → NV
  | .add => f.add
  | .subtract => f.sub
  | .multiply => f.mul

def Arith.simple (build : Build) (f : Floats NV) (op : Arith) :
    Targ → Sv NV → Sv NV → Defined (Option (Value NV)) :=
  simpleCase f (op.mayOverflow build) (op.nvOp f)

def Arith.generic (build : Build) (f : Floats NV) (stacked : Bool) :
    Arith → Targ → Sv NV → Sv NV → Defined (Value NV)
  | .add => addGeneric f stacked
  | .subtract => subtractGeneric f stacked
  | .multiply => multiplyGeneric build f

/-- `pp_add`, `pp_subtract` and `pp_multiply` after overloading: the special case, then `generic`. -/
def Arith.pp (build : Build) (f : Floats NV) (stacked : Bool) (op : Arith) (targ : Targ)
    (svl svr : Sv NV) : Defined (Value NV) := do
  match ← op.simple build f targ svl svr with
  | some value => return value
  | none => op.generic build f stacked targ svl svr

end XPerl.Numeric
