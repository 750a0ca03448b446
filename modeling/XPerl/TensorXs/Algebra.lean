import Mathlib.Algebra.BigOperators.Group.Finset.Basic
import XPerl.Framework.Fill
import XPerl.TensorXs.RoundTrip
import XPerl.TensorXs.Shapes

/-! `binary`, `inplace`, `transpose` and `matrix_multiply`. -/

namespace XPerl.TensorXs

open XPerl.Framework.RowMajor XPerl.Framework.Rounding XPerl.Framework.Fill

variable {β ν : Type}

/-- How elements are read and written. -/
structure Access (β ν : Type) where
  zero : β
  load : Dtype → β → ν
  store : Dtype → ν → TensorM β

/-- Elements as the bits that a blob holds, read and written as NVs. -/
def native : Access Nat Datum := ⟨0, tensorLoad, tensorStoreNv⟩

def direct (ν : Type) [Zero ν] : Access ν ν := ⟨0, fun _ value => value, fun _ value => pure value⟩

def loadAt (access : Access β ν) (tensor : Tensor β) (index : Nat) : TensorM ν :=
  match tensor.data[index]? with
  | none => throw .outOfBounds
  | some element => pure (access.load tensor.dtype element)

def storeAt (access : Access β ν) (dtype : Dtype) (data : List β) (index : Nat) (value : ν) :
    TensorM (List β) := do
  let element ← access.store dtype value
  if index < data.length then pure (data.set index element) else throw .outOfBounds

def shapeAt (tensor : Tensor β) (i : Nat) : TensorM Nat :=
  match tensor.shape[i]? with
  | none => throw .outOfBounds
  | some dimension => pure dimension

def elementIndex (row columns column : Nat) : TensorM Nat := do
  let distance ← word (row * columns)
  word (distance + column)

inductive TensorOp where
  | add | sub | mul | div | mod | pow | eq | ne | lt | le | gt | ge | cmp | and | or | min | max
  deriving DecidableEq, Repr

def tensorOpFromSv : String → TensorM TensorOp
  | "add" => pure .add
  | "sub" => pure .sub
  | "mul" => pure .mul
  | "div" => pure .div
  | "mod" => pure .mod
  | "pow" => pure .pow
  | "eq" => pure .eq
  | "ne" => pure .ne
  | "lt" => pure .lt
  | "le" => pure .le
  | "gt" => pure .gt
  | "ge" => pure .ge
  | "cmp" => pure .cmp
  | "and" => pure .and
  | "or" => pure .or
  | "min" => pure .min
  | "max" => pure .max
  | op => throw (.croak s!"unknown binary tensor operation '{op}'")

/-- The arithmetic of NVs. -/
structure Arith (ν : Type) where
  ofInt : Int → ν
  add : ν → ν → ν
  sub : ν → ν → ν
  mul : ν → ν → ν
  div : ν → ν → ν
  fmod : ν → ν → ν
  pow : ν → ν → ν
  eq : ν → ν → Bool
  lt : ν → ν → Bool
  le : ν → ν → Bool
  isTrue : ν → Bool

def Arith.ofBool (arith : Arith ν) (b : Bool) : ν := arith.ofInt (if b then 1 else 0)

def tensorBinaryOp (arith : Arith ν) (op : TensorOp) (left right : ν) : ν :=
  match op with
  | .add => arith.add left right
  | .sub => arith.sub left right
  | .mul => arith.mul left right
  | .div => arith.div left right
  | .mod => arith.fmod left right
  | .pow => arith.pow left right
  | .eq => arith.ofBool (arith.eq left right)
  | .ne => arith.ofBool (!arith.eq left right)
  | .lt => arith.ofBool (arith.lt left right)
  | .le => arith.ofBool (arith.le left right)
  | .gt => arith.ofBool (arith.lt right left)
  | .ge => arith.ofBool (arith.le right left)
  | .cmp => arith.ofInt (if arith.lt left right then -1 else if arith.lt right left then 1 else 0)
  | .and => arith.ofBool (arith.isTrue left && arith.isTrue right)
  | .or => arith.ofBool (arith.isTrue left || arith.isTrue right)
  | .min => if arith.lt left right then left else right
  | .max => if arith.lt right left then left else right

/-- The other operand: a tensor, or the value of a scalar. -/
inductive Other (β ν : Type) where
  | tensor (right : Tensor β)
  | scalar (value : ν)

def tensorOther : Other β ν → TensorM (Other β ν)
  | .tensor right => .tensor <$> tensorFromObject right
  | .scalar value => pure (.scalar value)

def BinaryCompatible (source right : Tensor β) : Prop :=
  (right.size = source.size ∧ right.rank = source.rank) ∨
    (source.rank = 2 ∧ right.rank = 1 ∧ some right.size = source.shape[1]?)

instance (source right : Tensor β) : Decidable (BinaryCompatible source right) :=
  inferInstanceAs (Decidable (_ ∨ _))

def binaryTest (source : Tensor β) : Other β ν → TensorM Unit
  | .tensor right =>
    if BinaryCompatible source right then pure ()
    else throw (.croak "tensor operands must have compatible shapes")
  | .scalar _ => pure ()

/-- The right value of an element of `binary`, where a vector is repeated for each row. -/
def binaryRight (access : Access β ν) (source : Tensor β) (other : Other β ν) (i : Nat) :
    TensorM ν :=
  match other with
  | .tensor right =>
    if right.rank = 1 ∧ source.rank = 2 then do
      let columns ← shapeAt source 1
      -- the remainder of a division by zero
      if columns = 0 then throw .divideByZero
      loadAt access right (i % columns)
    else loadAt access right i
  | .scalar value => pure value

def binary (access : Access β ν) (arith : Arith ν) (object : Tensor β) (other : Other β ν)
    (operation : String) : TensorM (Tensor β) := do
  let source ← tensorFromObject object
  let right ← tensorOther other
  binaryTest source right
  let op ← tensorOpFromSv operation
  let result ← tensorNewResult access.zero source.shape source.dtype
  let data ← (List.range source.size).foldlM (fun data i => do
    let rightValue ← binaryRight access source right i
    let leftValue ← loadAt access source i
    storeAt access source.dtype data i (tensorBinaryOp arith op leftValue rightValue)) result.data
  pure { result with data := data }

def inplaceTest (source : Tensor β) : Other β ν → TensorM Unit
  | .tensor right =>
    if right.size ≠ source.size ∨ right.rank ≠ source.rank then
      throw (.croak "tensor operands must have the same shape")
    else pure ()
  | .scalar _ => pure ()

def inplaceRight (access : Access β ν) (other : Other β ν) (i : Nat) : TensorM ν :=
  match other with
  | .tensor right => loadAt access right i
  | .scalar value => pure value

/-- `source->data` when the loop of `inplace` ends, be it by an exception. -/
def inplaceLoop (access : Access β ν) (arith : Arith ν) (op : TensorOp) (other : Other β ν) :
    Nat → Nat → Tensor β → TensorM Unit × Tensor β
  | 0, _, source => (pure (), source)
  | rounds + 1, i, source =>
    let stored := do
      let rightValue ← inplaceRight access other i
      let leftValue ← loadAt access source i
      storeAt access source.dtype source.data i (tensorBinaryOp arith op leftValue rightValue)
    match stored with
    | .error stop => (.error stop, source)
    | .ok data => inplaceLoop access arith op other rounds (i + 1) { source with data := data }

/-- `inplace`: how it ends, and the tensor that it leaves. -/
def inplace (access : Access β ν) (arith : Arith ν) (object : Tensor β) (other : Other β ν)
    (operation : String) : TensorM Unit × Tensor β :=
  let checked := do
    let source ← tensorFromObject object
    let right ← tensorOther other
    inplaceTest source right
    tensorOpFromSv operation
  match checked with
  | .error stop => (.error stop, object)
  | .ok op => inplaceLoop access arith op other object.size 0 object

def transpose (access : Access β ν) (object : Tensor β) : TensorM (Tensor β) := do
  let source ← tensorFromObject object
  if source.rank ≠ 2 then throw (.croak "transpose requires a rank-two tensor")
  let columns ← shapeAt source 1
  let rows ← shapeAt source 0
  let result ← tensorNewResult access.zero [columns, rows] source.dtype
  let data ← (List.range rows).foldlM (fun data row =>
    (List.range columns).foldlM (fun data column => do
      let here ← elementIndex row columns column
      let value ← loadAt access source here
      let there ← elementIndex column rows row
      storeAt access source.dtype data there value) data) result.data
  pure { result with data := data }

/-- The arithmetic of a sum of products. -/
structure Sums (ν : Type) where
  zero : ν
  add : ν → ν → ν
  mul : ν → ν → ν

def sumLoop (sums : Sums ν) (left right : Nat → TensorM ν) (count : Nat) : TensorM ν :=
  (List.range count).foldlM (fun sum k => do
    let x ← left k
    let y ← right k
    pure (sums.add sum (sums.mul x y))) sums.zero

/-- The branch of `matrix_multiply` for a vector and a matrix. -/
def vectorMultiply (access : Access β ν) (sums : Sums ν) (left right : Tensor β) :
    TensorM (Tensor β) := do
  let leftCols ← shapeAt left 0
  let rightRows ← shapeAt right 0
  let rightCols ← shapeAt right 1
  if leftCols ≠ rightRows then throw (.croak "matrix multiplication dimensions do not agree")
  let result ← tensorNewResult access.zero [rightCols] left.dtype
  let data ← (List.range rightCols).foldlM (fun data j => do
    let sum ← sumLoop sums (loadAt access left)
      (fun k => do loadAt access right (← elementIndex k rightCols j)) leftCols
    storeAt access left.dtype data j sum) result.data
  pure { result with data := data }

/-- `right->rank == 1 ? 1 : tensor_shape(right)[1]`. -/
def rightColumns (right : Tensor β) : TensorM Nat :=
  if right.rank = 1 then pure 1 else shapeAt right 1

def rowsMultiply (access : Access β ν) (sums : Sums ν) (left right : Tensor β) :
    TensorM (Tensor β) := do
  let leftRows ← shapeAt left 0
  let leftCols ← shapeAt left 1
  let rightRows ← shapeAt right 0
  if leftCols ≠ rightRows then throw (.croak "matrix multiplication dimensions do not agree")
  let rightCols ← rightColumns right
  let result ← tensorNewResult access.zero
    (if right.rank = 2 then [leftRows, rightCols] else [leftRows]) left.dtype
  let data ← (List.range leftRows).foldlM (fun data i =>
    (List.range rightCols).foldlM (fun data j => do
      let sum ← sumLoop sums (fun k => do loadAt access left (← elementIndex i leftCols k))
        (fun k => do loadAt access right (← elementIndex k rightCols j)) leftCols
      let index ← elementIndex i rightCols j
      storeAt access left.dtype data index sum) data) result.data
  pure { result with data := data }

def matrixMultiply (access : Access β ν) (sums : Sums ν) (object other : Tensor β) :
    TensorM (Tensor β) := do
  let left ← tensorFromObject object
  let right ← tensorFromObject other
  if ¬ ((left.rank = 2 ∧ (right.rank = 1 ∨ right.rank = 2)) ∨
      (left.rank = 1 ∧ right.rank = 2)) then
    throw (.croak "matrix multiplication requires a matrix and vector or matrix")
  if left.rank = 1 then vectorMultiply access sums left right
  else rowsMultiply access sums left right

end XPerl.TensorXs
