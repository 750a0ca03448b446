import Mathlib.Tactic.Common
import XPerl.Framework.Rounding
import XPerl.Framework.RowMajor

/-! The native blob of `dist/Tensor-XS/XS.xs`: element types, offsets, and the constructors. -/

namespace XPerl.TensorXs

open XPerl.Framework.RowMajor

/-- How a call may end without a result: an exception, or what must never happen; `undefined` is
what C leaves open. -/
inductive Stop where
  | croak (message : String)
  | divideByZero
  | wraps
  | nullPointer
  | outOfBounds
  | undefined
  deriving DecidableEq, Repr

abbrev TensorM := Except Stop

def uvMax : Nat := 0xffffffffffffffff

/-- `sizeof(UV)`, `sizeof(NV)`, `sizeof(tensor_header)` and `MEM_ALIGNBYTES` of a 64 bit build. -/
def sizeofUv : Nat := 8
def sizeofNv : Nat := 8
def sizeofHeader : Nat := 40
def memAlignBytes : Nat := 8

/-- The value of a computation in 64 bits; one that does not fit wraps. -/
def word (n : Nat) : TensorM Nat := if n ≤ uvMax then pure n else throw .wraps

def minus (a b : Nat) : TensorM Nat := if b ≤ a then pure (a - b) else throw .wraps

def quotient (a b : Nat) : TensorM Nat := if b = 0 then throw .divideByZero else pure (a / b)

inductive Dtype where
  | u8 | u16 | u32 | u64 | i8 | i16 | i32 | i64 | f16 | bf16 | f32 | f64 | nv
  deriving DecidableEq, Repr

def tensorDtypeSize : Dtype → Nat
  | .u8 | .i8 => 1
  | .u16 | .i16 | .f16 | .bf16 => 2
  | .u32 | .i32 | .f32 => 4
  | .u64 | .i64 | .f64 => 8
  | .nv => sizeofNv

def tensorDtypeFromSv : Option String → TensorM Dtype
  | none => pure .f64
  | some "U8" => pure .u8
  | some "U16" => pure .u16
  | some "U32" => pure .u32
  | some "U64" => pure .u64
  | some "I8" => pure .i8
  | some "I16" => pure .i16
  | some "I32" => pure .i32
  | some "I64" => pure .i64
  | some "F16" => pure .f16
  | some "BF16" => pure .bf16
  | some "F32" => pure .f32
  | some "F64" => pure .f64
  | some "NV" => pure .nv
  | some name => throw (.croak s!"unknown tensor dtype '{name}'")

/-- `(offset + alignment - 1) / alignment * alignment`, with its sum taken as a whole. -/
def tensorAlignOffset (offset : Nat) : TensorM Nat := do
  let sum ← word (offset + memAlignBytes - 1)
  let blocks ← quotient sum memAlignBytes
  word (blocks * memAlignBytes)

def tensorDataOffset (rank : Nat) : TensorM Nat := do
  let metadata ← word (sizeofHeader + rank * sizeofUv * 2)
  tensorAlignOffset metadata

def tensorBlobSize (rank size elementSize : Nat) : TensorM (Option Nat) := do
  let room ← minus uvMax sizeofHeader
  let ranks ← quotient room (sizeofUv * 2)
  let sizes ← quotient uvMax elementSize
  if rank > uvMax ∨ rank > ranks ∨ size > sizes then return none
  let metadata ← word (sizeofHeader + rank * sizeofUv * 2)
  if metadata > uvMax - memAlignBytes + 1 then return none
  let dataOffset ← tensorAlignOffset metadata
  let dataBytes ← word (size * elementSize)
  let spare ← minus uvMax dataBytes
  if dataOffset > spare then return none
  let metadata ← word (dataOffset + dataBytes)
  if metadata > uvMax - memAlignBytes + 1 then return none
  let tailOffset ← tensorAlignOffset metadata
  if tailOffset > uvMax - sizeofUv then return none
  some <$> word (tailOffset + sizeofUv)

def tensorMagic : Nat := 0x54454e53
def tensorVersion : Nat := 1

/-- What a blob holds, with its length; the elements are `size` values of the element type. -/
structure Tensor (β : Type) where
  magic : Nat
  version : Nat
  rank : Nat
  size : Nat
  dtype : Dtype
  shape : List Nat
  strides : List Nat
  data : List β
  bytes : Nat
  deriving DecidableEq, Repr

variable {β : Type}

/-- `tensor_from_object`, for an object whose blob holds at least a header. -/
def tensorFromObject (tensor : Tensor β) : TensorM (Tensor β) := do
  if tensor.magic ≠ tensorMagic ∨ tensor.version ≠ tensorVersion then
    throw (.croak "invalid Tensor::XS object")
  match ← tensorBlobSize tensor.rank tensor.size (tensorDtypeSize tensor.dtype) with
  | none => throw (.croak "invalid Tensor::XS object")
  | some expected =>
    if tensor.bytes < expected then throw (.croak "invalid Tensor::XS object")
    return tensor

/-- Where `tensor_load` and `tensor_store` find an element. -/
def elementOffset (tensor : Tensor β) (index : Nat) : TensorM Nat := do
  let dataOffset ← tensorDataOffset tensor.rank
  let distance ← word (index * tensorDtypeSize tensor.dtype)
  word (dataOffset + distance)

theorem ok_bind {α γ : Type} (a : α) (f : α → TensorM γ) : (Except.ok a >>= f) = f a := rfl

theorem word_ok {n : Nat} (h : n ≤ uvMax) : word n = .ok n := if_pos h

theorem minus_ok {a b : Nat} (h : b ≤ a) : minus a b = .ok (a - b) := if_pos h

theorem quotient_ok {a b : Nat} (h : b ≠ 0) : quotient a b = .ok (a / b) := if_neg h

theorem tensorDtypeSize_pos (dtype : Dtype) : 0 < tensorDtypeSize dtype := by
  cases dtype <;> decide

def aligned (offset : Nat) : Nat := (offset + memAlignBytes - 1) / memAlignBytes * memAlignBytes

theorem le_aligned (offset : Nat) : offset ≤ aligned offset := by
  simp only [aligned, memAlignBytes]
  omega

theorem tensorAlignOffset_ok {offset : Nat} (h : offset ≤ uvMax - memAlignBytes + 1) :
    tensorAlignOffset offset = .ok (aligned offset) := by
  have hsum : offset + memAlignBytes - 1 ≤ uvMax := by
    simp only [uvMax, memAlignBytes] at h ⊢
    omega
  have hfits : aligned offset ≤ uvMax := Nat.le_trans (Nat.div_mul_le_self _ _) hsum
  rw [tensorAlignOffset, word_ok hsum, ok_bind, quotient_ok (by decide), ok_bind]
  exact word_ok hfits

def dataStart (rank : Nat) : Nat := aligned (sizeofHeader + rank * sizeofUv * 2)

def tailStart (rank size elementSize : Nat) : Nat := aligned (dataStart rank + size * elementSize)

def blobBytes (rank size elementSize : Nat) : Nat := tailStart rank size elementSize + sizeofUv

theorem metadata_le (rank size elementSize : Nat) :
    sizeofHeader + rank * sizeofUv * 2 ≤ dataStart rank ∧
      dataStart rank + size * elementSize ≤ tailStart rank size elementSize :=
  ⟨le_aligned _, le_aligned _⟩

theorem tensorDataOffset_ok {rank size elementSize : Nat}
    (h : blobBytes rank size elementSize ≤ uvMax) :
    tensorDataOffset rank = .ok (dataStart rank) := by
  have hparts := metadata_le rank size elementSize
  simp only [blobBytes, uvMax, sizeofUv] at h hparts
  have hmetadata : sizeofHeader + rank * sizeofUv * 2 ≤ uvMax - memAlignBytes + 1 := by
    simp only [uvMax, memAlignBytes, sizeofUv]
    omega
  rw [tensorDataOffset, word_ok (by simp only [uvMax, memAlignBytes] at hmetadata ⊢; omega), ok_bind]
  exact tensorAlignOffset_ok hmetadata

theorem tensorBlobSize_eq (rank size : Nat) {elementSize : Nat} (h : 0 < elementSize) :
    tensorBlobSize rank size elementSize = .ok
      (if blobBytes rank size elementSize ≤ uvMax then some (blobBytes rank size elementSize)
      else none) := by
  have hparts := metadata_le rank size elementSize
  have hrefuse (hno : ¬ blobBytes rank size elementSize ≤ uvMax) :
      (.ok none : TensorM (Option Nat)) = .ok
        (if blobBytes rank size elementSize ≤ uvMax then some (blobBytes rank size elementSize)
        else none) := by
    rw [if_neg hno]
  rw [tensorBlobSize, minus_ok (by decide), ok_bind, quotient_ok (by decide), ok_bind,
    quotient_ok (Nat.ne_of_gt h), ok_bind]
  by_cases hlarge : rank > uvMax ∨ rank > (uvMax - sizeofHeader) / (sizeofUv * 2) ∨
      size > uvMax / elementSize
  · rw [if_pos hlarge]
    apply hrefuse
    intro hfits
    have hdata : size * elementSize ≤ uvMax := by
      simp only [blobBytes] at hfits
      omega
    have hsize := (Nat.le_div_iff_mul_le h).2 hdata
    simp only [blobBytes, uvMax, sizeofHeader, sizeofUv] at hfits hlarge hparts
    simp only [uvMax] at hsize
    omega
  rw [if_neg hlarge]
  have hmetadata : sizeofHeader + rank * sizeofUv * 2 ≤ uvMax := by
    simp only [uvMax, sizeofHeader, sizeofUv] at hlarge ⊢
    omega
  have hdata : size * elementSize ≤ uvMax := (Nat.le_div_iff_mul_le h).1 (by omega)
  rw [word_ok hmetadata, ok_bind]
  by_cases hguard : sizeofHeader + rank * sizeofUv * 2 > uvMax - memAlignBytes + 1
  · rw [if_pos hguard]
    apply hrefuse
    simp only [blobBytes, uvMax, memAlignBytes, sizeofUv] at hguard hparts ⊢
    omega
  rw [if_neg hguard, tensorAlignOffset_ok (Nat.le_of_not_lt hguard), ok_bind, word_ok hdata, ok_bind,
    minus_ok hdata, ok_bind]
  change (if dataStart rank > _ then _ else _) = _
  by_cases hspare : dataStart rank > uvMax - size * elementSize
  · rw [if_pos hspare]
    apply hrefuse
    simp only [blobBytes]
    omega
  rw [if_neg hspare]
  have hend : dataStart rank + size * elementSize ≤ uvMax := by omega
  change (word (dataStart rank + size * elementSize) >>= _) = _
  rw [word_ok hend, ok_bind]
  by_cases hguard' : dataStart rank + size * elementSize > uvMax - memAlignBytes + 1
  · rw [if_pos hguard']
    apply hrefuse
    simp only [blobBytes, uvMax, memAlignBytes, sizeofUv] at hguard' hparts ⊢
    omega
  rw [if_neg hguard', tensorAlignOffset_ok (Nat.le_of_not_lt hguard'), ok_bind]
  change (if tailStart rank size elementSize > _ then _ else _) = _
  by_cases hlast : tailStart rank size elementSize > uvMax - sizeofUv
  · rw [if_pos hlast]
    apply hrefuse
    simp only [blobBytes, uvMax, sizeofUv] at hlast ⊢
    omega
  have hbytes : blobBytes rank size elementSize ≤ uvMax := by
    simp only [blobBytes, uvMax, sizeofUv] at hlast ⊢
    omega
  rw [if_neg hlast, if_pos hbytes]
  change some <$> word (blobBytes rank size elementSize) = _
  rw [word_ok hbytes]
  rfl

theorem elementOffset_spec {β : Type} {tensor : Tensor β}
    (h : blobBytes tensor.rank tensor.size (tensorDtypeSize tensor.dtype) ≤ uvMax) {index : Nat}
    (hindex : index < tensor.size) :
    ∃ offset, elementOffset tensor index = .ok offset ∧
      sizeofHeader + tensor.rank * sizeofUv * 2 ≤ offset ∧
      offset + tensorDtypeSize tensor.dtype + sizeofUv ≤
        blobBytes tensor.rank tensor.size (tensorDtypeSize tensor.dtype) := by
  have hrow : (index + 1) * tensorDtypeSize tensor.dtype ≤
      tensor.size * tensorDtypeSize tensor.dtype := Nat.mul_le_mul_right _ hindex
  rw [Nat.succ_mul] at hrow
  obtain ⟨hmetadata, helements⟩ :=
    metadata_le tensor.rank tensor.size (tensorDtypeSize tensor.dtype)
  have hoffset := tensorDataOffset_ok h
  rw [blobBytes] at h ⊢
  refine ⟨dataStart tensor.rank + index * tensorDtypeSize tensor.dtype, ?_, by omega, by omega⟩
  rw [elementOffset, hoffset, ok_bind, word_ok (by omega), ok_bind, word_ok (by omega)]

variable {α δ : Type}

/-- What an element of a shape array may be: missing, undef, an integer that a scalar can hold, or
a number that is no such integer. -/
inductive Dim where
  | missing
  | undef
  | int (n : Int)
  | other
  deriving DecidableEq, Repr

def svIv (n : Int) : Int := if n ≤ 0x7fffffffffffffff then n else n - (uvMax + 1)

def svUv (n : Int) : Nat := (n % (uvMax + 1)).toNat

/-- The check of a dimension; a number that is no integer differs from its `SvUV`. -/
def dimension : Dim → TensorM Nat
  | .int n =>
    if svIv n < 0 then throw (.croak "shape dimensions must be nonnegative integers")
    else pure (svUv n)
  | _ => throw (.croak "shape dimensions must be nonnegative integers")

def sizeLoop (read : δ → TensorM Nat) : List δ → Nat → TensorM Nat
  | [], size => pure size
  | value :: values, size => do
    let dimension ← read value
    let most ← quotient uvMax dimension
    if size > most then throw (.croak "tensor size overflow")
    let size ← word (size * dimension)
    sizeLoop read values size

/-- `for (i = rank; i-- > 0;)`: the strides from the last dimension on, and the last product. -/
def strideLoop : List Nat → TensorM (List Nat × Nat)
  | [] => pure ([], 1)
  | dimension :: shape => do
    let (strides, stride) ← strideLoop shape
    let next ← word (stride * dimension)
    pure (stride :: strides, next)

/-- What the data may be: scalars, arrays and other references; a hole is an element of an array
that was never assigned. -/
inductive Data (α : Type) where
  | hole
  | plain (value : α)
  | ref (value : α)
  | array (items : List (Data α))

/-- The data of a constructor: an array, or anything else as one value for all elements. -/
inductive Source (α : Type) where
  | fill (value : α)
  | array (items : List (Data α))

def Data.rok : Data α → TensorM Bool
  | .hole => throw .nullPointer
  | .plain _ => pure false
  | _ => pure true

/-- `output[(*position)++] = value`, into an array of `size` values. -/
def write (size : Nat) (output : List α) (value : α) : TensorM (List α) :=
  if output.length < size then pure (output ++ [value]) else throw .outOfBounds

def copyValue (size : Nat) (refusal : String) (output : List α) : Data α → TensorM (List α)
  | .hole => throw .nullPointer
  | .plain value => write size output value
  | _ => throw (.croak refusal)

/-- `tensor_copy_array` below the flat case, for the dimensions from `depth` on. -/
def copyNested (size : Nat) : List Nat → List (Data α) → List α → TensorM (List α)
  | [], _, _ => throw (.croak "nested tensor data does not match tensor shape")
  | dimension :: dims, items, output =>
    if items.length ≠ dimension then
      throw (.croak "nested tensor data does not match tensor shape")
    else
      match dims with
      | [] =>
        items.foldlM (copyValue size "nested tensor data has too many dimensions") output
      | next :: dims =>
        items.foldlM (fun output item =>
          match item with
          | .hole => throw .nullPointer
          | .array inner => copyNested size (next :: dims) inner output
          | _ => throw (.croak "nested tensor data has too few dimensions")) output

def flatTest (size : Nat) (source : List (Data α)) : TensorM Bool :=
  if source.length = size then
    match source with
    | [] => pure true
    | item :: _ => (fun reference => !reference) <$> item.rok
  else pure false

/-- `tensor_copy_array` from the outermost array on. -/
def tensorCopyArray (shape : List Nat) (size : Nat) (source : List (Data α)) :
    TensorM (List α) := do
  let flat ← flatTest size source
  if flat then
    source.foldlM (copyValue size "flat tensor data cannot contain nested arrays") []
  else copyNested size shape source []

def newBlob (zero : β) (shape : List Nat) (size bytes : Nat) (dtype : Dtype) :
    TensorM (Tensor β) := do
  let (strides, _) ← strideLoop shape
  return {
    magic := tensorMagic
    version := tensorVersion
    rank := shape.length
    size := size
    dtype := dtype
    shape := shape
    strides := strides
    data := List.replicate size zero
    bytes := bytes }

def tensorNewResult (zero : β) (shape : List Nat) (dtype : Dtype) : TensorM (Tensor β) := do
  let size ← sizeLoop pure shape 1
  match ← tensorBlobSize shape.length size (tensorDtypeSize dtype) with
  | none => throw (.croak "tensor blob size overflow")
  | some bytes => newBlob zero shape size bytes dtype

/-- `new_with_dtype`; a shape that is `none` is no array, and `store` is `tensor_store`. -/
def newWithDtype (zero : β) (store : Dtype → α → β) (shape : Option (List Dim)) (data : Source α)
    (dtype : Option String) : TensorM (Tensor β) := do
  match shape with
  | none => throw (.croak "shape must be an array reference")
  | some values =>
    let dtype ← tensorDtypeFromSv dtype
    let size ← sizeLoop dimension values 1
    match ← tensorBlobSize values.length size (tensorDtypeSize dtype) with
    | none => throw (.croak "tensor blob size overflow")
    | some bytes =>
      let shape ← values.mapM dimension
      let tensor ← newBlob zero shape size bytes dtype
      match data with
      | .fill value => return { tensor with data := List.replicate size (store dtype value) }
      | .array items =>
        -- Newx checks that the array of values has a size
        if size > uvMax / sizeofUv then throw (.croak "panic: memory wrap")
        let values ← tensorCopyArray shape size items
        if values.length ≠ size then
          throw (.croak "data size does not match tensor shape")
        return { tensor with data := values.map (store dtype) }

def coordinateLoop : List Int → List Nat → List Nat → Nat → TensorM Nat
  | coordinate :: coordinates, dimension :: shape, stride :: strides, index =>
    if coordinate < 0 ∨ coordinate.toNat ≥ dimension then throw (.croak "Index out of bounds")
    else do
      let distance ← word (coordinate.toNat * stride)
      let index ← word (index + distance)
      coordinateLoop coordinates shape strides index
  | _, _, _, index => pure index

def tensorCoordinateIndex (tensor : Tensor β) (coordinates : List Int) : TensorM Nat :=
  if coordinates.length ≠ tensor.rank then
    throw (.croak "coordinate count does not match tensor rank")
  else coordinateLoop coordinates tensor.shape tensor.strides 0

/-! Elements as bits: what `tensor_load` reads and `tensor_store_nv` writes. -/

open XPerl.Framework.Rounding

def quiet : Datum → Datum
  | .nan negative payload =>
    .nan negative (if payload < 2 ^ 51 then payload + 2 ^ 51 else payload)
  | datum => datum

def nvOfInt (value : Int) : Datum := double.round (value < 0) value.natAbs 0

/-- The conversion of an NV to an integer type, which is defined within the range of the type. -/
def intOfNv (lower upper : Int) (value : Datum) : TensorM Int :=
  match value.truncate with
  | none => throw .undefined
  | some integer => if lower ≤ integer ∧ integer ≤ upper then pure integer else throw .undefined

def signedOf (width bits : Nat) : Int :=
  if bits < 2 ^ (width - 1) then bits else bits - (2 ^ width : Nat)

def bitsOf (width : Nat) (value : Int) : Nat := (value % (2 ^ width : Nat)).toNat

def storeUnsigned (width : Nat) (value : Datum) : TensorM Nat :=
  bitsOf width <$> intOfNv 0 ((2 ^ width : Nat) - 1) value

def storeSigned (width : Nat) (value : Datum) : TensorM Nat :=
  bitsOf width <$> intOfNv (-(2 ^ (width - 1) : Nat)) ((2 ^ (width - 1) : Nat) - 1) value

/-- `(NV)` of the float with these bits, and the bits of `(float)` of an NV. -/
def nvOfFloat (bits : Nat) : Datum := quiet (single.decode bits)

def floatOfNv (value : Datum) : Nat := single.encode (quiet value)

def tensorFloatToBf16 (value : Datum) : Nat :=
  let bits := floatOfNv value
  ((bits + (0x7fff + ((bits >>> 16) &&& 1))) % 0x100000000) >>> 16

def tensorBf16ToFloat (value : Nat) : Datum := nvOfFloat (value <<< 16)

/-- `while ((mantissa & 0x400U) == 0)`, for at most as many rounds as a half has places. -/
def halfLoop : Nat → Nat → Int → Nat × Int
  | 0, mantissa, adjustment => (mantissa, adjustment)
  | rounds + 1, mantissa, adjustment =>
    if mantissa &&& 0x400 = 0 then halfLoop rounds (mantissa <<< 1) (adjustment - 1)
    else (mantissa, adjustment)

/-- The bits of the float that `tensor_f16_to_float` builds. -/
def f16FloatBits (value : Nat) : Nat :=
  let sign := (value &&& 0x8000) <<< 16
  let exponent := (value >>> 10) &&& 0x1f
  let mantissa := value &&& 0x3ff
  if exponent = 0 then
    if mantissa = 0 then sign
    else
      let (mantissa, adjustment) := halfLoop 11 mantissa (-1)
      sign ||| ((adjustment + 127).toNat <<< 23) ||| ((mantissa &&& 0x3ff) <<< 13)
  else if exponent = 0x1f then sign ||| 0x7f800000 ||| (mantissa <<< 13)
  else sign ||| ((exponent + 112) <<< 23) ||| (mantissa <<< 13)

def tensorF16ToFloat (value : Nat) : Datum := nvOfFloat (f16FloatBits value)

/-- `tensor_float_to_f16`, from the bits of the float on. -/
def f16OfFloatBits (bits : Nat) : TensorM Nat :=
  let sign := (bits >>> 16) &&& 0x8000
  let exponent := (bits >>> 23) &&& 0xff
  let mantissa := bits &&& 0x7fffff
  if exponent = 0xff then pure (sign ||| 0x7c00 ||| (if mantissa ≠ 0 then 0x0200 else 0))
  else
    let adjusted : Int := exponent - 127
    if adjusted > 15 then pure (sign ||| 0x7c00)
    else if adjusted < -24 then pure sign
    else if adjusted < -14 then
      let shift := (-adjusted - 1).toNat
      -- a shift of a 32 bit word by its width or more
      if shift + 13 ≥ 32 then throw .undefined
      else
        let significand := mantissa ||| 0x800000
        let half := significand >>> (shift + 13)
        let remainder := significand &&& ((1 <<< (shift + 13)) - 1)
        let halfway := 1 <<< (shift + 12)
        pure (sign ||| (if remainder > halfway ∨ (remainder = halfway ∧ half &&& 1 = 1)
          then half + 1 else half))
    else
      let half := mantissa >>> 13
      let remainder := mantissa &&& 0x1fff
      if remainder > 0x1000 ∨ (remainder = 0x1000 ∧ half &&& 1 = 1) then
        if half + 1 = 0x400 then
          if adjusted + 1 > 15 then pure (sign ||| 0x7c00)
          else pure (sign ||| ((adjusted + 1 + 15).toNat <<< 10) ||| 0)
        else pure (sign ||| ((adjusted + 15).toNat <<< 10) ||| (half + 1))
      else pure (sign ||| ((adjusted + 15).toNat <<< 10) ||| half)

def tensorFloatToF16 (value : Datum) : TensorM Nat := f16OfFloatBits (floatOfNv value)

def tensorLoad (dtype : Dtype) (bits : Nat) : Datum :=
  match dtype with
  | .u8 => nvOfInt bits
  | .u16 => nvOfInt bits
  | .u32 => nvOfInt bits
  | .u64 => nvOfInt bits
  | .i8 => nvOfInt (signedOf 8 bits)
  | .i16 => nvOfInt (signedOf 16 bits)
  | .i32 => nvOfInt (signedOf 32 bits)
  | .i64 => nvOfInt (signedOf 64 bits)
  | .f32 => nvOfFloat bits
  | .f64 => double.decode bits
  | .nv => double.decode bits
  | .f16 => tensorF16ToFloat bits
  | .bf16 => tensorBf16ToFloat bits

def tensorStoreNv (dtype : Dtype) (value : Datum) : TensorM Nat :=
  match dtype with
  | .u8 => storeUnsigned 8 value
  | .u16 => storeUnsigned 16 value
  | .u32 => storeUnsigned 32 value
  | .u64 => storeUnsigned 64 value
  | .i8 => storeSigned 8 value
  | .i16 => storeSigned 16 value
  | .i32 => storeSigned 32 value
  | .i64 => storeSigned 64 value
  | .f32 => pure (floatOfNv value)
  | .f64 => pure (double.encode value)
  | .nv => pure (double.encode value)
  | .f16 => tensorFloatToF16 value
  | .bf16 => pure (tensorFloatToBf16 value)

end XPerl.TensorXs
