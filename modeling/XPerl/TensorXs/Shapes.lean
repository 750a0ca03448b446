import XPerl.TensorXs.Loops

/-! What a construction makes: a tensor whose coordinates and elements are where they belong. -/

namespace XPerl.TensorXs

open XPerl.Framework.RowMajor

variable {α β : Type}

/-- What the constructors establish; all dimensions are positive. -/
structure WF (tensor : Tensor β) : Prop where
  magic : tensor.magic = tensorMagic
  version : tensor.version = tensorVersion
  rank : tensor.rank = tensor.shape.length
  size : tensor.size = volume tensor.shape
  strides : tensor.strides = strides tensor.shape
  positive : ∀ d ∈ tensor.shape, 0 < d
  words : tensor.size ≤ uvMax
  data : tensor.data.length = tensor.size
  bytes : tensor.bytes = blobBytes tensor.rank tensor.size (tensorDtypeSize tensor.dtype)
  fits : blobBytes tensor.rank tensor.size (tensorDtypeSize tensor.dtype) ≤ uvMax

theorem coordinateLoop_spec {coords shape : List Nat} (h : Inside coords shape) (index : Nat)
    (hfits : index + volume shape ≤ uvMax + 1) :
    coordinateLoop (coords.map Int.ofNat) shape (strides shape) index =
      .ok (index + place coords (strides shape)) := by
  induction h generalizing index with
  | nil => rfl
  | @cons c d coords dims hc hrest ih =>
    have hplace := place_lt hrest
    have hrow : (c + 1) * volume dims ≤ d * volume dims := Nat.mul_le_mul_right _ hc
    rw [volume] at hfits
    rw [Nat.succ_mul] at hrow
    have hin : ¬ (Int.ofNat c < 0 ∨ (Int.ofNat c).toNat ≥ d) := by
      rw [Int.ofNat_eq_natCast, Int.toNat_natCast]
      omega
    rw [List.map_cons, strides, coordinateLoop, if_neg hin, Int.ofNat_eq_natCast,
      Int.toNat_natCast, word_ok (by omega), ok_bind, word_ok (by omega), ok_bind,
      ih (index + c * volume dims) (by omega), place, Nat.add_assoc]

variable {tensor : Tensor β} {dims : List Nat} {made : Tensor β → Prop}

theorem tensorCoordinateIndex_spec (h : WF tensor) {coords : List Nat}
    (hinside : Inside coords tensor.shape) :
    tensorCoordinateIndex tensor (coords.map Int.ofNat) =
      .ok (place coords (strides tensor.shape)) := by
  have hlen : (coords.map Int.ofNat).length = tensor.rank := by
    rw [List.length_map, h.rank]
    exact hinside.length_eq
  have hwords := h.words
  rw [h.size] at hwords
  rw [tensorCoordinateIndex, if_neg (fun hne => hne hlen), h.strides,
    coordinateLoop_spec hinside 0 (by omega), Nat.zero_add]

/-- What a made tensor promises: coordinates within the shape map one-to-one onto the places in
row-major order, and every element lies between the metadata and the tail. -/
structure Sound (tensor : Tensor β) : Prop where
  within : ∀ coords, Inside coords tensor.shape → ∃ i < tensor.size,
    tensorCoordinateIndex tensor (coords.map Int.ofNat) = .ok i
  onto : ∀ i < tensor.size, ∃! coords, Inside coords tensor.shape ∧
    tensorCoordinateIndex tensor (coords.map Int.ofNat) = .ok i
  order : ∀ coords coords' i j, Inside coords tensor.shape → Inside coords' tensor.shape →
    List.Lex (· < ·) coords coords' →
    tensorCoordinateIndex tensor (coords.map Int.ofNat) = .ok i →
    tensorCoordinateIndex tensor (coords'.map Int.ofNat) = .ok j → i < j
  elements : ∀ i < tensor.size, ∃ offset, elementOffset tensor i = .ok offset ∧
    sizeofHeader + tensor.rank * sizeofUv * 2 ≤ offset ∧
    offset + tensorDtypeSize tensor.dtype + sizeofUv ≤ tensor.bytes
  rank : tensor.rank = tensor.shape.length
  size : tensor.size = volume tensor.shape
  strides : tensor.strides = strides tensor.shape
  data : tensor.data.length = tensor.size

theorem WF.sound (h : WF tensor) : Sound tensor where
  within := by
    intro coords hinside
    refine ⟨_, ?_, tensorCoordinateIndex_spec h hinside⟩
    rw [h.size]
    exact place_lt hinside
  onto := by
    intro i hi
    rw [h.size] at hi
    obtain ⟨coords, ⟨hinside, hplace⟩, hunique⟩ := existsUnique_place hi
    refine ⟨coords, ⟨hinside, ?_⟩, ?_⟩
    · rw [tensorCoordinateIndex_spec h hinside, hplace]
    · intro coords' hcoords'
      obtain ⟨hinside', hindex⟩ := hcoords'
      rw [tensorCoordinateIndex_spec h hinside'] at hindex
      exact hunique coords' ⟨hinside', Except.ok.inj hindex⟩
  order := by
    intro coords coords' i j hinside hinside' hlex hi hj
    rw [tensorCoordinateIndex_spec h hinside] at hi
    rw [tensorCoordinateIndex_spec h hinside'] at hj
    rw [← Except.ok.inj hi, ← Except.ok.inj hj]
    exact place_lt_place hinside hinside' hlex
  elements := by
    intro i hi
    rw [h.bytes]
    exact elementOffset_spec h.fits hi
  rank := h.rank
  size := h.size
  strides := h.strides
  data := h.data

theorem newBlob_spec (zero : β) {shape : List Nat} (hpos : ∀ d ∈ shape, 0 < d)
    (hwords : volume shape ≤ uvMax) (dtype : Dtype)
    (hfits : blobBytes shape.length (volume shape) (tensorDtypeSize dtype) ≤ uvMax) :
    ∃ tensor, newBlob zero shape (volume shape)
        (blobBytes shape.length (volume shape) (tensorDtypeSize dtype)) dtype = .ok tensor ∧
      WF tensor ∧ tensor.shape = shape ∧ tensor.dtype = dtype ∧
      tensor.data = List.replicate (volume shape) zero := by
  rw [newBlob, strideLoop_spec hpos hwords]
  refine ⟨_, rfl, ⟨rfl, rfl, rfl, rfl, rfl, hpos, hwords, ?_, rfl, hfits⟩, rfl, rfl, rfl⟩
  exact List.length_replicate

theorem WF.withData (h : WF tensor) {data : List β}
    (hlen : data.length = volume tensor.shape) : WF { tensor with data := data } :=
  ⟨h.magic, h.version, h.rank, h.size, h.strides, h.positive, h.words, hlen.trans h.size.symm,
    h.bytes, h.fits⟩

/-- How a construction must end: with a tensor that meets the condition, or with an exception. -/
def Ends (made : Tensor β → Prop) : TensorM (Tensor β) → Prop
  | .ok tensor => made tensor
  | .error (.croak _) => True
  | .error _ => False

theorem pure_croaks (value : Nat) (stop : Stop) (h : (pure value : TensorM Nat) = .error stop) :
    ∃ m, stop = .croak m := by
  cases h

theorem map_pure_eq {values : List Nat}
    (h : values.map (pure : Nat → TensorM Nat) = dims.map Except.ok) : values = dims := by
  induction values generalizing dims with
  | nil =>
    cases dims with
    | nil => rfl
    | cons d dims => cases h
  | cons value values ih =>
    cases dims with
    | nil => cases h
    | cons d dims =>
      rw [List.map_cons, List.map_cons, List.cons.injEq] at h
      rw [Except.ok.inj h.1, ih h.2]

theorem tensorNewResult_ends (zero : β) (shape : List Nat) (dtype : Dtype)
    (hmade : ∀ tensor, WF tensor → tensor.shape = shape →
      tensor.dtype = dtype → tensor.data = List.replicate (volume shape) zero → made tensor) :
    Ends made (tensorNewResult zero shape dtype) ↔ ¬ ReachesZero pure shape 1 := by
  rw [tensorNewResult]
  constructor
  · intro hends hzero
    rw [hzero.run] at hends
    exact hends
  · intro hno
    rcases sizeLoop_cases pure_croaks shape (by decide : 1 ≤ uvMax) with
      ⟨dims, haccepted⟩ | hzero | ⟨m, hrun⟩
    · have hrun := haccepted.run
      obtain ⟨hdims, hpos, hwords⟩ := haccepted
      obtain rfl := map_pure_eq hdims
      rw [Nat.one_mul] at hrun hwords
      rw [hrun, ok_bind, tensorBlobSize_eq _ _ (tensorDtypeSize_pos dtype), ok_bind]
      by_cases hfits : blobBytes shape.length (volume shape) (tensorDtypeSize dtype) ≤ uvMax
      · rw [if_pos hfits]
        obtain ⟨tensor, hblob, hwf, hshape, htype, hdata⟩ :=
          newBlob_spec zero hpos hwords dtype hfits
        dsimp only
        rw [hblob]
        exact hmade tensor hwf hshape htype hdata
      · rw [if_neg hfits]
        exact trivial
    · exact absurd hzero hno
    · rw [hrun]
      exact trivial

theorem dimension_croaks (value : Dim) (stop : Stop) (h : dimension value = .error stop) :
    ∃ m, stop = .croak m := by
  cases value with
  | int n =>
    rw [dimension] at h
    by_cases hneg : svIv n < 0
    · rw [if_pos hneg] at h
      exact ⟨_, (Except.error.inj h).symm⟩
    · rw [if_neg hneg] at h
      cases h
  | missing => exact ⟨_, (Except.error.inj h).symm⟩
  | undef => exact ⟨_, (Except.error.inj h).symm⟩
  | other => exact ⟨_, (Except.error.inj h).symm⟩

theorem tensorDtypeFromSv_croaks (name : Option String) (stop : Stop)
    (h : tensorDtypeFromSv name = .error stop) : ∃ m, stop = .croak m := by
  rw [tensorDtypeFromSv.eq_def] at h
  split at h
  all_goals first
    | exact ⟨_, (Except.error.inj h).symm⟩
    | cases h

theorem mapM_dimension {values : List Dim}
    (h : values.map dimension = dims.map Except.ok) : values.mapM dimension = .ok dims := by
  induction values generalizing dims with
  | nil =>
    cases dims with
    | nil => rfl
    | cons d dims => cases h
  | cons value values ih =>
    cases dims with
    | nil => cases h
    | cons d dims =>
      rw [List.map_cons, List.map_cons, List.cons.injEq] at h
      rw [List.mapM_cons, h.1, ok_bind, ih h.2]
      rfl

theorem map_ok_inj {dims' : List Nat}
    (h : dims.map (Except.ok : Nat → TensorM Nat) = dims'.map Except.ok) : dims = dims' :=
  map_pure_eq h

/-- The two ways in which `new_with_dtype` fails: it divides by a dimension that is zero, or the
data of a tensor that fits has a hole where a scalar or an array is due. -/
def NewFails (shape : Option (List Dim)) (data : Source α) (dtype : Option String) : Prop :=
  ∃ values type, shape = some values ∧ tensorDtypeFromSv dtype = .ok type ∧
    (ReachesZero dimension values 1 ∨ ∃ dims items, Accepted dimension values 1 dims ∧
      blobBytes dims.length (volume dims) (tensorDtypeSize type) ≤ uvMax ∧
      volume dims ≤ uvMax / sizeofUv ∧ data = .array items ∧ HoleSource dims items)

/-- Elements of a new tensor: its data in row-major order, or one value for all. -/
def Stored (store : Dtype → α → β) (data : Source α) (tensor : Tensor β) : Prop :=
  match data with
  | .fill value => tensor.data = List.replicate tensor.size (store tensor.dtype value)
  | .array items => FitsSource tensor.shape items ∧
      (sourceLeaves tensor.shape items).length = tensor.size ∧
      tensor.data = (sourceLeaves tensor.shape items).map (store tensor.dtype)

theorem newWithDtype_accepted (zero : β) (store : Dtype → α → β) {values : List Dim}
    (data : Source α) {name : Option String} {dtype : Dtype}
    (hdtype : tensorDtypeFromSv name = .ok dtype) (haccepted : Accepted dimension values 1 dims)
    (hmade : ∀ tensor, WF tensor → tensor.shape = dims → Stored store data tensor → made tensor) :
    Ends made (newWithDtype zero store (some values) data name) ↔
      ¬ (blobBytes dims.length (volume dims) (tensorDtypeSize dtype) ≤ uvMax ∧
        volume dims ≤ uvMax / sizeofUv ∧ ∃ items, data = .array items ∧ HoleSource dims items) := by
  have hrun := haccepted.run
  obtain ⟨hdims, hpos, hwords⟩ := haccepted
  rw [Nat.one_mul] at hrun hwords
  have hlen : values.length = dims.length := by
    have hlens := congrArg List.length hdims
    rwa [List.length_map, List.length_map] at hlens
  rw [newWithDtype]
  dsimp only
  rw [hdtype, ok_bind, hrun, ok_bind, hlen, tensorBlobSize_eq _ _ (tensorDtypeSize_pos dtype), ok_bind]
  by_cases hfits : blobBytes dims.length (volume dims) (tensorDtypeSize dtype) ≤ uvMax
  · rw [if_pos hfits]
    dsimp only
    obtain ⟨tensor, hblob, hwf, hshape, htype, -⟩ := newBlob_spec zero hpos hwords dtype hfits
    rw [mapM_dimension hdims, ok_bind, hblob, ok_bind]
    have hsize : tensor.size = volume dims := by rw [hwf.size, hshape]
    cases data with
    | fill value =>
      refine ⟨fun _ hall => ?_, fun _ => hmade _ (hwf.withData ?_) hshape ?_⟩
      · obtain ⟨-, -, items, hitems, -⟩ := hall
        cases hitems
      · rw [List.length_replicate, hshape]
      · rw [Stored, hsize, htype]
    | array items =>
      dsimp only
      by_cases hwrap : volume dims > uvMax / sizeofUv
      · rw [if_pos hwrap]
        exact ⟨fun _ hall => absurd hall.2.1 (Nat.not_le.2 hwrap), fun _ => trivial⟩
      · obtain ⟨hcopied, hhole, hrefused⟩ := tensorCopyArray_spec dims items
        rw [if_neg hwrap]
        by_cases hfitting : FitsSource dims items
        · obtain ⟨hcopy, hleaves⟩ := hcopied hfitting
          rw [hcopy, ok_bind, if_neg (fun hne => hne hleaves)]
          refine ⟨fun _ hall => ?_, fun _ => hmade _ (hwf.withData ?_) hshape ⟨?_, ?_, ?_⟩⟩
          · obtain ⟨-, -, other, hother, hhole'⟩ := hall
            rw [← Source.array.inj hother] at hhole'
            rw [hhole hhole'] at hcopy
            cases hcopy
          · rw [List.length_map, hleaves, hshape]
          · rw [hshape]
            exact hfitting
          · rw [hshape, hleaves, hsize]
          · rw [hshape, htype]
        · by_cases hholes : HoleSource dims items
          · rw [hhole hholes]
            refine ⟨fun hfalse => absurd hfalse id, fun hno => ?_⟩
            exact hno ⟨hfits, Nat.le_of_not_lt hwrap, items, rfl, hholes⟩
          · obtain ⟨m, hm⟩ := hrefused hfitting hholes
            rw [hm]
            refine ⟨fun _ hall => ?_, fun _ => trivial⟩
            obtain ⟨-, -, other, hother, hhole'⟩ := hall
            rw [← Source.array.inj hother] at hhole'
            exact hholes hhole'
  · rw [if_neg hfits]
    exact ⟨fun _ hall => hfits hall.1, fun _ => trivial⟩

theorem newWithDtype_ends (zero : β) (store : Dtype → α → β) (shape : Option (List Dim))
    (data : Source α) (name : Option String)
    (hmade : ∀ tensor, WF tensor →
      shape.map (·.map dimension) = some (tensor.shape.map Except.ok) →
      Stored store data tensor → made tensor) :
    Ends made (newWithDtype zero store shape data name) ↔ ¬ NewFails shape data name := by
  cases shape with
  | none =>
    refine ⟨fun _ hfails => ?_, fun _ => trivial⟩
    obtain ⟨values, type, hvalues, -⟩ := hfails
    cases hvalues
  | some values =>
    cases hdtype : tensorDtypeFromSv name with
    | error stop =>
      obtain ⟨m, rfl⟩ := tensorDtypeFromSv_croaks name stop hdtype
      rw [newWithDtype]
      dsimp only
      rw [hdtype]
      refine ⟨fun _ hfails => ?_, fun _ => trivial⟩
      obtain ⟨other, type, -, htype, -⟩ := hfails
      rw [hdtype] at htype
      cases htype
    | ok dtype =>
      have hloop (stop : Stop) (h : sizeLoop dimension values 1 = .error stop) :
          newWithDtype zero store (some values) data name = .error stop := by
        rw [newWithDtype]
        dsimp only
        rw [hdtype, ok_bind, h]
        rfl
      rcases sizeLoop_cases dimension_croaks values (by decide : 1 ≤ uvMax) with
        ⟨dims, haccepted⟩ | hzero | ⟨m, hrun⟩
      · have hmade' (tensor : Tensor β) (hwf : WF tensor) (hshape : tensor.shape = dims) :
            Stored store data tensor → made tensor := by
          apply hmade tensor hwf
          rw [Option.map_some, haccepted.1, hshape]
        rw [newWithDtype_accepted zero store data hdtype haccepted hmade', not_iff_not]
        constructor
        · intro hall
          obtain ⟨hfits, hwrap, items, hitems, hholes⟩ := hall
          exact ⟨values, dtype, rfl, hdtype, Or.inr ⟨dims, items, haccepted, hfits, hwrap, hitems,
            hholes⟩⟩
        · intro hfails
          obtain ⟨other, type, hother, htype, hcause⟩ := hfails
          obtain rfl := Option.some.inj hother
          obtain rfl : dtype = type := Except.ok.inj (hdtype.symm.trans htype)
          rcases hcause with hzero | ⟨dims', items, haccepted', hfits, hwrap, hitems, hholes⟩
          · have hrun := haccepted.run
            rw [hzero.run] at hrun
            cases hrun
          · obtain rfl : dims = dims' := map_ok_inj (haccepted.1.symm.trans haccepted'.1)
            exact ⟨hfits, hwrap, items, hitems, hholes⟩
      · rw [hloop _ hzero.run]
        exact ⟨fun hfalse => absurd hfalse id,
          fun hno => hno ⟨values, dtype, rfl, hdtype, Or.inl hzero⟩⟩
      · rw [hloop _ hrun]
        refine ⟨fun _ hfails => ?_, fun _ => trivial⟩
        obtain ⟨other, type, hother, -, hcause⟩ := hfails
        obtain rfl := Option.some.inj hother
        rcases hcause with hzero | ⟨dims', items, haccepted', -⟩
        · rw [hzero.run] at hrun
          cases hrun
        · rw [haccepted'.run] at hrun
          cases hrun

/-- Either constructor makes a sound tensor of the shape and the data that it is given, or throws,
exactly where no dimension is a zero that it divides by and no hole of the data is read. -/
theorem construction_sound (zero : β) (store : Dtype → α → β) (shape : Option (List Dim))
    (data : Source α) (name : Option String) (dims : List Nat) (dtype : Dtype) :
    (Ends (fun tensor => Sound tensor ∧
          shape.map (·.map dimension) = some (tensor.shape.map Except.ok) ∧
          Stored store data tensor) (newWithDtype zero store shape data name) ∧
        Ends (fun tensor => Sound tensor ∧ tensor.shape = dims ∧ tensor.dtype = dtype)
          (tensorNewResult zero dims dtype)) ↔
      ¬ NewFails shape data name ∧ ¬ ReachesZero pure dims 1 := by
  rw [newWithDtype_ends zero store shape data name
      (fun tensor hwf hshape hstored => ⟨hwf.sound, hshape, hstored⟩),
    tensorNewResult_ends zero dims dtype
      (fun tensor hwf hshape htype _ => ⟨hwf.sound, hshape, htype⟩)]

/-- A dimension of zero divides `UV_MAX` by zero. -/
theorem empty_shape_divides_by_zero :
    newWithDtype 0 (fun _ (value : Nat) => value) (some [.int 0]) (.array []) (some "F64") =
        .error .divideByZero ∧
      ¬ Ends (fun tensor => Sound tensor ∧
          (some [Dim.int 0]).map (·.map dimension) = some (tensor.shape.map Except.ok) ∧
          Stored (fun _ (value : Nat) => value) (.array []) tensor)
        (newWithDtype 0 (fun _ (value : Nat) => value) (some [.int 0]) (.array []) (some "F64")) :=
  ⟨rfl, id⟩

end XPerl.TensorXs
