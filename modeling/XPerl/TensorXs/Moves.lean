import XPerl.TensorXs.Algebra

/-! What the loops of the tensor operations store. -/

namespace XPerl.TensorXs

open XPerl.Framework.RowMajor XPerl.Framework.Rounding XPerl.Framework.Fill

variable {β ν : Type}

/-- The tensor of a shape with these elements. -/
def made (shape : List Nat) (dtype : Dtype) (data : List β) : Tensor β where
  magic := tensorMagic
  version := tensorVersion
  rank := shape.length
  size := volume shape
  dtype := dtype
  shape := shape
  strides := strides shape
  data := data
  bytes := blobBytes shape.length (volume shape) (tensorDtypeSize dtype)

variable {tensor source right : Tensor β} {shape : List Nat} {dtype : Dtype} {data : List β}
  {rows cols row column i : Nat}

theorem WF.eq_made (h : WF tensor) :
    tensor = made tensor.shape tensor.dtype tensor.data := by
  obtain ⟨hmagic, hversion, hrank, hsize, hstrides, -, -, -, hbytes, -⟩ := h
  cases tensor
  simp only [made, Tensor.mk.injEq] at *
  simp only [hmagic, hversion, hrank, hsize, hstrides, hbytes, and_self]

/-- A shape of positive dimensions whose tensors fit. -/
structure Fits (shape : List Nat) (dtype : Dtype) : Prop where
  positive : ∀ d ∈ shape, 0 < d
  words : volume shape ≤ uvMax
  fits : blobBytes shape.length (volume shape) (tensorDtypeSize dtype) ≤ uvMax

theorem WF.fit (h : WF tensor) : Fits tensor.shape tensor.dtype := by
  have hwords := h.words
  have hfits := h.fits
  rw [h.size] at hwords
  rw [h.rank, h.size] at hfits
  exact ⟨h.positive, hwords, hfits⟩

theorem Fits.wf (h : Fits shape dtype)
    (hlen : data.length = volume shape) : WF (made shape dtype data) :=
  ⟨rfl, rfl, rfl, rfl, rfl, h.positive, h.words, hlen, rfl, h.fits⟩

theorem tensorFromObject_ok (h : WF tensor) :
    tensorFromObject tensor = .ok tensor := by
  have hheader : ¬ (tensor.magic ≠ tensorMagic ∨ tensor.version ≠ tensorVersion) := by
    rw [h.magic, h.version]
    decide
  have hlen : ¬ tensor.bytes <
      blobBytes tensor.rank tensor.size (tensorDtypeSize tensor.dtype) := by
    rw [h.bytes]
    exact Nat.lt_irrefl _
  rw [tensorFromObject, if_neg hheader]
  dsimp only
  rw [tensorBlobSize_eq _ _ (tensorDtypeSize_pos _), ok_bind, if_pos h.fits]
  dsimp only
  rw [if_neg hlen]
  rfl

theorem sizeLoop_overflow (hpos : ∀ d ∈ shape, 0 < d) {size : Nat}
    (hsize : size ≤ uvMax) (hlarge : uvMax < size * volume shape) :
    sizeLoop pure shape size = .error (.croak "tensor size overflow") := by
  induction shape generalizing size with
  | nil =>
    rw [volume, Nat.mul_one] at hlarge
    omega
  | cons d shape ih =>
    have hd : 0 < d := hpos d List.mem_cons_self
    rw [volume, ← Nat.mul_assoc] at hlarge
    by_cases hnext : size * d ≤ uvMax
    · have hstep : sizeLoop pure (d :: shape) size = sizeLoop pure shape (size * d) :=
        sizeLoop_cons rfl hd hnext
      rw [hstep]
      exact ih (fun x hx => hpos x (List.mem_cons_of_mem d hx)) hnext hlarge
    · have hguard : size > uvMax / d := by
        apply Nat.lt_of_not_le
        intro hle
        exact hnext ((Nat.le_div_iff_mul_le hd).1 hle)
      rw [sizeLoop, pure_bind, quotient_ok (Nat.ne_of_gt hd), ok_bind, if_pos hguard]
      rfl

theorem tensorNewResult_eq (zero : β) (hpos : ∀ d ∈ shape, 0 < d)
    (dtype : Dtype) :
    tensorNewResult zero shape dtype =
      if uvMax < volume shape then .error (.croak "tensor size overflow")
      else if uvMax < blobBytes shape.length (volume shape) (tensorDtypeSize dtype) then
        .error (.croak "tensor blob size overflow")
      else .ok (made shape dtype (List.replicate (volume shape) zero)) := by
  rw [tensorNewResult]
  by_cases hlarge : uvMax < volume shape
  · rw [if_pos hlarge, sizeLoop_overflow hpos (by decide) (by rwa [Nat.one_mul])]
    rfl
  · have haccepted : Accepted pure shape 1 shape :=
      ⟨rfl, hpos, by rw [Nat.one_mul]; exact Nat.le_of_not_lt hlarge⟩
    rw [if_neg hlarge, haccepted.run, Nat.one_mul, ok_bind,
      tensorBlobSize_eq _ _ (tensorDtypeSize_pos dtype), ok_bind]
    by_cases hbytes : uvMax < blobBytes shape.length (volume shape) (tensorDtypeSize dtype)
    · rw [if_pos hbytes, if_neg (Nat.not_le.2 hbytes)]
      rfl
    · rw [if_neg hbytes, if_pos (Nat.le_of_not_lt hbytes)]
      dsimp only
      rw [newBlob, strideLoop_spec hpos (Nat.le_of_not_lt hlarge)]
      rfl

theorem Fits.newResult (h : Fits shape dtype) (zero : β) :
    tensorNewResult zero shape dtype =
      .ok (made shape dtype (List.replicate (volume shape) zero)) := by
  rw [tensorNewResult_eq zero h.positive, if_neg (Nat.not_lt.2 h.words),
    if_neg (Nat.not_lt.2 h.fits)]

theorem WF.matrix (h : WF tensor)
    (hshape : tensor.shape = [rows, cols]) :
    0 < rows ∧ 0 < cols ∧ tensor.data.length = rows * cols ∧ rows * cols ≤ uvMax := by
  have hpos := h.positive
  have hwords := h.words
  have hvolume : volume [rows, cols] = rows * cols := by
    rw [volume, volume, volume, Nat.mul_one]
  rw [h.size] at hwords
  rw [h.data, h.size]
  rw [hshape] at hpos hwords ⊢
  rw [hvolume] at hwords ⊢
  exact ⟨hpos rows List.mem_cons_self, hpos cols (List.mem_cons_of_mem _ List.mem_cons_self), rfl,
    hwords⟩

theorem WF.vector (h : WF tensor) {length : Nat}
    (hshape : tensor.shape = [length]) :
    0 < length ∧ tensor.data.length = length ∧ length ≤ uvMax := by
  have hpos := h.positive
  have hwords := h.words
  have hvolume : volume [length] = length := by rw [volume, volume, Nat.mul_one]
  rw [h.size] at hwords
  rw [h.data, h.size]
  rw [hshape] at hpos hwords ⊢
  rw [hvolume] at hwords ⊢
  exact ⟨hpos length List.mem_cons_self, rfl, hwords⟩

theorem Fits.swap (h : Fits [rows, cols] dtype) :
    Fits [cols, rows] dtype := by
  have hvolume : volume [cols, rows] = volume [rows, cols] := by
    rw [volume, volume, volume, volume, volume, volume, Nat.mul_one, Nat.mul_one, Nat.mul_comm]
  refine ⟨?_, by rw [hvolume]; exact h.words, by rw [hvolume]; exact h.fits⟩
  intro d hd
  apply h.positive d
  rcases List.mem_cons.1 hd with rfl | hd
  · exact List.mem_cons_of_mem _ List.mem_cons_self
  · rw [List.mem_singleton.1 hd]
    exact List.mem_cons_self

theorem elementIndex_ok {columns : Nat} (h : row * columns + column ≤ uvMax) :
    elementIndex row columns column = .ok (row * columns + column) := by
  rw [elementIndex, word_ok (by omega), ok_bind, word_ok h]

theorem place_lt_area (hrow : row < rows) (hcol : column < cols) :
    row * cols + column < rows * cols := by
  have hle : (row + 1) * cols ≤ rows * cols := Nat.mul_le_mul_right _ hrow
  rw [Nat.succ_mul] at hle
  omega

theorem place_inj {row' column' : Nat} (hcol : column < cols)
    (hcol' : column' < cols) (h : row * cols + column = row' * cols + column') :
    row = row' ∧ column = column' := by
  have hpos : 0 < cols := by omega
  have hdiv := congrArg (· / cols) h
  have hmod := congrArg (· % cols) h
  simp only [Nat.mul_add_mod_self_right, Nat.mod_eq_of_lt hcol, Nat.mod_eq_of_lt hcol'] at hmod
  rw [hmod] at h
  refine ⟨?_, hmod⟩
  exact Nat.eq_of_mul_eq_mul_right hpos (by omega)

theorem loadAt_ok (access : Access β ν) {x : β}
    (h : tensor.data[i]? = some x) :
    loadAt access tensor i = .ok (access.load tensor.dtype x) := by
  rw [loadAt, h]
  rfl

theorem storeAt_eq (access : Access β ν) (dtype : Dtype)
    (h : i < data.length) (value : ν) :
    storeAt access dtype data i value = (fun v => data.set i v) <$> access.store dtype value := by
  rw [storeAt]
  cases access.store dtype value with
  | error stop => rfl
  | ok v =>
    rw [ok_bind, if_pos h]
    rfl

theorem shapeAt_ok {d : Nat} (h : tensor.shape[i]? = some d) :
    shapeAt tensor i = .ok d := by
  rw [shapeAt, h]
  rfl

/-- The element that `transpose` moves from a row and a column. -/
def moved (access : Access β ν) (source : Tensor β) (cols : Nat) (key : Nat × Nat) : TensorM β :=
  match source.data[key.1 * cols + key.2]? with
  | none => throw .outOfBounds
  | some x => access.store source.dtype (access.load source.dtype x)

theorem transpose_outcome (access : Access β ν) (h : WF source)
    (hshape : source.shape = [rows, cols]) :
    ∃ run, transpose access source = made [cols, rows] source.dtype <$> run ∧
      Outcome (fun key => key.2 * rows + key.1) (moved access source cols)
        ((List.range rows).product (List.range cols))
        (List.replicate (volume [cols, rows]) access.zero) run := by
  obtain ⟨hrows, hcols, hlen, hwords⟩ := h.matrix hshape
  have hrank : ¬ source.rank ≠ 2 := by
    rw [h.rank, hshape]
    exact fun hne => hne rfl
  have hfits : Fits [cols, rows] source.dtype := by
    have hfit := h.fit
    rw [hshape] at hfit
    exact hfit.swap
  have hvolume : volume [cols, rows] = cols * rows := by
    rw [volume, volume, volume, Nat.mul_one]
  rw [transpose, tensorFromObject_ok h, ok_bind, if_neg hrank]
  dsimp only
  rw [shapeAt_ok (by rw [hshape]; rfl : source.shape[1]? = some cols), ok_bind,
    shapeAt_ok (by rw [hshape]; rfl : source.shape[0]? = some rows), ok_bind,
    hfits.newResult access.zero, ok_bind]
  refine ⟨_, rfl, ?_⟩
  rw [foldlM_product (fun data (key : Nat × Nat) => do
      let here ← elementIndex key.1 cols key.2
      let value ← loadAt access source here
      let there ← elementIndex key.2 rows key.1
      storeAt access source.dtype data there value)]
  apply foldlM_outcome
  · intro key hkey data hdata
    obtain ⟨hrow, hcol⟩ := List.mem_product.1 hkey
    rw [List.mem_range] at hrow hcol
    have hhere := place_lt_area hrow hcol
    have hthere := place_lt_area hcol hrow
    have hget := List.getElem?_eq_getElem (by rw [hlen]; exact hhere :
      key.1 * cols + key.2 < source.data.length)
    rw [Nat.mul_comm cols rows] at hthere
    have hwrite : key.2 * rows + key.1 < data.length := by
      rw [hdata, List.length_replicate, hvolume, Nat.mul_comm cols rows]
      exact hthere
    rw [elementIndex_ok (by omega), ok_bind, loadAt_ok access hget, ok_bind,
      elementIndex_ok (by omega), ok_bind, storeAt_eq access _ hwrite, moved, hget]
  · intro key hkey
    obtain ⟨hrow, hcol⟩ := List.mem_product.1 hkey
    rw [List.mem_range] at hrow hcol
    rw [List.length_replicate, hvolume]
    exact place_lt_area hcol hrow
  · apply pairwise_place (List.nodup_range.product List.nodup_range)
    intro key hkey key' hkey' heq
    have hrow := List.mem_range.1 (List.mem_product.1 hkey).1
    have hrow' := List.mem_range.1 (List.mem_product.1 hkey').1
    obtain ⟨hcol, hrow⟩ := place_inj hrow hrow' heq
    exact Prod.ext hrow hcol

/-- The element that a source and another tensor are combined to; the elements of a vector are
repeated. -/
def combinedAt (access : Access β ν) (arith : Arith ν) (op : TensorOp) (source right : Tensor β)
    (i : Nat) : TensorM β :=
  match source.data[i]?, right.data[i % right.size]? with
  | some x, some y =>
    access.store source.dtype
      (tensorBinaryOp arith op (access.load source.dtype x) (access.load right.dtype y))
  | _, _ => throw .outOfBounds

def Combined (source : Tensor β) (value : Nat → TensorM β) : TensorM (Tensor β) → Prop
  | .ok tensor => tensor = { source with data := tensor.data } ∧
      tensor.data.length = source.size ∧
      ∀ i < source.size, ∃ v, value i = .ok v ∧ tensor.data[i]? = some v
  | .error stop => ∃ i < source.size, value i = .error stop

theorem exists_getElem? (h : WF tensor) (hi : i < tensor.size) :
    ∃ x, tensor.data[i]? = some x :=
  ⟨_, List.getElem?_eq_getElem (by rw [h.data]; exact hi)⟩

theorem WF.size_pos (h : WF tensor) : 0 < tensor.size := by
  rw [h.size]
  exact volume_pos h.positive

theorem binary_element (access : Access β ν) (hsource : WF source) (hright : WF right)
    (hcompat : BinaryCompatible source right) (hi : i < source.size) :
    ∃ x y, source.data[i]? = some x ∧ right.data[i % right.size]? = some y ∧
      binaryRight access source (.tensor right) i = .ok (access.load right.dtype y) := by
  obtain ⟨x, hx⟩ := exists_getElem? hsource hi
  obtain ⟨y, hy⟩ := exists_getElem? hright (Nat.mod_lt i hright.size_pos)
  refine ⟨x, y, hx, hy, ?_⟩
  rw [binaryRight]
  by_cases hvector : right.rank = 1 ∧ source.rank = 2
  · have hcolumns : some right.size = source.shape[1]? := by
      rcases hcompat with ⟨-, hrank⟩ | ⟨-, -, hcolumns⟩
      · omega
      · exact hcolumns
    dsimp only
    rw [if_pos hvector, shapeAt_ok hcolumns.symm, ok_bind,
      if_neg (Nat.ne_of_gt hright.size_pos)]
    exact loadAt_ok access hy
  · have hsize : right.size = source.size := by
      rcases hcompat with ⟨hsize, -⟩ | ⟨hrank, hone, -⟩
      · exact hsize
      · exact absurd ⟨hone, hrank⟩ hvector
    rw [Nat.mod_eq_of_lt (by omega)] at hy
    dsimp only
    rw [if_neg hvector]
    exact loadAt_ok access hy

theorem binary_combined (access : Access β ν) (arith : Arith ν) {op : TensorOp} {name : String}
    (hop : tensorOpFromSv name = .ok op) (hsource : WF source)
    (hright : WF right) (hcompat : BinaryCompatible source right) :
    Combined source (combinedAt access arith op source right)
      (binary access arith source (.tensor right) name) := by
  have hother : tensorOther (.tensor right : Other β ν) = .ok (.tensor right) := by
    rw [tensorOther, tensorFromObject_ok hright]
    rfl
  have htest : binaryTest source (.tensor right : Other β ν) = .ok () := by
    rw [binaryTest, if_pos hcompat]
    rfl
  have hvolume := hsource.size
  have hrun : ∃ run, binary access arith source (.tensor right) name =
      made source.shape source.dtype <$> run ∧
      Outcome id (combinedAt access arith op source right) (List.range source.size)
        (List.replicate (volume source.shape) access.zero) run := by
    rw [binary, tensorFromObject_ok hsource, ok_bind, hother, ok_bind, htest, ok_bind, hop, ok_bind,
      hsource.fit.newResult access.zero, ok_bind]
    refine ⟨_, rfl, ?_⟩
    apply foldlM_outcome
    · intro i hi data hdata
      rw [List.mem_range] at hi
      obtain ⟨x, y, hx, hy, hvalue⟩ := binary_element access hsource hright hcompat hi
      have hwrite : i < data.length := by
        rw [hdata, List.length_replicate, ← hvolume]
        exact hi
      rw [hvalue, ok_bind, loadAt_ok access hx, ok_bind, storeAt_eq access _ hwrite, combinedAt, hx,
        hy]
      rfl
    · intro i hi
      rw [List.length_replicate, ← hvolume]
      exact List.mem_range.1 hi
    · exact pairwise_place List.nodup_range (fun _ _ _ _ heq => heq)
  obtain ⟨run, heq, houtcome⟩ := hrun
  rw [heq]
  cases run with
  | error stop =>
    obtain ⟨i, hi, hstop⟩ := houtcome
    exact ⟨i, List.mem_range.1 hi, hstop⟩
  | ok data =>
    have hlen := houtcome.length
    rw [List.length_replicate, ← hvolume] at hlen
    refine ⟨?_, hlen, ?_⟩
    · change made source.shape source.dtype data = { source with data := data }
      rw [hsource.eq_made]
      rfl
    · intro i hi
      exact houtcome.stored i (List.mem_range.2 hi)

theorem inplaceLoop_spec (access : Access β ν) (arith : Arith ν) (op : TensorOp)
    {object : Tensor β} (hobject : WF object) (hright : WF right)
    (hsize : right.size = object.size) {rounds : Nat} (hend : i + rounds = object.size)
    (hlen : data.length = object.size)
    (hrest : ∀ j, i ≤ j → data[j]? = object.data[j]?) :
    match inplaceLoop access arith op (.tensor right) rounds i { object with data := data } with
    | (.ok _, after) => after = { object with data := after.data } ∧
        after.data.length = object.size ∧ (∀ j < i, after.data[j]? = data[j]?) ∧
        ∀ j, i ≤ j → j < object.size →
          ∃ v, combinedAt access arith op object right j = .ok v ∧ after.data[j]? = some v
    | (.error stop, _) =>
        ∃ j < object.size, combinedAt access arith op object right j = .error stop := by
  induction rounds generalizing i data with
  | zero =>
    rw [inplaceLoop]
    exact ⟨rfl, hlen, fun _ _ => rfl, fun j hj hj' => by omega⟩
  | succ rounds ih =>
    have hi : i < object.size := by omega
    obtain ⟨x, hx⟩ := exists_getElem? hobject hi
    obtain ⟨y, hy⟩ := exists_getElem? hright (by rw [hsize]; exact hi : i < right.size)
    have hread : ({ object with data := data } : Tensor β).data[i]? = some x := by
      rw [← hx]
      exact hrest i (Nat.le_refl i)
    have hvalue : combinedAt access arith op object right i = access.store object.dtype
        (tensorBinaryOp arith op (access.load object.dtype x) (access.load right.dtype y)) := by
      rw [combinedAt, Nat.mod_eq_of_lt (by omega), hx, hy]
    rw [inplaceLoop]
    dsimp only
    rw [inplaceRight, loadAt_ok access hy, ok_bind, loadAt_ok access hread, ok_bind,
      storeAt_eq access _ (by rw [hlen]; exact hi), ← hvalue]
    cases hstore : combinedAt access arith op object right i with
    | error stop => exact ⟨i, hi, hstore⟩
    | ok v =>
      have hnext := ih (by omega : i + 1 + rounds = object.size)
        (by rw [List.length_set]; exact hlen : (data.set i v).length = object.size)
        (fun j hj => by
          rw [List.getElem?_set_ne (by omega)]
          exact hrest j (by omega))
      change (match inplaceLoop access arith op (.tensor right) rounds (i + 1)
          { object with data := data.set i v } with
        | (.ok _, after) => _
        | (.error stop, _) => _)
      cases hloop : inplaceLoop access arith op (.tensor right) rounds (i + 1)
          { object with data := data.set i v } with
      | mk ended after =>
        rw [hloop] at hnext
        cases ended with
        | error stop => exact hnext
        | ok _ =>
          obtain ⟨hsame, hlen', hfront, hback⟩ := hnext
          refine ⟨hsame, hlen', ?_, ?_⟩
          · intro j hj
            rw [hfront j (by omega)]
            exact List.getElem?_set_ne (by omega)
          · intro j hj hj'
            by_cases heq : j = i
            · subst heq
              refine ⟨v, hstore, ?_⟩
              rw [hfront j (Nat.lt_succ_self j)]
              exact List.getElem?_set_self (by omega)
            · exact hback j (by omega) hj'

/-- How `inplace` ends, for the tensor that it leaves. -/
def InplaceCombined (source : Tensor β) (value : Nat → TensorM β) :
    TensorM Unit × Tensor β → Prop
  | (.ok _, after) => Combined source value (.ok after)
  | (.error stop, _) => Combined source value (.error stop)

theorem inplace_eq (access : Access β ν) (arith : Arith ν)
    (hsource : WF source) (hright : WF right) (name : String) :
    inplace access arith source (.tensor right) name =
      match (do inplaceTest source (.tensor right : Other β ν); tensorOpFromSv name) with
      | .error stop => (.error stop, source)
      | .ok op => inplaceLoop access arith op (.tensor right) source.size 0 source := by
  rw [inplace, tensorFromObject_ok hsource, ok_bind, tensorOther, tensorFromObject_ok hright]
  rfl

theorem inplace_combined (access : Access β ν) (arith : Arith ν) {op : TensorOp} {name : String}
    (hop : tensorOpFromSv name = .ok op) (hsource : WF source)
    (hright : WF right) (hsize : right.size = source.size) (hrank : right.rank = source.rank) :
    InplaceCombined source (combinedAt access arith op source right)
      (inplace access arith source (.tensor right) name) := by
  have htest : ¬ (right.size ≠ source.size ∨ right.rank ≠ source.rank) := by
    rw [hsize, hrank]
    exact fun hne => hne.elim (fun h => h rfl) (fun h => h rfl)
  have hloop := inplaceLoop_spec access arith op hsource hright hsize
    (Nat.zero_add source.size) hsource.data (fun _ _ => rfl)
  rw [inplace_eq access arith hsource hright, inplaceTest, if_neg htest, hop]
  change InplaceCombined _ _ (inplaceLoop access arith op (.tensor right) source.size 0 source)
  change (match inplaceLoop access arith op (.tensor right) source.size 0 source with
    | (.ok _, after) => _
    | (.error stop, _) => _) at hloop
  cases hrun : inplaceLoop access arith op (.tensor right) source.size 0 source with
  | mk ended after =>
    rw [hrun] at hloop
    cases ended with
    | error stop => exact hloop
    | ok _ =>
      obtain ⟨hsame, hlen, -, hback⟩ := hloop
      exact ⟨hsame, hlen, fun i hi => hback i (Nat.zero_le i) hi⟩

end XPerl.TensorXs
