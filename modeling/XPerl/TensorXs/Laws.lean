import XPerl.TensorXs.Moves

/-! The laws of the tensor operations, and the tensors that meet them. -/

namespace XPerl.TensorXs

open XPerl.Framework.RowMajor XPerl.Framework.Rounding XPerl.Framework.Fill

variable {β ν : Type}

def Throws {γ : Type} (result : TensorM γ) : Prop := ∃ message, result = .error (.croak message)

def Matches (source right : Tensor β) : Prop :=
  right.shape = source.shape ∨ ∃ rows cols, source.shape = [rows, cols] ∧ right.shape = [cols]

/-- `binary` combines operands that match, and throws for others. -/
def BinaryLaw (arith : Arith Datum) (source right : Tensor Nat) (name : String) : Prop :=
  (Matches source right → ∀ op, tensorOpFromSv name = .ok op →
    Combined source (combinedAt native arith op source right)
      (binary native arith source (.tensor right) name)) ∧
  (¬ Matches source right → Throws (binary native arith source (.tensor right) name))

/-- `inplace` combines operands of one shape, and throws for others, with the source as before. -/
def InplaceLaw (arith : Arith Datum) (source right : Tensor Nat) (name : String) : Prop :=
  (right.shape = source.shape → ∀ op, tensorOpFromSv name = .ok op →
    InplaceCombined source (combinedAt native arith op source right)
      (inplace native arith source (.tensor right) name)) ∧
  (right.shape ≠ source.shape → Throws (inplace native arith source (.tensor right) name).1 ∧
    (inplace native arith source (.tensor right) name).2 = source)

variable {stop : Stop} {name : String} {cols rows : Nat}

theorem intOfNv_error {lower upper : Int} {value : Datum}
    (h : intOfNv lower upper value = .error stop) : stop = .undefined := by
  rw [intOfNv] at h
  cases htruncate : value.truncate with
  | none =>
    rw [htruncate] at h
    exact (Except.error.inj h).symm
  | some integer =>
    rw [htruncate] at h
    dsimp only at h
    by_cases hrange : lower ≤ integer ∧ integer ≤ upper
    · rw [if_pos hrange] at h
      cases h
    · rw [if_neg hrange] at h
      exact (Except.error.inj h).symm

theorem map_error {γ δ : Type} {f : γ → δ} {run : TensorM γ}
    (h : f <$> run = .error stop) : run = .error stop := by
  cases run with
  | ok value => cases h
  | error other =>
    have hstop : (Except.error other : TensorM δ) = .error stop := h
    rw [Except.error.inj hstop]

theorem f16OfFloatBits_error {bits : Nat} (h : f16OfFloatBits bits = .error stop) :
    stop = .undefined := by
  rw [f16OfFloatBits] at h
  dsimp only at h
  repeat' split at h
  all_goals first
    | exact (Except.error.inj h).symm
    | cases h

theorem tensorStoreNv_error {dtype : Dtype} {value : Datum}
    (h : tensorStoreNv dtype value = .error stop) : stop = .undefined := by
  cases dtype with
  | u8 => exact intOfNv_error (map_error h)
  | u16 => exact intOfNv_error (map_error h)
  | u32 => exact intOfNv_error (map_error h)
  | u64 => exact intOfNv_error (map_error h)
  | i8 => exact intOfNv_error (map_error h)
  | i16 => exact intOfNv_error (map_error h)
  | i32 => exact intOfNv_error (map_error h)
  | i64 => exact intOfNv_error (map_error h)
  | f16 => exact f16OfFloatBits_error h
  | bf16 => cases h
  | f32 => cases h
  | f64 => cases h
  | nv => cases h

theorem Combined.not_throws {arith : Arith Datum} {op : TensorOp} {source right : Tensor Nat}
    (hsource : WF source) (hright : WF right) {result : TensorM (Tensor Nat)}
    (h : Combined source (combinedAt native arith op source right) result) : ¬ Throws result := by
  intro hthrows
  obtain ⟨message, rfl⟩ := hthrows
  obtain ⟨i, hi, hstop⟩ := h
  obtain ⟨x, hx⟩ := exists_getElem? hsource hi
  obtain ⟨y, hy⟩ := exists_getElem? hright (Nat.mod_lt i hright.size_pos)
  rw [combinedAt, hx, hy] at hstop
  cases tensorStoreNv_error hstop

/-- The condition on two operands: where their ranks and sizes are equal, their shapes are. -/
def SameShape (source right : Tensor β) : Prop :=
  right.rank = source.rank → right.size = source.size → right.shape = source.shape

theorem binaryCompatible_iff {source right : Tensor β} (hsource : WF source) (hright : WF right) :
    BinaryCompatible source right ↔ (right.size = source.size ∧ right.rank = source.rank) ∨
      ∃ rows cols, source.shape = [rows, cols] ∧ right.shape = [cols] := by
  rw [BinaryCompatible]
  constructor
  · intro h
    rcases h with hsame | ⟨htwo, hone, hcolumns⟩
    · exact Or.inl hsame
    · rw [hsource.rank] at htwo
      rw [hright.rank] at hone
      obtain ⟨rows, cols, hshape⟩ := List.length_eq_two.1 htwo
      obtain ⟨length, hvector⟩ := List.length_eq_one_iff.1 hone
      have hsize : right.size = length := by
        rw [hright.size, hvector, volume, volume, Nat.mul_one]
      rw [hshape, hsize] at hcolumns
      rw [Option.some.inj hcolumns] at hvector
      exact Or.inr ⟨rows, cols, hshape, hvector⟩
  · intro h
    rcases h with hsame | ⟨rows, cols, hshape, hvector⟩
    · exact Or.inl hsame
    · have hsize : right.size = cols := by
        rw [hright.size, hvector, volume, volume, Nat.mul_one]
      refine Or.inr ⟨?_, ?_, ?_⟩
      · rw [hsource.rank, hshape]
        rfl
      · rw [hright.rank, hvector]
        rfl
      · rw [hsize, hshape]
        rfl

theorem Matches.compatible {source right : Tensor β} (hsource : WF source) (hright : WF right)
    (h : Matches source right) : BinaryCompatible source right := by
  rw [binaryCompatible_iff hsource hright]
  rcases h with hshape | hvector
  · refine Or.inl ⟨?_, ?_⟩
    · rw [hright.size, hsource.size, hshape]
    · rw [hright.rank, hsource.rank, hshape]
  · exact Or.inr hvector

theorem binary_refuses (arith : Arith Datum) {source right : Tensor Nat} (hsource : WF source)
    (hright : WF right) (name : String) (h : ¬ BinaryCompatible source right) :
    Throws (binary native arith source (.tensor right) name) := by
  refine ⟨"tensor operands must have compatible shapes", ?_⟩
  rw [binary, tensorFromObject_ok hsource, ok_bind, tensorOther, tensorFromObject_ok hright]
  change (do binaryTest source (.tensor right : Other Nat Datum); _) = _
  rw [binaryTest, if_neg h]
  rfl

theorem tensorOpFromSv_croaks (h : ¬ ∃ op, tensorOpFromSv name = .ok op) :
    ∃ message, tensorOpFromSv name = .error (.croak message) := by
  cases hop : tensorOpFromSv name with
  | ok op => exact absurd ⟨op, hop⟩ h
  | error stop =>
    rw [tensorOpFromSv.eq_def] at hop
    split at hop
    all_goals first
      | exact ⟨_, congrArg Except.error (Except.error.inj hop).symm⟩
      | cases hop

theorem binary_unknown (arith : Arith Datum) {source right : Tensor Nat} (hsource : WF source)
    (hright : WF right) (h : ¬ ∃ op, tensorOpFromSv name = .ok op) :
    Throws (binary native arith source (.tensor right) name) := by
  by_cases hcompat : BinaryCompatible source right
  · obtain ⟨message, hop⟩ := tensorOpFromSv_croaks h
    refine ⟨message, ?_⟩
    rw [binary, tensorFromObject_ok hsource, ok_bind, tensorOther, tensorFromObject_ok hright]
    change (do binaryTest source (.tensor right : Other Nat Datum); _) = _
    rw [binaryTest, if_pos hcompat, hop]
    rfl
  · exact binary_refuses arith hsource hright name hcompat

theorem binaryLaw_iff (arith : Arith Datum) {source right : Tensor Nat} (hsource : WF source)
    (hright : WF right) (name : String) :
    BinaryLaw arith source right name ↔
      ((∃ op, tensorOpFromSv name = .ok op) → SameShape source right) := by
  constructor
  · intro hlaw hop hrank hsize
    obtain ⟨op, hop⟩ := hop
    apply Decidable.byContradiction
    intro hne
    have hno : ¬ Matches source right := by
      intro hmatches
      rcases hmatches with hshape | ⟨rows, cols, hshape, hvector⟩
      · exact hne hshape
      · rw [hsource.rank, hright.rank, hshape, hvector] at hrank
        cases hrank
    exact (binary_combined native arith hop hsource hright (Or.inl ⟨hsize, hrank⟩)).not_throws
      hsource hright (hlaw.2 hno)
  · intro hcondition
    refine ⟨fun hmatches op hop => ?_, fun hno => ?_⟩
    · exact binary_combined native arith hop hsource hright (hmatches.compatible hsource hright)
    · by_cases hcompat : BinaryCompatible source right
      · apply binary_unknown arith hsource hright
        intro hop
        rcases (binaryCompatible_iff hsource hright).1 hcompat with ⟨hsize, hrank⟩ | hvector
        · exact hno (Or.inl (hcondition hop hrank hsize))
        · exact hno (Or.inr hvector)
      · exact binary_refuses arith hsource hright name hcompat

theorem inplace_refuses (arith : Arith Datum) {source right : Tensor Nat} (hsource : WF source)
    (hright : WF right)
    (h : (right.size ≠ source.size ∨ right.rank ≠ source.rank) ∨
      ¬ ∃ op, tensorOpFromSv name = .ok op) :
    Throws (inplace native arith source (.tensor right) name).1 ∧
      (inplace native arith source (.tensor right) name).2 = source := by
  have hchecked : ∃ message, inplace native arith source (.tensor right) name =
      (.error (.croak message), source) := by
    rw [inplace_eq native arith hsource hright, inplaceTest]
    by_cases htest : right.size ≠ source.size ∨ right.rank ≠ source.rank
    · rw [if_pos htest]
      exact ⟨_, rfl⟩
    · obtain ⟨message, hop⟩ := tensorOpFromSv_croaks (h.resolve_left htest)
      rw [if_neg htest, hop]
      exact ⟨message, rfl⟩
  obtain ⟨message, hrun⟩ := hchecked
  rw [hrun]
  exact ⟨⟨message, rfl⟩, rfl⟩

theorem inplaceLaw_iff (arith : Arith Datum) {source right : Tensor Nat} (hsource : WF source)
    (hright : WF right) (name : String) :
    InplaceLaw arith source right name ↔
      ((∃ op, tensorOpFromSv name = .ok op) → SameShape source right) := by
  constructor
  · intro hlaw hop hrank hsize
    obtain ⟨op, hop⟩ := hop
    apply Decidable.byContradiction
    intro hne
    have hthrows := (hlaw.2 hne).1
    have hcombined := inplace_combined native arith hop hsource hright hsize hrank
    cases hrun : inplace native arith source (.tensor right) name with
    | mk ended after =>
      rw [hrun] at hthrows hcombined
      obtain ⟨message, hmessage⟩ := hthrows
      dsimp only at hmessage
      subst hmessage
      have herror : Combined source (combinedAt native arith op source right)
          (.error (.croak message)) := hcombined
      exact herror.not_throws hsource hright ⟨message, rfl⟩
  · intro hcondition
    refine ⟨fun hshape op hop => ?_, fun hne => ?_⟩
    · apply inplace_combined native arith hop hsource hright
      · rw [hright.size, hsource.size, hshape]
      · rw [hright.rank, hsource.rank, hshape]
    · apply inplace_refuses arith hsource hright
      by_cases htest : right.size ≠ source.size ∨ right.rank ≠ source.rank
      · exact Or.inl htest
      · refine Or.inr (fun hop => hne (hcondition hop ?_ ?_))
        · exact Decidable.not_not.1 (fun h => htest (Or.inr h))
        · exact Decidable.not_not.1 (fun h => htest (Or.inl h))

/-- Two transpositions give the tensor back. -/
def TransposeLaw (source : Tensor Nat) : Prop :=
  source.rank = 2 → (transpose native source >>= transpose native) = .ok source

/-- Elements are as many bits as their type has. -/
def Typed (tensor : Tensor Nat) : Prop :=
  ∀ bits ∈ tensor.data, bits < 2 ^ (8 * tensorDtypeSize tensor.dtype)

theorem moved_native {source : Tensor Nat} {key : Nat × Nat} {bits : Nat}
    (h : source.data[key.1 * cols + key.2]? = some bits) :
    moved native source cols key = trip source.dtype bits := by
  rw [moved, h]
  rfl

def transposed (rows cols : Nat) (data : List β) (default : β) : List β :=
  (List.range (cols * rows)).map fun i => data.getD (i % rows * cols + i / rows) default

@[simp] theorem length_transposed (rows cols : Nat) (data : List β) (default : β) :
    (transposed rows cols data default).length = cols * rows := by
  rw [transposed, List.length_map, List.length_range]

theorem getElem?_transposed {row column : Nat} (hrow : row < rows) (hcol : column < cols)
    {data : List β} {x default : β} (hx : data[row * cols + column]? = some x) :
    (transposed rows cols data default)[column * rows + row]? = some x := by
  have hdiv : (column * rows + row) / rows = column := by
    rw [Nat.mul_comm, Nat.mul_add_div (by omega), Nat.div_eq_of_lt hrow, Nat.add_zero]
  have hmod : (column * rows + row) % rows = row := by
    rw [Nat.mul_add_mod_self_right, Nat.mod_eq_of_lt hrow]
  rw [transposed, List.getElem?_map, List.getElem?_range (place_lt_area hcol hrow),
    Option.map_some, hdiv, hmod, List.getD_eq_getElem?_getD, hx, Option.getD_some]

theorem transpose_ok {access : Access β ν} {source : Tensor β} (h : WF source)
    (hshape : source.shape = [rows, cols])
    (hback : ∀ x ∈ source.data, access.store source.dtype (access.load source.dtype x) = .ok x) :
    transpose access source = .ok (made [cols, rows] source.dtype
      (transposed rows cols source.data access.zero)) := by
  obtain ⟨hrows, hcols, hlen, -⟩ := h.matrix hshape
  have hvolume : volume [cols, rows] = cols * rows := by
    rw [volume, volume, volume, Nat.mul_one]
  obtain ⟨run, hrun, houtcome⟩ := transpose_outcome access h hshape
  have hall : run = .ok (transposed rows cols source.data access.zero) := by
    apply houtcome.eq_ok
    · rw [length_transposed, List.length_replicate, hvolume]
    · intro key hkey
      obtain ⟨hrow, hcol⟩ := List.mem_product.1 hkey
      rw [List.mem_range] at hrow hcol
      have hget := List.getElem?_eq_getElem (by rw [hlen]; exact place_lt_area hrow hcol :
        key.1 * cols + key.2 < source.data.length)
      refine ⟨_, ?_, getElem?_transposed hrow hcol hget⟩
      rw [moved, hget]
      exact hback _ (List.getElem_mem _)
    · intro i hi
      rw [List.length_replicate, hvolume] at hi
      refine ⟨(i % rows, i / rows), ?_, ?_⟩
      · rw [List.pair_mem_product, List.mem_range, List.mem_range]
        exact ⟨Nat.mod_lt i hrows, Nat.div_lt_of_lt_mul (by rwa [Nat.mul_comm] at hi)⟩
      · exact Nat.div_add_mod' i rows
  rw [hrun, hall]
  rfl

theorem transposed_transposed (hcols : 0 < cols)
    {data : List β} (hlen : data.length = rows * cols) (default : β) :
    transposed cols rows (transposed rows cols data default) default = data := by
  apply List.ext_getElem?
  intro i
  by_cases hi : i < rows * cols
  · have hrow : i / cols < rows := Nat.div_lt_of_lt_mul (by rwa [Nat.mul_comm] at hi)
    have hcol : i % cols < cols := Nat.mod_lt i hcols
    have hplace : i / cols * cols + i % cols = i := Nat.div_add_mod' i cols
    obtain ⟨x, hx⟩ : ∃ x, data[i / cols * cols + i % cols]? = some x :=
      ⟨_, List.getElem?_eq_getElem (by rw [hlen]; exact place_lt_area hrow hcol)⟩
    have honce : (transposed rows cols data default)[i % cols * rows + i / cols]? = some x :=
      getElem?_transposed hrow hcol hx
    have htwice : (transposed cols rows (transposed rows cols data default)
        default)[i / cols * cols + i % cols]? = some x := getElem?_transposed hcol hrow honce
    rw [hplace] at htwice hx
    rw [htwice, hx]
  · rw [List.getElem?_eq_none (by rw [length_transposed]; omega),
      List.getElem?_eq_none (by omega)]

theorem transposeLaw_iff {source : Tensor Nat} (h : WF source) (htyped : Typed source) :
    TransposeLaw source ↔
      (source.rank = 2 → ∀ bits ∈ source.data, Survives source.dtype bits) := by
  rw [TransposeLaw]
  apply imp_congr_right
  intro hrank
  rw [h.rank] at hrank
  obtain ⟨rows, cols, hshape⟩ := List.length_eq_two.1 hrank
  obtain ⟨hrows, hcols, hlen, -⟩ := h.matrix hshape
  have hfits : Fits [cols, rows] source.dtype := by
    have hfit := h.fit
    rw [hshape] at hfit
    exact hfit.swap
  constructor
  · intro htwice bits hbits
    obtain ⟨i, hi, hget⟩ := List.getElem_of_mem hbits
    have hbits' : source.data[i]? = some bits := by rw [List.getElem?_eq_getElem hi, hget]
    rw [hlen] at hi
    have hrow : i / cols < rows := Nat.div_lt_of_lt_mul (by rwa [Nat.mul_comm] at hi)
    have hcol : i % cols < cols := Nat.mod_lt i hcols
    have hplace : i / cols * cols + i % cols = i := Nat.div_add_mod' i cols
    obtain ⟨run, hrun, houtcome⟩ := transpose_outcome native h hshape
    rw [hrun] at htwice
    cases run with
    | error stop => cases htwice
    | ok data =>
      have hdata : WF (made [cols, rows] source.dtype data) := by
        apply hfits.wf
        rw [houtcome.length, List.length_replicate]
      obtain ⟨run', hrun', houtcome'⟩ := transpose_outcome native hdata rfl
      have hback : made [rows, cols] source.dtype <$> run' = .ok source := by
        rw [← htwice]
        exact hrun'.symm
      cases run' with
      | error stop => cases hback
      | ok data' =>
        have hsame : data' = source.data := congrArg Tensor.data (Except.ok.inj hback)
        subst hsame
        obtain ⟨bits', hfirst, hmid⟩ := houtcome.stored (i / cols, i % cols)
          (List.pair_mem_product.2 ⟨List.mem_range.2 hrow, List.mem_range.2 hcol⟩)
        obtain ⟨bits'', hsecond, hend⟩ := houtcome'.stored (i % cols, i / cols)
          (List.pair_mem_product.2 ⟨List.mem_range.2 hcol, List.mem_range.2 hrow⟩)
        rw [moved_native (by dsimp only; rw [hplace]; exact hbits')] at hfirst
        rw [moved_native hmid] at hsecond
        dsimp only at hend
        rw [hplace, hbits'] at hend
        rw [← Option.some.inj hend] at hsecond
        apply Classical.byContradiction
        intro hno
        exact (judged source.dtype (htyped bits hbits)).2 hno bits' hfirst hsecond
  · intro hall
    have hback (bits : Nat) (hbits : bits ∈ source.data) :
        native.store source.dtype (native.load source.dtype bits) = .ok bits :=
      (judged source.dtype (htyped bits hbits)).1 (hall bits hbits)
    have hlen' : (transposed rows cols source.data native.zero).length = volume [cols, rows] := by
      rw [length_transposed, volume, volume, volume, Nat.mul_one]
    have hwf := hfits.wf hlen'
    rw [transpose_ok h hshape hback, ok_bind, transpose_ok hwf rfl]
    · change Except.ok (made [rows, cols] source.dtype (transposed cols rows
        (transposed rows cols source.data native.zero) native.zero)) = _
      rw [transposed_transposed hcols hlen, ← hshape]
      exact congrArg Except.ok h.eq_made.symm
    · intro bits hbits
      apply hback
      rw [made, transposed, List.mem_map] at hbits
      obtain ⟨i, hi, rfl⟩ := hbits
      rw [List.mem_range] at hi
      have hlt : i % rows * cols + i / rows < source.data.length := by
        rw [hlen]
        exact place_lt_area (Nat.mod_lt i hrows)
          (Nat.div_lt_of_lt_mul (by rwa [Nat.mul_comm] at hi))
      rw [List.getD_eq_getElem?_getD, List.getElem?_eq_getElem hlt]
      exact List.getElem_mem hlt

section Products

variable {R : Type} [CommSemiring R]

def exactSums (R : Type) [CommSemiring R] : Sums R := ⟨0, (· + ·), (· * ·)⟩

def productData (rows inner cols : Nat) (a b : List R) : List R :=
  (List.range (rows * cols)).map fun i =>
    ∑ k ∈ Finset.range inner, a.getD (i / cols * inner + k) 0 * b.getD (k * cols + i % cols) 0

/-- The operands of `matrix_multiply`, with the rows, the common dimension and the columns of the
product, and its shape. -/
inductive Factors : List Nat → List Nat → Nat → Nat → Nat → List Nat → Prop where
  | matrices (m k n : Nat) : Factors [m, k] [k, n] m k n [m, n]
  | row (k n : Nat) : Factors [k] [k, n] 1 k n [n]
  | column (m k : Nat) : Factors [m, k] [k] m k 1 [m]

def Agree (x y : TensorM (Tensor R)) : Prop := ∀ t t', x = .ok t → y = .ok t' → t.data = t'.data

/-- `matrix_multiply` computes the defining sums, turns around under `transpose`, and treats a
vector as a row or as a column. -/
structure MatrixLaws (left right : Tensor R) : Prop where
  product : ∀ rows inner cols shape, Factors left.shape right.shape rows inner cols shape →
    Ends (fun result => result.shape = shape ∧ result.dtype = left.dtype ∧
        result.data = productData rows inner cols left.data right.data)
      (matrixMultiply (direct R) (exactSums R) left right)
  refused : (¬ ∃ rows inner cols shape, Factors left.shape right.shape rows inner cols shape) →
    Throws (matrixMultiply (direct R) (exactSums R) left right)
  transposed : ∀ m k n, left.shape = [m, k] → right.shape = [k, n] →
    ∀ t t', (matrixMultiply (direct R) (exactSums R) left right >>= transpose (direct R)) = .ok t →
      (do let right' ← transpose (direct R) right
          let left' ← transpose (direct R) left
          matrixMultiply (direct R) (exactSums R) right' left') = .ok t' →
      t.shape = t'.shape ∧ t.data = t'.data
  row : ∀ k, left.shape = [k] → ∀ left' : Tensor R, WF left' → left'.shape = [1, k] →
    left'.data = left.data → Agree (matrixMultiply (direct R) (exactSums R) left right)
      (matrixMultiply (direct R) (exactSums R) left' right)
  column : ∀ k, right.shape = [k] → ∀ right' : Tensor R, WF right' → right'.shape = [k, 1] →
    right'.data = right.data → Agree (matrixMultiply (direct R) (exactSums R) left right)
      (matrixMultiply (direct R) (exactSums R) left right')

theorem sumLoop_spec {left right : Nat → TensorM R} {f g : Nat → R} {count : Nat}
    (hleft : ∀ k < count, left k = .ok (f k)) (hright : ∀ k < count, right k = .ok (g k)) :
    sumLoop (exactSums R) left right count = .ok (∑ k ∈ Finset.range count, f k * g k) := by
  rw [sumLoop]
  induction count with
  | zero => rfl
  | succ count ih =>
    have hbegins := ih (fun k hk => hleft k (Nat.lt_succ_of_lt hk))
      (fun k hk => hright k (Nat.lt_succ_of_lt hk))
    rw [List.range_succ, List.foldlM_append, hbegins, ok_bind, List.foldlM_cons,
      hleft count (Nat.lt_succ_self count), ok_bind, hright count (Nat.lt_succ_self count), ok_bind,
      Finset.sum_range_succ]
    rfl

theorem loadAt_direct {tensor : Tensor R} {i : Nat} (hi : i < tensor.data.length) :
    loadAt (direct R) tensor i = .ok (tensor.data.getD i 0) := by
  rw [List.getD_eq_getElem?_getD, List.getElem?_eq_getElem hi]
  exact loadAt_ok (direct R) (List.getElem?_eq_getElem hi)

theorem storeAt_direct {dtype : Dtype} {data : List R} {i : Nat} (hi : i < data.length)
    (value : R) : storeAt (direct R) dtype data i value = .ok (data.set i value) := by
  rw [storeAt_eq (direct R) dtype hi]
  rfl

@[simp] theorem length_productData (rows inner cols : Nat) (a b : List R) :
    (productData rows inner cols a b).length = rows * cols := by
  rw [productData, List.length_map, List.length_range]

variable {rows cols k n m : Nat} {shape : List Nat}

theorem getElem?_productData {inner row column : Nat} (hrow : row < rows)
    (hcol : column < cols) (a b : List R) :
    (productData rows inner cols a b)[row * cols + column]? =
      some (∑ k ∈ Finset.range inner, a.getD (row * inner + k) 0 * b.getD (k * cols + column) 0) := by
  have hdiv : (row * cols + column) / cols = row := by
    rw [Nat.mul_comm, Nat.mul_add_div (by omega), Nat.div_eq_of_lt hcol, Nat.add_zero]
  have hmod : (row * cols + column) % cols = column := by
    rw [Nat.mul_add_mod_self_right, Nat.mod_eq_of_lt hcol]
  rw [productData, List.getElem?_map, List.getElem?_range (place_lt_area hrow hcol),
    Option.map_some, hdiv, hmod]

theorem newResult_ends (data : List R) {dtype : Dtype}
    (hpos : ∀ d ∈ shape, 0 < d) {fill : Tensor R → TensorM (List R)}
    (hfill : Fits shape dtype →
      fill (made shape dtype (List.replicate (volume shape) 0)) = .ok data)
    {result : Tensor R → Prop} (hresult : Fits shape dtype → result (made shape dtype data)) :
    Ends result (do
      let blank ← tensorNewResult (direct R).zero shape dtype
      let data ← fill blank
      pure { blank with data := data }) := by
  rw [tensorNewResult_eq _ hpos]
  by_cases hwords : uvMax < volume shape
  · rw [if_pos hwords]
    exact trivial
  · by_cases hfits : uvMax < blobBytes shape.length (volume shape) (tensorDtypeSize dtype)
    · rw [if_neg hwords, if_pos hfits]
      exact trivial
    · rw [if_neg hwords, if_neg hfits, ok_bind]
      have hdata := hfill ⟨hpos, Nat.le_of_not_lt hwords, Nat.le_of_not_lt hfits⟩
      change Ends result (fill (made shape dtype (List.replicate (volume shape) 0)) >>= _)
      rw [hdata]
      exact hresult ⟨hpos, Nat.le_of_not_lt hwords, Nat.le_of_not_lt hfits⟩

theorem vectorMultiply_ends {left right : Tensor R} (hleft : WF left) (hright : WF right)
    (hvector : left.shape = [k]) (hmatrix : right.shape = [k, n]) :
    Ends (fun result => WF result ∧ result.shape = [n] ∧ result.dtype = left.dtype ∧
        result.data = productData 1 k n left.data right.data)
      (vectorMultiply (direct R) (exactSums R) left right) := by
  obtain ⟨hk, hlen, -⟩ := hleft.vector hvector
  obtain ⟨-, hn, hlen', hwords⟩ := hright.matrix hmatrix
  rw [vectorMultiply, shapeAt_ok (by rw [hvector]; rfl : left.shape[0]? = some k), ok_bind,
    shapeAt_ok (by rw [hmatrix]; rfl : right.shape[0]? = some k), ok_bind,
    shapeAt_ok (by rw [hmatrix]; rfl : right.shape[1]? = some n), ok_bind,
    if_neg (fun hne => hne rfl)]
  apply newResult_ends (productData 1 k n left.data right.data)
  · intro d hd
    rwa [List.mem_singleton.1 hd]
  · intro _
    have hvolume : volume [n] = n := by rw [volume, volume, Nat.mul_one]
    have hsum {j : Nat} (hj : j < n) : sumLoop (exactSums R) (loadAt (direct R) left)
        (fun k => do loadAt (direct R) right (← elementIndex k n j)) k =
          .ok (∑ i ∈ Finset.range k, left.data.getD i 0 * right.data.getD (i * n + j) 0) := by
      apply sumLoop_spec
      · intro i hi
        exact loadAt_direct (by rw [hlen]; exact hi)
      · intro i hi
        have hplace := place_lt_area hi hj
        rw [elementIndex_ok (by omega), ok_bind]
        exact loadAt_direct (by rw [hlen']; exact hplace)
    have houtcome : Outcome id (fun j => .ok (∑ i ∈ Finset.range k, left.data.getD i 0 *
        right.data.getD (i * n + j) 0)) (List.range n) (List.replicate (volume [n]) 0)
        ((List.range n).foldlM (fun data j => do
          let sum ← sumLoop (exactSums R) (loadAt (direct R) left)
            (fun k => do loadAt (direct R) right (← elementIndex k n j)) k
          storeAt (direct R) left.dtype data j sum) (List.replicate (volume [n]) 0)) := by
      apply foldlM_outcome
      · intro j hj data hdata
        rw [List.mem_range] at hj
        rw [hsum hj, ok_bind]
        apply storeAt_direct
        rw [hdata, List.length_replicate, hvolume]
        exact hj
      · intro j hj
        rw [List.length_replicate, hvolume]
        exact List.mem_range.1 hj
      · exact pairwise_place List.nodup_range (fun _ _ _ _ heq => heq)
    apply houtcome.eq_ok
    · rw [length_productData, List.length_replicate, hvolume, Nat.one_mul]
    · intro j hj
      have hget : (productData 1 k n left.data right.data)[0 * n + j]? = some (∑ i ∈
          Finset.range k, left.data.getD (0 * k + i) 0 * right.data.getD (i * n + j) 0) :=
        getElem?_productData Nat.one_pos (List.mem_range.1 hj) _ _
      simp only [Nat.zero_mul, Nat.zero_add] at hget
      exact ⟨_, rfl, hget⟩
    · intro i hi
      rw [List.length_replicate, hvolume] at hi
      exact ⟨i, List.mem_range.2 hi, rfl⟩
  · intro hfits
    refine ⟨hfits.wf ?_, rfl, rfl, rfl⟩
    rw [length_productData, volume, volume, Nat.mul_one, Nat.one_mul]

theorem rowsLoop_spec {left right : Tensor R} (hlen : left.data.length = m * k)
    (hwords : m * k ≤ uvMax) (hlen' : right.data.length = k * n) (hwords' : k * n ≤ uvMax)
    (harea : m * n ≤ uvMax) {blank : List R} (hblank : blank.length = m * n) :
    (List.range m).foldlM (fun data i => (List.range n).foldlM (fun data j => do
        let sum ← sumLoop (exactSums R) (fun c => do loadAt (direct R) left (← elementIndex i k c))
          (fun c => do loadAt (direct R) right (← elementIndex c n j)) k
        let index ← elementIndex i n j
        storeAt (direct R) left.dtype data index sum) data) blank =
      .ok (productData m k n left.data right.data) := by
  have hsum {i j : Nat} (hi : i < m) (hj : j < n) :
      sumLoop (exactSums R) (fun c => do loadAt (direct R) left (← elementIndex i k c))
        (fun c => do loadAt (direct R) right (← elementIndex c n j)) k =
      .ok (∑ c ∈ Finset.range k, left.data.getD (i * k + c) 0 * right.data.getD (c * n + j) 0) := by
    apply sumLoop_spec
    · intro c hc
      have hplace := place_lt_area hi hc
      rw [elementIndex_ok (by omega), ok_bind]
      exact loadAt_direct (by rw [hlen]; exact hplace)
    · intro c hc
      have hplace := place_lt_area hc hj
      rw [elementIndex_ok (by omega), ok_bind]
      exact loadAt_direct (by rw [hlen']; exact hplace)
  rw [foldlM_product (fun data (key : Nat × Nat) => do
    let sum ← sumLoop (exactSums R) (fun c => do loadAt (direct R) left (← elementIndex key.1 k c))
      (fun c => do loadAt (direct R) right (← elementIndex c n key.2)) k
    let index ← elementIndex key.1 n key.2
    storeAt (direct R) left.dtype data index sum)]
  have hstep (key : Nat × Nat) (hkey : key ∈ (List.range m).product (List.range n))
      (data : List R) (hdata : data.length = blank.length) :
      (do let sum ← sumLoop (exactSums R)
            (fun c => do loadAt (direct R) left (← elementIndex key.1 k c))
            (fun c => do loadAt (direct R) right (← elementIndex c n key.2)) k
          let index ← elementIndex key.1 n key.2
          storeAt (direct R) left.dtype data index sum) =
        (fun v => data.set (key.1 * n + key.2) v) <$> (.ok (∑ c ∈ Finset.range k,
          left.data.getD (key.1 * k + c) 0 * right.data.getD (c * n + key.2) 0) : TensorM R) := by
    obtain ⟨hrow, hcol⟩ := List.mem_product.1 hkey
    rw [List.mem_range] at hrow hcol
    have hplace := place_lt_area hrow hcol
    rw [hsum hrow hcol, ok_bind, elementIndex_ok (by omega), ok_bind]
    apply storeAt_direct
    rw [hdata, hblank]
    exact hplace
  have houtcome := foldlM_outcome hstep
    (fun key hkey => by
      obtain ⟨hrow, hcol⟩ := List.mem_product.1 hkey
      rw [hblank]
      exact place_lt_area (List.mem_range.1 hrow) (List.mem_range.1 hcol))
    (pairwise_place (List.nodup_range.product List.nodup_range) (fun key hkey key' hkey' heq => by
      obtain ⟨hrow, hcol⟩ := place_inj (List.mem_range.1 (List.mem_product.1 hkey).2)
        (List.mem_range.1 (List.mem_product.1 hkey').2) heq
      exact Prod.ext hrow hcol))
  apply houtcome.eq_ok
  · rw [length_productData, hblank]
  · intro key hkey
    obtain ⟨hrow, hcol⟩ := List.mem_product.1 hkey
    exact ⟨_, rfl, getElem?_productData (List.mem_range.1 hrow) (List.mem_range.1 hcol) _ _⟩
  · intro i hi
    rw [hblank] at hi
    have hn : 0 < n := by
      apply Nat.pos_of_ne_zero
      intro hzero
      rw [hzero] at hi
      omega
    refine ⟨(i / n, i % n), ?_, Nat.div_add_mod' i n⟩
    rw [List.pair_mem_product, List.mem_range, List.mem_range]
    exact ⟨Nat.div_lt_of_lt_mul (by rwa [Nat.mul_comm] at hi), Nat.mod_lt i hn⟩

theorem rowsMultiply_ends {left right : Tensor R} (hleft : WF left) (hright : WF right)
    (hmatrix : left.shape = [m, k])
    (hshapes : (right.shape = [k, n] ∧ shape = [m, n]) ∨ (right.shape = [k] ∧ n = 1 ∧ shape = [m])) :
    Ends (fun result => WF result ∧ result.shape = shape ∧ result.dtype = left.dtype ∧
        result.data = productData m k n left.data right.data)
      (rowsMultiply (direct R) (exactSums R) left right) := by
  obtain ⟨hm, hk, hlen, hwords⟩ := hleft.matrix hmatrix
  have hfirst : right.shape[0]? = some k := by
    rcases hshapes with ⟨hright', -⟩ | ⟨hright', -⟩
    · rw [hright']
      rfl
    · rw [hright']
      rfl
  obtain ⟨hcols, hshape, hn, hlen', hwords', hvolume⟩ : rightColumns right = .ok n ∧
      (if right.rank = 2 then [m, n] else [m]) = shape ∧ 0 < n ∧ right.data.length = k * n ∧
      k * n ≤ uvMax ∧ volume shape = m * n := by
    rw [rightColumns, hright.rank]
    rcases hshapes with ⟨hright', rfl⟩ | ⟨hright', rfl, rfl⟩
    · obtain ⟨-, hn, hlen', hwords'⟩ := hright.matrix hright'
      rw [hright', shapeAt_ok (by rw [hright']; rfl : right.shape[1]? = some n)]
      exact ⟨rfl, rfl, hn, hlen', hwords', by rw [volume, volume, volume, Nat.mul_one]⟩
    · obtain ⟨-, hlen', hwords'⟩ := hright.vector hright'
      rw [hright', Nat.mul_one]
      exact ⟨rfl, rfl, Nat.one_pos, hlen', hwords', by rw [volume, volume, Nat.mul_one]⟩
  rw [rowsMultiply, shapeAt_ok (by rw [hmatrix]; rfl : left.shape[0]? = some m), ok_bind,
    shapeAt_ok (by rw [hmatrix]; rfl : left.shape[1]? = some k), ok_bind, shapeAt_ok hfirst,
    ok_bind, if_neg (fun hne => hne rfl)]
  dsimp only
  rw [hcols, ok_bind, hshape]
  apply newResult_ends (productData m k n left.data right.data)
  · intro d hd
    rcases hshapes with ⟨-, rfl⟩ | ⟨-, -, rfl⟩
    · rcases List.mem_cons.1 hd with rfl | hd
      · exact hm
      · rwa [List.mem_singleton.1 hd]
    · rwa [List.mem_singleton.1 hd]
  · intro hfits
    have harea := hfits.words
    rw [hvolume] at harea
    exact rowsLoop_spec hlen hwords hlen' hwords' harea (by
      rw [made, List.length_replicate, hvolume])
  · intro hfits
    exact ⟨hfits.wf (by rw [length_productData, hvolume]), rfl, rfl, rfl⟩

theorem matrixMultiply_eq (access : Access β ν) (sums : Sums ν) {left right : Tensor β}
    (hleft : WF left) (hright : WF right) :
    matrixMultiply access sums left right =
      if ¬ ((left.rank = 2 ∧ (right.rank = 1 ∨ right.rank = 2)) ∨
          (left.rank = 1 ∧ right.rank = 2)) then
        .error (.croak "matrix multiplication requires a matrix and vector or matrix")
      else if left.rank = 1 then vectorMultiply access sums left right
      else rowsMultiply access sums left right := by
  rw [matrixMultiply, tensorFromObject_ok hleft, ok_bind, tensorFromObject_ok hright, ok_bind]
  split <;> rfl

theorem matrixMultiply_ends {left right : Tensor R} (hleft : WF left) (hright : WF right)
    {inner : Nat}
    (hfactors : Factors left.shape right.shape rows inner cols shape) :
    Ends (fun result => WF result ∧ result.shape = shape ∧ result.dtype = left.dtype ∧
        result.data = productData rows inner cols left.data right.data)
      (matrixMultiply (direct R) (exactSums R) left right) := by
  have hrank := hleft.rank
  have hrank' := hright.rank
  rw [matrixMultiply_eq _ _ hleft hright]
  generalize hs : left.shape = s at hfactors hrank
  generalize hs' : right.shape = s' at hfactors hrank'
  cases hfactors with
  | matrices =>
    rw [List.length_cons, List.length_singleton] at hrank hrank'
    rw [if_neg (by omega), if_neg (by omega)]
    exact rowsMultiply_ends hleft hright hs (Or.inl ⟨hs', rfl⟩)
  | row =>
    rw [List.length_singleton] at hrank
    rw [List.length_cons, List.length_singleton] at hrank'
    rw [if_neg (by omega), if_pos hrank]
    exact vectorMultiply_ends hleft hright hs hs'
  | column =>
    rw [List.length_cons, List.length_singleton] at hrank
    rw [List.length_singleton] at hrank'
    rw [if_neg (by omega), if_neg (by omega)]
    exact rowsMultiply_ends hleft hright hs (Or.inr ⟨hs', rfl, rfl⟩)

theorem matrixMultiply_refuses {left right : Tensor R} (hleft : WF left) (hright : WF right)
    (hno : ¬ ∃ rows inner cols shape, Factors left.shape right.shape rows inner cols shape) :
    Throws (matrixMultiply (direct R) (exactSums R) left right) := by
  rw [matrixMultiply_eq _ _ hleft hright]
  by_cases hranks : (left.rank = 2 ∧ (right.rank = 1 ∨ right.rank = 2)) ∨
      (left.rank = 1 ∧ right.rank = 2)
  · rw [if_neg (fun hne => hne hranks)]
    rw [hleft.rank, hright.rank] at hranks
    rcases hranks with ⟨htwo, hright'⟩ | ⟨hone, htwo⟩
    · obtain ⟨m, k, hs⟩ := List.length_eq_two.1 htwo
      obtain ⟨k', hfirst, hne⟩ : ∃ k', right.shape[0]? = some k' ∧ k ≠ k' := by
        rcases hright' with hone | htwo'
        · obtain ⟨k', hs'⟩ := List.length_eq_one_iff.1 hone
          refine ⟨k', by rw [hs']; rfl, ?_⟩
          rintro rfl
          exact hno ⟨m, k, 1, [m], by rw [hs, hs']; exact Factors.column m k⟩
        · obtain ⟨k', n, hs'⟩ := List.length_eq_two.1 htwo'
          refine ⟨k', by rw [hs']; rfl, ?_⟩
          rintro rfl
          exact hno ⟨m, k, n, [m, n], by rw [hs, hs']; exact Factors.matrices m k n⟩
      refine ⟨"matrix multiplication dimensions do not agree", ?_⟩
      rw [if_neg (by rw [hleft.rank, htwo]; decide), rowsMultiply,
        shapeAt_ok (by rw [hs]; rfl : left.shape[0]? = some m), ok_bind,
        shapeAt_ok (by rw [hs]; rfl : left.shape[1]? = some k), ok_bind, shapeAt_ok hfirst, ok_bind,
        if_pos hne]
      rfl
    · obtain ⟨k, hs⟩ := List.length_eq_one_iff.1 hone
      obtain ⟨k', n, hs'⟩ := List.length_eq_two.1 htwo
      have hne : k ≠ k' := by
        rintro rfl
        exact hno ⟨1, k, n, [n], by rw [hs, hs']; exact Factors.row k n⟩
      refine ⟨"matrix multiplication dimensions do not agree", ?_⟩
      rw [if_pos (by rw [hleft.rank, hs]; rfl), vectorMultiply,
        shapeAt_ok (by rw [hs]; rfl : left.shape[0]? = some k), ok_bind,
        shapeAt_ok (by rw [hs']; rfl : right.shape[0]? = some k'), ok_bind,
        shapeAt_ok (by rw [hs']; rfl : right.shape[1]? = some n), ok_bind, if_pos hne]
      rfl
  · rw [if_pos hranks]
    exact ⟨_, rfl⟩

theorem getD_transposed {row column : Nat} (hrow : row < rows) (hcol : column < cols)
    {data : List R} (hlen : data.length = rows * cols) :
    (transposed rows cols data 0).getD (column * rows + row) 0 =
      data.getD (row * cols + column) 0 := by
  obtain ⟨x, hx⟩ : ∃ x, data[row * cols + column]? = some x :=
    ⟨_, List.getElem?_eq_getElem (by rw [hlen]; exact place_lt_area hrow hcol)⟩
  rw [List.getD_eq_getElem?_getD, List.getD_eq_getElem?_getD,
    getElem?_transposed hrow hcol hx, hx]

theorem transposed_productData {a b : List R} (ha : a.length = m * k)
    (hb : b.length = k * n) :
    transposed m n (productData m k n a b) 0 =
      productData n k m (transposed k n b 0) (transposed m k a 0) := by
  apply List.ext_getElem?
  intro i
  by_cases hi : i < n * m
  · have hm : 0 < m := by
      apply Nat.pos_of_ne_zero
      intro hzero
      rw [hzero] at hi
      omega
    have hrow : i % m < m := Nat.mod_lt i hm
    have hcol : i / m < n := Nat.div_lt_of_lt_mul (by rwa [Nat.mul_comm] at hi)
    have hplace : i / m * m + i % m = i := Nat.div_add_mod' i m
    have hleft : (transposed m n (productData m k n a b) 0)[i / m * m + i % m]? = _ :=
      getElem?_transposed hrow hcol (getElem?_productData hrow hcol a b)
    have hright : (productData n k m (transposed k n b 0)
        (transposed m k a 0))[i / m * m + i % m]? = _ := getElem?_productData hcol hrow _ _
    rw [hplace] at hleft hright
    rw [hleft, hright]
    apply congrArg some
    apply Finset.sum_congr rfl
    intro c hc
    rw [Finset.mem_range] at hc
    rw [getD_transposed hc hcol hb, getD_transposed hrow hc ha, mul_comm]
  · rw [List.getElem?_eq_none (by rw [length_transposed]; omega),
      List.getElem?_eq_none (by rw [length_productData]; omega)]

theorem Ends.of_ok {made : Tensor β → Prop} {run : TensorM (Tensor β)} (h : Ends made run)
    {tensor : Tensor β} (hrun : run = .ok tensor) : made tensor := by
  rw [hrun] at h
  exact h

theorem Ends.mono {made made' : Tensor β → Prop} (h : ∀ tensor, made tensor → made' tensor)
    {run : TensorM (Tensor β)} (hends : Ends made run) : Ends made' run := by
  cases run with
  | ok tensor => exact h tensor hends
  | error stop =>
    cases stop with
    | croak message => exact trivial
    | divideByZero => exact hends
    | wraps => exact hends
    | nullPointer => exact hends
    | outOfBounds => exact hends
    | undefined => exact hends

theorem transpose_direct {tensor : Tensor R} (h : WF tensor)
    (hshape : tensor.shape = [rows, cols]) :
    transpose (direct R) tensor =
      .ok (made [cols, rows] tensor.dtype (transposed rows cols tensor.data 0)) :=
  transpose_ok h hshape (fun _ _ => rfl)

theorem WF.transposed {tensor : Tensor R} (h : WF tensor)
    (hshape : tensor.shape = [rows, cols]) :
    WF (made [cols, rows] tensor.dtype (transposed rows cols tensor.data 0)) := by
  have hfit := h.fit
  rw [hshape] at hfit
  apply hfit.swap.wf
  rw [length_transposed, volume, volume, volume, Nat.mul_one]

theorem matrixLaws {left right : Tensor R} (hleft : WF left) (hright : WF right) :
    MatrixLaws left right where
  product := by
    intro rows inner cols shape hfactors
    exact (matrixMultiply_ends hleft hright hfactors).mono (fun _ hmade => hmade.2)
  refused := matrixMultiply_refuses hleft hright
  transposed := by
    intro m k n hs hs' t t' hrun hrun'
    obtain ⟨-, -, hlen, -⟩ := hleft.matrix hs
    obtain ⟨-, -, hlen', -⟩ := hright.matrix hs'
    have hends := matrixMultiply_ends hleft hright (by rw [hs, hs']; exact Factors.matrices m k n)
    have hends' := matrixMultiply_ends (hright.transposed hs') (hleft.transposed hs)
      (Factors.matrices n k m)
    rw [transpose_direct hright hs', ok_bind, transpose_direct hleft hs, ok_bind] at hrun'
    obtain ⟨-, hshape', -, hdata'⟩ := hends'.of_ok hrun'
    cases hproduct : matrixMultiply (direct R) (exactSums R) left right with
    | error stop =>
      rw [hproduct] at hrun
      cases hrun
    | ok product =>
      obtain ⟨hwf, hshape, -, hdata⟩ := hends.of_ok hproduct
      rw [hproduct, ok_bind, transpose_direct hwf hshape] at hrun
      rw [← Except.ok.inj hrun, hshape', hdata', hdata]
      exact ⟨rfl, transposed_productData hlen hlen'⟩
  row := by
    intro k hs left' hleft' hs' hdata t t' hrun hrun'
    by_cases hfactor : ∃ n, right.shape = [k, n]
    · obtain ⟨n, hmatrix⟩ := hfactor
      have hends := (matrixMultiply_ends hleft hright
        (by rw [hs, hmatrix]; exact Factors.row k n)).of_ok hrun
      have hends' := (matrixMultiply_ends hleft' hright
        (by rw [hs', hmatrix]; exact Factors.matrices 1 k n)).of_ok hrun'
      rw [hends.2.2.2, hends'.2.2.2, hdata]
    · obtain ⟨message, hthrows⟩ := matrixMultiply_refuses hleft hright (fun hall => by
        obtain ⟨rows, inner, cols, shape, hfactors⟩ := hall
        rw [hs] at hfactors
        generalize hright' : right.shape = s at hfactors
        cases hfactors with
        | row => exact hfactor ⟨_, hright'⟩)
      rw [hthrows] at hrun
      cases hrun
  column := by
    intro k hs right' hright' hs' hdata t t' hrun hrun'
    by_cases hfactor : ∃ m, left.shape = [m, k]
    · obtain ⟨m, hmatrix⟩ := hfactor
      have hends := (matrixMultiply_ends hleft hright
        (by rw [hs, hmatrix]; exact Factors.column m k)).of_ok hrun
      have hends' := (matrixMultiply_ends hleft hright'
        (by rw [hs', hmatrix]; exact Factors.matrices m k 1)).of_ok hrun'
      rw [hends.2.2.2, hends'.2.2.2, hdata]
    · obtain ⟨message, hthrows⟩ := matrixMultiply_refuses hleft hright (fun hall => by
        obtain ⟨rows, inner, cols, shape, hfactors⟩ := hall
        rw [hs] at hfactors
        generalize hleft' : left.shape = s at hfactors
        cases hfactors with
        | column => exact hfactor ⟨_, hleft'⟩)
      rw [hthrows] at hrun
      cases hrun

end Products

/-- The arithmetic of NVs that hold small integers. -/
def integerArith : Arith Datum :=
  let lift (f : Int → Int → Int) (x y : Datum) : Datum :=
    match x.truncate, y.truncate with
    | some a, some b => nvOfInt (f a b)
    | _, _ => .nan false (2 ^ 51)
  let test (f : Int → Int → Bool) (x y : Datum) : Bool :=
    match x.truncate, y.truncate with
    | some a, some b => f a b
    | _, _ => false
  { ofInt := nvOfInt
    add := lift (· + ·)
    sub := lift (· - ·)
    mul := lift (· * ·)
    div := lift Int.tdiv
    fmod := lift Int.tmod
    pow := lift fun a b => a ^ b.toNat
    eq := test fun a b => a == b
    lt := test fun a b => decide (a < b)
    le := test fun a b => decide (a ≤ b)
    isTrue := fun x => x.truncate != some 0 }

theorem fits_pair : Fits [1, 2] .u8 ∧ Fits [2, 1] .u8 :=
  ⟨⟨by decide, by decide, by decide⟩, ⟨by decide, by decide, by decide⟩⟩

end XPerl.TensorXs
