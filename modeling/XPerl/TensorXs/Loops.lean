import XPerl.TensorXs.Blob

/-! What the loops of the constructors compute, and where they stop. -/

namespace XPerl.TensorXs

open XPerl.Framework.RowMajor

variable {α β δ : Type}

/-- A dimension is zero, behind positive ones whose product fits. -/
def ReachesZero (read : δ → TensorM Nat) (values : List δ) (size : Nat) : Prop :=
  ∃ front value rest dims, values = front ++ value :: rest ∧ front.map read = dims.map Except.ok ∧
    (∀ d ∈ dims, 0 < d) ∧ size * volume dims ≤ uvMax ∧ read value = .ok 0

/-- All dimensions are positive, and their product fits. -/
def Accepted (read : δ → TensorM Nat) (values : List δ) (size : Nat) (dims : List Nat) : Prop :=
  values.map read = dims.map Except.ok ∧ (∀ d ∈ dims, 0 < d) ∧ size * volume dims ≤ uvMax

variable {read : δ → TensorM Nat} {values : List δ}

theorem sizeLoop_cons {value : δ} {size d : Nat}
    (hread : read value = .ok d) (hpos : 0 < d) (hfits : size * d ≤ uvMax) :
    sizeLoop read (value :: values) size = sizeLoop read values (size * d) := by
  have hguard : ¬ size > uvMax / d := Nat.not_lt.2 ((Nat.le_div_iff_mul_le hpos).2 hfits)
  rw [sizeLoop, hread, ok_bind, quotient_ok (Nat.ne_of_gt hpos), ok_bind, if_neg hguard,
    word_ok hfits]
  rfl

variable {dims : List Nat}

theorem sizeLoop_front {front : List δ} (rest : List δ)
    (hdims : front.map read = dims.map Except.ok) (hpos : ∀ d ∈ dims, 0 < d) {size : Nat}
    (hfits : size * volume dims ≤ uvMax) :
    sizeLoop read (front ++ rest) size = sizeLoop read rest (size * volume dims) := by
  induction dims generalizing front size with
  | nil =>
    rw [List.map_nil, List.map_eq_nil_iff] at hdims
    rw [hdims, volume, Nat.mul_one, List.nil_append]
  | cons d dims ih =>
    cases front with
    | nil => cases hdims
    | cons value front =>
      rw [List.map_cons, List.map_cons, List.cons.injEq] at hdims
      have hd : 0 < d := hpos d List.mem_cons_self
      have hrest : ∀ x ∈ dims, 0 < x := fun x hx => hpos x (List.mem_cons_of_mem d hx)
      rw [volume, ← Nat.mul_assoc] at hfits ⊢
      have hnext : size * d ≤ uvMax :=
        Nat.le_trans (Nat.le_mul_of_pos_right _ (volume_pos hrest)) hfits
      rw [List.cons_append, sizeLoop_cons hdims.1 hd hnext]
      exact ih hdims.2 hrest hfits

theorem Accepted.run {size : Nat}
    (h : Accepted read values size dims) :
    sizeLoop read values size = .ok (size * volume dims) := by
  obtain ⟨hdims, hpos, hfits⟩ := h
  have hfront := sizeLoop_front [] hdims hpos hfits
  rw [List.append_nil] at hfront
  exact hfront

theorem ReachesZero.run {size : Nat}
    (h : ReachesZero read values size) : sizeLoop read values size = .error .divideByZero := by
  obtain ⟨front, value, rest, dims, rfl, hdims, hpos, hfits, hzero⟩ := h
  rw [sizeLoop_front (value :: rest) hdims hpos hfits, sizeLoop, hzero]
  rfl

theorem sizeLoop_cases
    (hread : ∀ value stop, read value = .error stop → ∃ m, stop = .croak m) (values : List δ)
    {size : Nat} (hfits : size ≤ uvMax) :
    (∃ dims, Accepted read values size dims) ∨ ReachesZero read values size ∨
      ∃ m, sizeLoop read values size = .error (.croak m) := by
  induction values generalizing size with
  | nil =>
    refine Or.inl ⟨[], rfl, fun d hd => absurd hd List.not_mem_nil, ?_⟩
    rwa [volume, Nat.mul_one]
  | cons value values ih =>
    cases hvalue : read value with
    | error stop =>
      obtain ⟨m, rfl⟩ := hread value stop hvalue
      rw [sizeLoop, hvalue]
      exact Or.inr (Or.inr ⟨m, rfl⟩)
    | ok d =>
      by_cases hzero : d = 0
      · refine Or.inr (Or.inl ⟨[], value, values, [], rfl, rfl, ?_, ?_, ?_⟩)
        · exact fun x hx => absurd hx List.not_mem_nil
        · rwa [volume, Nat.mul_one]
        · rw [hvalue, hzero]
      · have hpos : 0 < d := Nat.pos_of_ne_zero hzero
        by_cases hover : size > uvMax / d
        · rw [sizeLoop, hvalue, ok_bind, quotient_ok hzero, ok_bind, if_pos hover]
          exact Or.inr (Or.inr ⟨_, rfl⟩)
        · have hnext : size * d ≤ uvMax := (Nat.le_div_iff_mul_le hpos).1 (Nat.le_of_not_lt hover)
          have hcons {dims : List Nat} (hall : ∀ x ∈ dims, 0 < x) : ∀ x ∈ d :: dims, 0 < x :=
            List.forall_mem_cons.2 ⟨hpos, hall⟩
          rw [sizeLoop_cons hvalue hpos hnext]
          rcases ih hnext with ⟨dims, hdims, hall, hprod⟩ |
            ⟨front, zero, rest, dims, rfl, hdims, hall, hprod, hz⟩ | hthrow
          · refine Or.inl ⟨d :: dims, ?_, hcons hall, ?_⟩
            · rw [List.map_cons, List.map_cons, hvalue, hdims]
            · rwa [volume, ← Nat.mul_assoc]
          · refine Or.inr (Or.inl ⟨value :: front, zero, rest, d :: dims, rfl, ?_, hcons hall, ?_, hz⟩)
            · rw [List.map_cons, List.map_cons, hvalue, hdims]
            · rwa [volume, ← Nat.mul_assoc]
          · exact Or.inr (Or.inr hthrow)

theorem strideLoop_spec {shape : List Nat} (hpos : ∀ d ∈ shape, 0 < d)
    (hfits : volume shape ≤ uvMax) : strideLoop shape = .ok (strides shape, volume shape) := by
  induction shape with
  | nil => rfl
  | cons d shape ih =>
    rw [volume] at hfits
    have htail : volume shape ≤ uvMax :=
      Nat.le_trans (Nat.le_mul_of_pos_left _ (hpos d List.mem_cons_self)) hfits
    rw [strideLoop, ih (fun x hx => hpos x (List.mem_cons_of_mem d hx)) htail, ok_bind]
    dsimp only
    rw [Nat.mul_comm, word_ok hfits]
    rfl

section Copies

/-- A step of a copying loop: an item that fits is written, one that leads to a hole ends the
program, and any other is refused. -/
structure CopyStep (size n : Nat) (step : List α → Data α → TensorM (List α))
    (fits holes : Data α → Prop) (leaves : Data α → List α) : Prop where
  accepts : ∀ x output, fits x → output.length + n ≤ size →
    step output x = .ok (output ++ leaves x) ∧ (leaves x).length = n
  fails : ∀ x output, holes x → output.length + n ≤ size → step output x = .error .nullPointer
  refuses : ∀ x output, ¬ fits x → ¬ holes x → output.length + n ≤ size →
    ∃ m, step output x = .error (.croak m)

def HoleBehind (fits holes : Data α → Prop) (items : List (Data α)) : Prop :=
  ∃ front x rest, items = front ++ x :: rest ∧ (∀ y ∈ front, fits y) ∧ holes x

variable {size n : Nat} {step : List α → Data α → TensorM (List α)} {fits holes : Data α → Prop}
  {leaves : Data α → List α}

variable {items : List (Data α)}

theorem CopyStep.foldlM_accepts (h : CopyStep size n step fits holes leaves) (output : List α)
    (hitems : ∀ x ∈ items, fits x)
    (hroom : output.length + items.length * n ≤ size) :
    items.foldlM step output = .ok (output ++ items.flatMap leaves) ∧
      (items.flatMap leaves).length = items.length * n := by
  induction items generalizing output with
  | nil =>
    rw [List.flatMap_nil, List.append_nil]
    exact ⟨rfl, (Nat.zero_mul n).symm⟩
  | cons x items ih =>
    rw [List.length_cons, Nat.succ_mul] at hroom
    obtain ⟨hstep, hlen⟩ := h.accepts x output (hitems x List.mem_cons_self) (by omega)
    obtain ⟨hrun, hlens⟩ := ih (output ++ leaves x)
      (fun y hy => hitems y (List.mem_cons_of_mem x hy)) (by rw [List.length_append]; omega)
    rw [List.foldlM_cons, hstep, ok_bind, hrun, List.flatMap_cons, List.append_assoc,
      List.length_append, hlen, hlens, List.length_cons, Nat.succ_mul]
    exact ⟨rfl, Nat.add_comm _ _⟩

theorem CopyStep.foldlM_fails (h : CopyStep size n step fits holes leaves) (output : List α)
    (hitems : HoleBehind fits holes items)
    (hroom : output.length + items.length * n ≤ size) :
    items.foldlM step output = .error .nullPointer := by
  obtain ⟨front, x, rest, rfl, hfront, hx⟩ := hitems
  rw [List.length_append, List.length_cons, Nat.add_mul, Nat.succ_mul] at hroom
  obtain ⟨hrun, hlen⟩ := h.foldlM_accepts output hfront (by omega)
  rw [List.foldlM_append, hrun, ok_bind, List.foldlM_cons,
    h.fails x _ hx (by rw [List.length_append]; omega)]
  rfl

theorem CopyStep.foldlM_refuses (h : CopyStep size n step fits holes leaves) (output : List α)
    (hfits : ¬ ∀ x ∈ items, fits x)
    (hholes : ¬ HoleBehind fits holes items) (hroom : output.length + items.length * n ≤ size) :
    ∃ m, items.foldlM step output = .error (.croak m) := by
  induction items generalizing output with
  | nil => exact absurd (fun x hx => absurd hx List.not_mem_nil) hfits
  | cons x items ih =>
    rw [List.length_cons, Nat.succ_mul] at hroom
    have hroom' : output.length + n ≤ size := by omega
    rw [List.foldlM_cons]
    by_cases hx : fits x
    · obtain ⟨hstep, hlen⟩ := h.accepts x output hx hroom'
      rw [hstep, ok_bind]
      apply ih
      · intro hall
        exact hfits (List.forall_mem_cons.2 ⟨hx, hall⟩)
      · intro hbehind
        obtain ⟨front, y, rest, rfl, hfront, hy⟩ := hbehind
        exact hholes ⟨x :: front, y, rest, rfl, List.forall_mem_cons.2 ⟨hx, hfront⟩, hy⟩
      · rw [List.length_append]
        omega
    · have hno : ¬ holes x := fun hy =>
        hholes ⟨[], x, items, rfl, fun y hy => absurd hy List.not_mem_nil, hy⟩
      obtain ⟨m, hm⟩ := h.refuses x output hx hno hroom'
      rw [hm]
      exact ⟨m, rfl⟩

def FitsItem : List Nat → Data α → Prop
  | [], x => ∃ v, x = .plain v
  | d :: dims, x => ∃ items, x = .array items ∧ items.length = d ∧ ∀ y ∈ items, FitsItem dims y

def HoleItem : List Nat → Data α → Prop
  | [], x => x = .hole
  | d :: dims, x => x = .hole ∨ ∃ items, x = .array items ∧ items.length = d ∧
      HoleBehind (FitsItem dims) (HoleItem dims) items

def leavesOf : List Nat → Data α → List α
  | [], .plain v => [v]
  | _ :: dims, .array items => items.flatMap (leavesOf dims)
  | _, _ => []

theorem copyValue_step (size : Nat) (refusal : String) :
    CopyStep (α := α) size 1 (copyValue size refusal) (FitsItem []) (HoleItem []) (leavesOf []) where
  accepts := by
    intro x output hx hroom
    obtain ⟨v, rfl⟩ := hx
    exact ⟨if_pos hroom, rfl⟩
  fails := by
    intro x output hx _
    rw [hx]
    rfl
  refuses := by
    intro x output hfits hhole _
    cases x with
    | hole => exact absurd rfl hhole
    | plain v => exact absurd ⟨v, rfl⟩ hfits
    | ref v => exact ⟨_, rfl⟩
    | array items => exact ⟨_, rfl⟩

/-- `copyNested` as a step on the array that it is given. -/
def copyArray (size : Nat) (dims : List Nat) (output : List α) : Data α → TensorM (List α)
  | .hole => throw .nullPointer
  | .array items => copyNested size dims items output
  | _ => throw (.croak "nested tensor data has too few dimensions")

theorem copyNested_row (size d : Nat) (items : List (Data α)) (output : List α)
    (h : items.length = d) : copyNested size [d] items output =
      items.foldlM (copyValue size "nested tensor data has too many dimensions") output := by
  rw [copyNested, if_neg (fun hne => hne h)]

theorem copyNested_rows (size d next : Nat) (dims : List Nat) (items : List (Data α))
    (output : List α) (h : items.length = d) : copyNested size (d :: next :: dims) items output =
      items.foldlM (copyArray size (next :: dims)) output := by
  rw [copyNested, if_neg (fun hne => hne h)]
  rfl

theorem copyNested_misfit (size d : Nat) (dims : List Nat) (items : List (Data α))
    (output : List α) (h : items.length ≠ d) : copyNested size (d :: dims) items output =
      .error (.croak "nested tensor data does not match tensor shape") := by
  cases dims with
  | nil => rw [copyNested, if_pos h]; rfl
  | cons next dims => rw [copyNested, if_pos h]; rfl

theorem copyArray_step (size d : Nat) (dims : List Nat) :
    CopyStep (α := α) size (volume (d :: dims)) (copyArray size (d :: dims)) (FitsItem (d :: dims))
      (HoleItem (d :: dims)) (leavesOf (d :: dims)) := by
  -- one level, for the items of an array
  have hlevel (d : Nat) (dims : List Nat) (step : List α → Data α → TensorM (List α))
      (hstep : CopyStep size (volume dims) step (FitsItem dims) (HoleItem dims) (leavesOf dims))
      (hrun : ∀ items output, items.length = d →
        copyNested size (d :: dims) items output = items.foldlM step output) :
      CopyStep (α := α) size (volume (d :: dims)) (copyArray size (d :: dims))
        (FitsItem (d :: dims)) (HoleItem (d :: dims)) (leavesOf (d :: dims)) := by
    refine ⟨?_, ?_, ?_⟩
    · intro x output hx hroom
      obtain ⟨items, rfl, hlen, hitems⟩ := hx
      rw [volume, ← hlen] at hroom
      obtain ⟨hcopy, hleaves⟩ := hstep.foldlM_accepts output hitems hroom
      rw [copyArray, hrun items output hlen, leavesOf, volume, ← hlen]
      exact ⟨hcopy, hleaves⟩
    · intro x output hx hroom
      rcases hx with rfl | ⟨items, rfl, hlen, hitems⟩
      · rfl
      · rw [volume, ← hlen] at hroom
        rw [copyArray, hrun items output hlen]
        exact hstep.foldlM_fails output hitems hroom
    · intro x output hfits hholes hroom
      cases x with
      | hole => exact absurd (Or.inl rfl) hholes
      | plain v => exact ⟨_, rfl⟩
      | ref v => exact ⟨_, rfl⟩
      | array items =>
        rw [copyArray]
        by_cases hlen : items.length = d
        · rw [volume, ← hlen] at hroom
          rw [hrun items output hlen]
          apply hstep.foldlM_refuses output _ _ hroom
          · exact fun hall => hfits ⟨items, rfl, hlen, hall⟩
          · exact fun hbehind => hholes (Or.inr ⟨items, rfl, hlen, hbehind⟩)
        · rw [copyNested_misfit size d dims items output hlen]
          exact ⟨_, rfl⟩
  induction dims generalizing d with
  | nil =>
    exact hlevel d [] _ (copyValue_step size _) (copyNested_row size d)
  | cons next dims ih =>
    exact hlevel d (next :: dims) _ (ih next) (copyNested_rows size d next dims)

def Data.isRef : Data α → Bool
  | .ref _ => true
  | .array _ => true
  | _ => false

/-- An array that is read as flat data: as many items as elements, and the first is no reference. -/
def isFlat (size : Nat) (source : List (Data α)) : Bool :=
  source.length == size && !source.head?.any Data.isRef

def FitsSource (shape : List Nat) (source : List (Data α)) : Prop :=
  if isFlat (volume shape) source then ∀ x ∈ source, FitsItem [] x
  else FitsItem shape (.array source)

def HoleSource (shape : List Nat) (source : List (Data α)) : Prop :=
  if isFlat (volume shape) source then HoleBehind (FitsItem []) (HoleItem []) source
  else HoleItem shape (.array source)

def sourceLeaves (shape : List Nat) (source : List (Data α)) : List α :=
  if isFlat (volume shape) source then source.flatMap (leavesOf []) else leavesOf shape (.array source)

variable {shape : List Nat} {source : List (Data α)}

theorem tensorCopyArray_nested
    (h : isFlat (volume shape) source = false) :
    tensorCopyArray shape (volume shape) source = copyNested (volume shape) shape source [] := by
  have htest : flatTest (volume shape) source = .ok false := by
    rw [flatTest.eq_def]
    by_cases hlen : source.length = volume shape
    · rw [if_pos hlen]
      rw [isFlat, hlen, beq_self_eq_true, Bool.true_and] at h
      cases source with
      | nil => cases h
      | cons item items => cases item with
        | hole => cases h
        | plain v => cases h
        | ref v => rfl
        | array inner => rfl
    · rw [if_neg hlen]
      rfl
  rw [tensorCopyArray, htest, ok_bind]
  rfl

theorem tensorCopyArray_flat
    (h : isFlat (volume shape) source = true) :
    tensorCopyArray shape (volume shape) source = source.foldlM
      (copyValue (volume shape) "flat tensor data cannot contain nested arrays") [] := by
  rw [isFlat, Bool.and_eq_true, beq_iff_eq] at h
  obtain ⟨hlen, hfirst⟩ := h
  rw [tensorCopyArray, flatTest.eq_def, if_pos hlen]
  cases source with
  | nil => rfl
  | cons item items => cases item with
    | hole => rfl
    | plain v => rfl
    | ref v => cases hfirst
    | array inner => cases hfirst

theorem tensorCopyArray_spec (shape : List Nat) (source : List (Data α)) :
    (FitsSource shape source →
      tensorCopyArray shape (volume shape) source = .ok (sourceLeaves shape source) ∧
        (sourceLeaves shape source).length = volume shape) ∧
    (HoleSource shape source →
      tensorCopyArray shape (volume shape) source = .error .nullPointer) ∧
    (¬ FitsSource shape source → ¬ HoleSource shape source →
      ∃ m, tensorCopyArray shape (volume shape) source = .error (.croak m)) := by
  rw [FitsSource, HoleSource, sourceLeaves]
  cases hflat : isFlat (volume shape) source with
  | true =>
    rw [tensorCopyArray_flat hflat]
    simp only [if_true]
    have hstep := copyValue_step (α := α) (volume shape) "flat tensor data cannot contain nested arrays"
    have hlen : source.length = volume shape := by
      rw [isFlat, Bool.and_eq_true, beq_iff_eq] at hflat
      exact hflat.1
    have hroom : ([] : List α).length + source.length * 1 ≤ volume shape := by
      rw [List.length_nil, hlen]
      omega
    refine ⟨fun hfits => ?_, fun hholes => hstep.foldlM_fails [] hholes hroom,
      fun hfits hholes => hstep.foldlM_refuses [] hfits hholes hroom⟩
    obtain ⟨hrun, hleaves⟩ := hstep.foldlM_accepts [] hfits hroom
    rw [hrun, hleaves, hlen, Nat.mul_one, List.nil_append]
    exact ⟨rfl, rfl⟩
  | false =>
    rw [tensorCopyArray_nested hflat]
    simp only [Bool.false_eq_true, if_false]
    cases shape with
    | nil =>
      refine ⟨fun hfits => ?_, fun hholes => ?_, fun _ _ => ⟨_, rfl⟩⟩
      · obtain ⟨v, hv⟩ := hfits
        cases hv
      · cases hholes
    | cons d dims =>
      have hstep := copyArray_step (α := α) (volume (d :: dims)) d dims
      have hroom : ([] : List α).length + volume (d :: dims) ≤ volume (d :: dims) := by
        exact Nat.le_of_eq (Nat.zero_add _)
      exact ⟨fun hfits => hstep.accepts (.array source) [] hfits hroom,
        fun hholes => hstep.fails (.array source) [] hholes hroom,
        fun hfits hholes => hstep.refuses (.array source) [] hfits hholes hroom⟩

end Copies

end XPerl.TensorXs
