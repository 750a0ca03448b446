import XPerl.Dispatch.Bounds

/-! What the tables hold after the clauses that went into them. -/

namespace XPerl.Dispatch

open XPerl.Framework

variable {NV L : Type} [LinearOrder L] {conv : Conversions NV L}

def Shape.integer? : Shape NV → Option Integer
  | .integer i => some i
  | _ => none

def Shape.float? : Shape NV → Option NV
  | .floating f => some f
  | _ => none

def Shape.string? : Shape NV → Option Str
  | .string s => some s
  | _ => none

/-- A table has the constants that occur at clauses, each at its earliest, in the order of the
clauses. -/
structure Indexes (conv : Conversions NV L) (occurs : Nat → Sv NV → Prop)
    (table : List (Sv NV × Nat)) : Prop where
  sound : ∀ v k, (v, k) ∈ table → occurs k v
  complete : ∀ k v, occurs k v → ∃ w j, (w, j) ∈ table ∧ j ≤ k ∧ SameHits conv w v
  order : table.Pairwise fun x y => x.2 < y.2

variable {occurs : Nat → Sv NV → Prop} {α : Type} {xs : List α} {y : α} {shapes : List (Shape NV)}

theorem Indexes.nil (h : ∀ k v, ¬ occurs k v) :
    Indexes conv occurs [] where
  sound := fun _ _ hmem => absurd hmem List.not_mem_nil
  complete := fun k v hocc => absurd hocc (h k v)
  order := List.Pairwise.nil

variable {occurs' : Nat → Sv NV → Prop} {table : List (Sv NV × Nat)} {x : α} {k : Nat}
  {shape : Shape NV} {a : Option Nat} {β : Type} {tables : Tables NV}

theorem Indexes.congr
    (h : Indexes conv occurs table) (heq : ∀ k v, occurs' k v ↔ occurs k v) :
    Indexes conv occurs' table where
  sound := fun v k hmem => (heq k v).2 (h.sound v k hmem)
  complete := fun k v hocc => h.complete k v ((heq k v).1 hocc)
  order := h.order

theorem Indexes.push
    (h : Indexes conv occurs table) {value : Sv NV} {n : Nat}
    (hlater : ∀ k v, occurs k v → k < n)
    (hsame : ∀ k v, occurs k v → doNcmp conv v value = 0 → SameHits conv v value)
    (hocc : ∀ k v, occurs' k v ↔ occurs k v ∨ (k = n ∧ v = value)) :
    Indexes conv occurs' (dispatchOnPush conv table value n) := by
  rw [dispatchOnPush]
  by_cases hdup : (table.any fun old => doNcmp conv old.1 value == 0) = true
  · rw [if_pos hdup]
    obtain ⟨⟨w, j⟩, hmem, heq⟩ := List.any_eq_true.1 hdup
    have hwocc := h.sound w j hmem
    refine ⟨?_, ?_, h.order⟩
    · intro v k hvk
      exact (hocc k v).2 (Or.inl (h.sound v k hvk))
    · intro k v hkv
      rcases (hocc k v).1 hkv with hkv | ⟨rfl, rfl⟩
      · exact h.complete k v hkv
      · exact ⟨w, j, hmem, Nat.le_of_lt (hlater j w hwocc), hsame j w hwocc (by simpa using heq)⟩
  · rw [if_neg hdup]
    refine ⟨?_, ?_, ?_⟩
    · intro v k hvk
      rcases List.mem_append.1 hvk with hvk | hvk
      · exact (hocc k v).2 (Or.inl (h.sound v k hvk))
      · have hpair := List.mem_singleton.1 hvk
        exact (hocc k v).2 (Or.inr ⟨congrArg Prod.snd hpair, congrArg Prod.fst hpair⟩)
    · intro k v hkv
      rcases (hocc k v).1 hkv with hkv | ⟨rfl, rfl⟩
      · obtain ⟨w, j, hmem, hle, hw⟩ := h.complete k v hkv
        exact ⟨w, j, List.mem_append_left _ hmem, hle, hw⟩
      · exact ⟨v, k, List.mem_append_right _ (List.mem_singleton_self _), Nat.le_refl k,
          SameHits.refl v⟩
    · apply List.pairwise_append.2
      refine ⟨h.order, List.pairwise_singleton _ _, ?_⟩
      intro x hx y hy
      rw [List.mem_singleton.1 hy]
      exact hlater x.2 x.1 (h.sound x.1 x.2 hx)

/-- The tables after the clauses `shapes`, none of which is a wildcard. -/
structure Built (conv : Conversions NV L) (shapes : List (Shape NV)) (tables : Tables NV) :
    Prop where
  undefs : Earliest (fun k => shapes[k]? = some .undef) tables.undefClause
  bools : ∀ b, Earliest (fun k => shapes[k]? = some (.bool b)) (tables.boolClause b)
  integers : Indexes conv (fun k v => ∃ i, shapes[k]? = some (.integer i) ∧ v = integerSv i)
    tables.ivTable
  floats : Indexes conv (fun k v => ∃ f, shapes[k]? = some (.floating f) ∧ v = floatSv f)
    tables.nvTable
  strings : ∀ s, Earliest (fun k => shapes[k]? = some (.string s))
    (tables.pvTable.lookup (dispatchOnKey s))
  ivBounds : tables.ivBounds = (shapes.filterMap Shape.integer?).foldl
    (fun b i => some (dispatchOnAddIvBound b i)) none
  nvBounds : tables.nvBounds = (shapes.filterMap Shape.float?).foldl
    (fun b f => some (dispatchOnAddNvBound conv b f)) none
  pvBounds : tables.pvBounds = ((shapes.filterMap Shape.string?).map List.length).foldl
    (fun b n => some (dispatchOnAddPvBound b n)) none

theorem built_nil : Built conv [] (Tables.new NV) where
  undefs := by
    intro k
    simp
  bools := by
    intro b k
    simp
  integers := Indexes.nil (by simp)
  floats := Indexes.nil (by simp)
  strings := by
    intro s k
    simp
  ivBounds := rfl
  nvBounds := rfl
  pvBounds := rfl

theorem getElem?_snoc :
    (xs ++ [x])[k]? = some y ↔ xs[k]? = some y ∨ (k = xs.length ∧ y = x) := by
  rcases Nat.lt_trichotomy k xs.length with hlt | heq | hgt
  · rw [List.getElem?_append_left hlt]
    constructor
    · exact Or.inl
    · intro h
      rcases h with h | h
      · exact h
      · omega
  · rw [heq, List.getElem?_concat_length, List.getElem?_eq_none (Nat.le_refl _)]
    constructor
    · intro h
      exact Or.inr ⟨rfl, (Option.some.inj h).symm⟩
    · intro h
      rcases h with h | h
      · cases h
      · rw [h.2]
  · have hnone : (xs ++ [x])[k]? = none := by
      rw [List.getElem?_eq_none]
      rw [List.length_append, List.length_singleton]
      omega
    rw [hnone, List.getElem?_eq_none (Nat.le_of_lt hgt)]
    constructor
    · intro h
      cases h
    · intro h
      rcases h with h | h
      · cases h
      · omega

theorem getElem?_snoc_of_ne (hne : y ≠ x) (k : Nat) :
    (xs ++ [x])[k]? = some y ↔ xs[k]? = some y := by
  rw [getElem?_snoc]
  constructor
  · intro h
    rcases h with h | h
    · exact h
    · exact absurd h.2 hne
  · exact Or.inl

private theorem lt_of_getElem? (h : xs[k]? = some y) :
    k < xs.length := (List.getElem?_eq_some_iff.1 h).1

private theorem earliest_snoc
    (h : Earliest (fun k => shapes[k]? = some shape) a) :
    Earliest (fun k => (shapes ++ [shape])[k]? = some shape) (a.or (some shapes.length)) := by
  apply h.extend
  · intro k hk
    exact lt_of_getElem? hk
  · intro k
    rw [getElem?_snoc]
    simp

private theorem earliest_snoc_of_ne {other : Shape NV} (hne : other ≠ shape)
    (h : Earliest (fun k => shapes[k]? = some other) a) :
    Earliest (fun k => (shapes ++ [shape])[k]? = some other) a :=
  h.congr fun k => (getElem?_snoc_of_ne hne k).symm

theorem lookup_store (table : List (Str × Nat)) (s t : Str) (clause : Nat) :
    (dispatchOnStore table s clause).lookup (dispatchOnKey t) =
      if t = s then (table.lookup (dispatchOnKey s)).or (some clause)
      else table.lookup (dispatchOnKey t) := by
  rw [dispatchOnStore]
  cases hold : table.lookup (dispatchOnKey s) with
  | some k =>
    by_cases hts : t = s
    · rw [if_pos hts, hts]
      exact hold
    · rw [if_neg hts]
  | none =>
    by_cases hts : t = s
    · rw [if_pos hts, hts, List.lookup_cons, beq_self_eq_true]
      rfl
    · have hkey : (dispatchOnKey t == dispatchOnKey s) = false := by
        rw [beq_eq_false_iff_ne]
        intro heq
        exact hts (List.append_cancel_left heq)
      rw [if_neg hts, List.lookup_cons, hkey]

private theorem filterMap_snoc (f : α → Option β) (xs : List α) (x : α) :
    (xs ++ [x]).filterMap f = xs.filterMap f ++ (f x).toList := by
  rw [List.filterMap_append]
  cases h : f x with
  | none => simp [h]
  | some y => simp [h]

private theorem addClause_ivBounds (tables : Tables NV) (n : Nat) (shape : Shape NV) :
    (tables.addClause conv n shape).ivBounds = shape.integer?.toList.foldl
      (fun b i => some (dispatchOnAddIvBound b i)) tables.ivBounds := by
  cases shape <;> rfl

private theorem addClause_nvBounds (tables : Tables NV) (n : Nat) (shape : Shape NV) :
    (tables.addClause conv n shape).nvBounds = shape.float?.toList.foldl
      (fun b f => some (dispatchOnAddNvBound conv b f)) tables.nvBounds := by
  cases shape <;> rfl

private theorem addClause_pvBounds (tables : Tables NV) (n : Nat) (shape : Shape NV) :
    (tables.addClause conv n shape).pvBounds = (shape.string?.toList.map List.length).foldl
      (fun b n => some (dispatchOnAddPvBound b n)) tables.pvBounds := by
  cases shape <;> rfl

theorem Indexes.snoc {mk : β → Shape NV} {toSv : β → Sv NV}
    (h : Indexes conv (fun k v => ∃ x, shapes[k]? = some (mk x) ∧ v = toSv x) table)
    (hmk : ∀ x y, mk x = mk y ↔ x = y)
    (hzero : ∀ x y, doNcmp conv (toSv x) (toSv y) = 0 → SameHits conv (toSv x) (toSv y)) (x : β) :
    Indexes conv (fun k v => ∃ y, (shapes ++ [mk x])[k]? = some (mk y) ∧ v = toSv y)
      (dispatchOnPush conv table (toSv x) shapes.length) := by
  apply h.push
  · rintro k v ⟨y, hk, -⟩
    exact lt_of_getElem? hk
  · rintro k v ⟨y, -, rfl⟩
    exact hzero y x
  · intro k v
    simp only [getElem?_snoc, hmk]
    constructor
    · rintro ⟨y, hy | ⟨hk, rfl⟩, hv⟩
      · exact .inl ⟨y, hy, hv⟩
      · exact .inr ⟨hk, hv⟩
    · rintro (⟨y, hy, hv⟩ | ⟨hk, hv⟩)
      · exact ⟨y, .inl hy, hv⟩
      · exact ⟨x, .inr ⟨hk, rfl⟩, hv⟩

theorem Built.addClause (h : Built conv shapes tables)
    (shape : Shape NV) (hshape : shape ≠ .wildcard) :
    Built conv (shapes ++ [shape]) (tables.addClause conv shapes.length shape) := by
  have hints (hno : ∀ i, shape ≠ .integer i) : Indexes conv
      (fun k v => ∃ i, (shapes ++ [shape])[k]? = some (.integer i) ∧ v = integerSv i)
      tables.ivTable := by
    apply h.integers.congr
    intro k v
    simp only [getElem?_snoc_of_ne (hno _).symm]
  have hfloats (hno : ∀ f, shape ≠ .floating f) : Indexes conv
      (fun k v => ∃ f, (shapes ++ [shape])[k]? = some (.floating f) ∧ v = floatSv f)
      tables.nvTable := by
    apply h.floats.congr
    intro k v
    simp only [getElem?_snoc_of_ne (hno _).symm]
  have hundef (hno : shape ≠ .undef) := earliest_snoc_of_ne hno.symm h.undefs
  have hbools (hno : ∀ b, shape ≠ .bool b) (b : Bool) := earliest_snoc_of_ne (hno b).symm (h.bools b)
  have hstrings (hno : ∀ s, shape ≠ .string s) (s : Str) :=
    earliest_snoc_of_ne (hno s).symm (h.strings s)
  have hiv : (tables.addClause conv shapes.length shape).ivBounds =
      ((shapes ++ [shape]).filterMap Shape.integer?).foldl
        (fun b i => some (dispatchOnAddIvBound b i)) none := by
    rw [filterMap_snoc, List.foldl_append, ← h.ivBounds, addClause_ivBounds]
  have hnv : (tables.addClause conv shapes.length shape).nvBounds =
      ((shapes ++ [shape]).filterMap Shape.float?).foldl
        (fun b f => some (dispatchOnAddNvBound conv b f)) none := by
    rw [filterMap_snoc, List.foldl_append, ← h.nvBounds, addClause_nvBounds]
  have hpv : (tables.addClause conv shapes.length shape).pvBounds =
      (((shapes ++ [shape]).filterMap Shape.string?).map List.length).foldl
        (fun b n => some (dispatchOnAddPvBound b n)) none := by
    rw [filterMap_snoc, List.map_append, List.foldl_append, ← h.pvBounds, addClause_pvBounds]
  cases shape with
  | wildcard => exact absurd rfl hshape
  | undef =>
    exact ⟨earliest_snoc h.undefs, hbools (by simp), hints (by simp), hfloats (by simp),
      hstrings (by simp), hiv, hnv, hpv⟩
  | bool b =>
    refine ⟨hundef (by simp), ?_, hints (by simp), hfloats (by simp), hstrings (by simp), hiv, hnv,
      hpv⟩
    intro b'
    simp only [Tables.addClause]
    by_cases hb : b' = b
    · rw [if_pos hb, hb]
      exact earliest_snoc (h.bools b)
    · rw [if_neg hb]
      exact earliest_snoc_of_ne (by simpa using hb) (h.bools b')
  | integer i =>
    exact ⟨hundef (by simp), hbools (by simp),
      h.integers.snoc (fun _ _ => ⟨Shape.integer.inj, congrArg _⟩) (fun _ _ => sameHits_integer) i,
      hfloats (by simp), hstrings (by simp), hiv, hnv, hpv⟩
  | floating f =>
    exact ⟨hundef (by simp), hbools (by simp), hints (by simp),
      h.floats.snoc (fun _ _ => ⟨Shape.floating.inj, congrArg _⟩) (fun _ _ => sameHits_float) f,
      hstrings (by simp), hiv, hnv, hpv⟩
  | string s =>
    refine ⟨hundef (by simp), hbools (by simp), hints (by simp), hfloats (by simp), ?_, hiv, hnv,
      hpv⟩
    intro t
    simp only [Tables.addClause, lookup_store]
    by_cases hts : t = s
    · rw [if_pos hts, hts]
      exact earliest_snoc (h.strings s)
    · rw [if_neg hts]
      exact earliest_snoc_of_ne (by simpa using hts) (h.strings t)

def constants : List (Shape NV) → List (Shape NV)
  | [] => []
  | .wildcard :: _ => []
  | shape :: shapes => shape :: constants shapes

theorem addClauses_spec {before : List (Shape NV)} (shapes : List (Shape NV))
    (h : Built conv before tables) (hdefault : tables.defaultClause = none) :
    Built conv (before ++ constants shapes) (tables.addClauses conv before.length shapes) ∧
      ((∃ rest, shapes = constants shapes ++ .wildcard :: rest) ∧
          (tables.addClauses conv before.length shapes).defaultClause =
            some (before.length + (constants shapes).length) ∨
        shapes = constants shapes ∧
          (tables.addClauses conv before.length shapes).defaultClause = none) := by
  induction shapes generalizing before tables with
  | nil =>
    rw [constants, List.append_nil]
    exact ⟨h, Or.inr ⟨rfl, hdefault⟩⟩
  | cons shape shapes ih =>
    by_cases hwild : shape = .wildcard
    · rw [hwild, constants, List.append_nil]
      refine ⟨?_, Or.inl ⟨⟨shapes, rfl⟩, rfl⟩⟩
      exact ⟨h.undefs, h.bools, h.integers, h.floats, h.strings, h.ivBounds, h.nvBounds, h.pvBounds⟩
    · have hconstants : constants (shape :: shapes) = shape :: constants shapes := by
        cases shape with
        | wildcard => exact absurd rfl hwild
        | _ => rfl
      have hadd : tables.addClauses conv before.length (shape :: shapes) =
          (tables.addClause conv before.length shape).addClauses conv (before.length + 1) shapes := by
        cases shape with
        | wildcard => exact absurd rfl hwild
        | _ => rfl
      have hdefault' : (tables.addClause conv before.length shape).defaultClause = none := by
        cases shape <;> exact hdefault
      have hlen : (before ++ [shape]).length = before.length + 1 := by simp
      have hnext := ih (h.addClause shape hwild) hdefault'
      rw [hlen, List.append_assoc, ← hadd, List.singleton_append, ← hconstants] at hnext
      refine ⟨hnext.1, ?_⟩
      rcases hnext.2 with ⟨⟨rest, hrest⟩, hclause⟩ | ⟨hall, hclause⟩
      · refine Or.inl ⟨⟨rest, ?_⟩, ?_⟩
        · rw [hconstants, List.cons_append, ← hrest]
        · rw [hclause, hconstants, List.length_cons]
          congr 1
          omega
      · refine Or.inr ⟨?_, hclause⟩
        rw [hconstants, ← hall]

end XPerl.Dispatch
