import XPerl.Dispatch.Building

/-! The clause that the tables select is the first one in the order of the source. -/

namespace XPerl.Dispatch

open XPerl.Framework

variable {NV L : Type} [LinearOrder L] {conv : Conversions NV L}

theorem earliest_of_cover {P Q : Nat → Prop} {a : Option Nat} (h : Earliest Q a)
    (hsub : ∀ k, Q k → P k) (hcover : ∀ k, P k → ∃ j, j ≤ k ∧ Q j) : Earliest P a := by
  cases a with
  | none =>
    intro k hk
    obtain ⟨j, -, hj⟩ := hcover k hk
    exact h j hj
  | some i =>
    refine ⟨hsub i h.1, ?_⟩
    intro k hk
    obtain ⟨j, hle, hj⟩ := hcover k hk
    exact (h.2 j hj).trans hle

section Candidates

variable {α : Type} {table : List (α × Nat)}

theorem find_earliest (hit : α → Bool) (h : table.Pairwise fun x y => x.2 < y.2) :
    Earliest (fun k => ∃ v, (v, k) ∈ table ∧ hit v = true)
      ((table.find? fun entry => hit entry.1).map Prod.snd) := by
  induction table with
  | nil =>
    intro k hk
    obtain ⟨v, hv, -⟩ := hk
    cases hv
  | cons entry table ih =>
    obtain ⟨w, n⟩ := entry
    obtain ⟨hfirst, hrest⟩ := List.pairwise_cons.1 h
    by_cases hw : hit w = true
    · rw [List.find?_cons_of_pos (p := fun entry : α × Nat => hit entry.1) hw]
      refine ⟨⟨w, List.mem_cons_self, hw⟩, ?_⟩
      intro k hk
      obtain ⟨v, hv, -⟩ := hk
      rcases List.mem_cons.1 hv with heq | hv
      · exact Nat.le_of_eq (congrArg Prod.snd heq).symm
      · exact Nat.le_of_lt (hfirst (v, k) hv)
    · rw [List.find?_cons_of_neg (p := fun entry : α × Nat => hit entry.1) hw]
      apply (ih hrest).congr
      intro k
      constructor
      · intro hk
        obtain ⟨v, hv, hhit⟩ := hk
        exact ⟨v, List.mem_cons_of_mem _ hv, hhit⟩
      · intro hk
        obtain ⟨v, hv, hhit⟩ := hk
        rcases List.mem_cons.1 hv with heq | hv
        · have hvw : v = w := congrArg Prod.fst heq
          rw [hvw] at hhit
          exact absurd hhit hw
        · exact ⟨v, hv, hhit⟩

end Candidates

theorem equalRun_earliest (compare : Sv NV → Int) {table : List (Sv NV × Nat)} {best : Option Nat}
    {P : Nat → Prop} (hbest : Earliest P best)
    (hrise : table.Pairwise fun x y => compare x.1 ≤ compare y.1)
    (hnonneg : ∀ x ∈ table, 0 ≤ compare x.1) :
    Earliest (fun k => P k ∨ ∃ v, (v, k) ∈ table ∧ compare v = 0) (equalRun compare table best) := by
  induction table generalizing best P with
  | nil =>
    apply hbest.congr
    intro k
    simp
  | cons entry table ih =>
    obtain ⟨w, n⟩ := entry
    obtain ⟨hfirst, hrest⟩ := List.pairwise_cons.1 hrise
    rw [equalRun]
    by_cases hw : compare w = 0
    · rw [if_neg (not_not.2 hw)]
      have hn : Earliest (fun k => k = n) (some n) := by
        refine ⟨rfl, ?_⟩
        intro j hj
        exact Nat.le_of_eq hj.symm
      have hnext := ih (hbest.sooner hn) hrest
        (fun x hx => hnonneg x (List.mem_cons_of_mem _ hx))
      apply hnext.congr
      intro k
      constructor
      · intro hk
        rcases hk with (hk | hk) | ⟨v, hv, hzero⟩
        · exact Or.inl hk
        · exact Or.inr ⟨w, by rw [hk]; exact List.mem_cons_self, hw⟩
        · exact Or.inr ⟨v, List.mem_cons_of_mem _ hv, hzero⟩
      · intro hk
        rcases hk with hk | ⟨v, hv, hzero⟩
        · exact Or.inl (Or.inl hk)
        · rcases List.mem_cons.1 hv with heq | hv
          · exact Or.inl (Or.inr (congrArg Prod.snd heq))
          · exact Or.inr ⟨v, hv, hzero⟩
    · rw [if_pos hw]
      apply hbest.congr
      intro k
      constructor
      · exact Or.inl
      · intro hk
        rcases hk with hk | ⟨v, hv, hzero⟩
        · exact hk
        · -- behind a value that compares above there is no equal one
          have hwpos := hnonneg (w, n) List.mem_cons_self
          rcases List.mem_cons.1 hv with heq | hv
          · have hvw : v = w := congrArg Prod.fst heq
            rw [hvw] at hzero
            exact absurd hzero hw
          · have hle := hfirst (v, k) hv
            simp only at hle hwpos
            omega

theorem binaryCandidate_earliest {table : List (Sv NV × Nat)} {subject : Sv NV}
    (hrise : table.Pairwise fun x y => doNcmp conv x.1 subject ≤ doNcmp conv y.1 subject) :
    Earliest (fun k => ∃ v, (v, k) ∈ table ∧ doNcmp conv v subject = 0)
      (dispatchOnBinaryCandidate conv table subject) := by
  have hsplit (i : Nat) (y : Sv NV × Nat) (hy : table[i]? = some y) :=
    lt_bisect_iff (c := fun entry : Sv NV × Nat => doNcmp conv entry.1 subject) hrise hy
  rw [dispatchOnBinaryCandidate]
  generalize bisect (fun entry : Sv NV × Nat => doNcmp conv entry.1 subject) table table.length 0
    table.length = lo at hsplit ⊢
  have hdrop : ∀ x ∈ table.drop lo, 0 ≤ doNcmp conv x.1 subject := by
    intro x hx
    obtain ⟨i, hi⟩ := List.mem_iff_getElem?.1 hx
    rw [List.getElem?_drop] at hi
    have hnot : ¬ lo + i < lo := by omega
    rw [hsplit _ x hi] at hnot
    omega
  have hno : Earliest (fun _ => False) none := fun _ h => h
  have hrun := equalRun_earliest (doNcmp conv · subject) hno
    (hrise.sublist (List.drop_sublist lo table)) hdrop
  apply hrun.congr
  intro k
  constructor
  · intro hk
    rcases hk with hk | ⟨v, hv, hzero⟩
    · exact hk.elim
    · exact ⟨v, List.mem_of_mem_drop hv, hzero⟩
  · intro hk
    obtain ⟨v, hv, hzero⟩ := hk
    obtain ⟨i, hi⟩ := List.mem_iff_getElem?.1 hv
    have hge : ¬ i < lo := by
      rw [hsplit i _ hi]
      simp only [hzero]
      decide
    refine Or.inr ⟨v, ?_, hzero⟩
    apply List.mem_iff_getElem?.2
    refine ⟨i - lo, ?_⟩
    rw [List.getElem?_drop, Nat.add_sub_cancel' (Nat.le_of_not_lt hge)]
    exact hi

theorem patternNumeq_iff {v subject : Sv NV} (hv : v.niok = true) :
    patternNumeq conv subject v = true ↔
      numericallyComparable conv subject = true ∧ doNcmp conv v subject = 0 := by
  have hcomparable : numericallyComparable conv v = true := by
    simp [numericallyComparable, hv]
  rw [patternNumeq, hcomparable, Bool.and_true, Bool.and_eq_true, beq_iff_eq,
    doNcmp_eq_zero_comm]

theorem dispatchOnSort_mem {table : List (Sv NV × Nat)} {x : Sv NV × Nat} :
    x ∈ dispatchOnSort conv table ↔ x ∈ table := (insertionSort_perm table).mem_iff

theorem numericCandidate_earliest {occurs : Nat → Sv NV → Prop} {table : List (Sv NV × Nat)}
    {subject : Scalar conv} {inBounds : Bool} {strategy : Strategy}
    (h : Indexes conv occurs table) (hniok : ∀ k v, occurs k v → v.niok = true)
    (hbounds : subject.sv.pok = none → subject.sv.niok = true →
      (∃ k v, occurs k v ∧ doNcmp conv v subject.sv = 0) → inBounds = true)
    (hrise : strategy ≠ .arrayLinear → numericallyComparable conv subject.sv = true →
      (dispatchOnSort conv table).Pairwise fun x y =>
        doNcmp conv x.1 subject.sv ≤ doNcmp conv y.1 subject.sv) :
    Earliest (fun k => ∃ v, occurs k v ∧ patternNumeq conv subject.sv v = true)
      (numericCandidate conv strategy
        (if strategy = .arrayLinear then table else dispatchOnSort conv table) inBounds
        subject.sv) := by
  have hcover (hcomparable : numericallyComparable conv subject.sv = true) {a : Option Nat}
      (ha : Earliest (fun k => ∃ v, (v, k) ∈ table ∧ doNcmp conv v subject.sv = 0) a) :
      Earliest (fun k => ∃ v, occurs k v ∧ patternNumeq conv subject.sv v = true) a := by
    apply earliest_of_cover ha
    · intro k hk
      obtain ⟨v, hv, hzero⟩ := hk
      have hocc := h.sound v k hv
      exact ⟨v, hocc, (patternNumeq_iff (hniok k v hocc)).2 ⟨hcomparable, hzero⟩⟩
    · intro k hk
      obtain ⟨v, hocc, hnumeq⟩ := hk
      obtain ⟨w, j, hw, hle, hsame⟩ := h.complete k v hocc
      have hzero := ((patternNumeq_iff (hniok k v hocc)).1 hnumeq).2
      exact ⟨j, hle, w, hw, (hsame subject).2 hzero⟩
  rw [numericCandidate]
  by_cases hpass : (numericallyComparable conv subject.sv &&
      (if (subject.sv.pok.isNone && subject.sv.niok) = true then inBounds else true)) = true
  · rw [if_pos hpass]
    have hcomparable := (Bool.and_eq_true_iff.1 hpass).1
    apply hcover hcomparable
    by_cases hlinear : strategy = .arrayLinear
    · simp only [hlinear, if_true]
      have hfind := find_earliest (fun v => patternNumeq conv subject.sv v) h.order
      apply hfind.congr
      intro k
      apply exists_congr
      intro v
      apply and_congr_right
      intro hv
      rw [patternNumeq_iff (hniok k v (h.sound v k hv))]
      exact and_iff_right hcomparable
    · simp only [hlinear, if_false]
      apply (binaryCandidate_earliest (hrise hlinear hcomparable)).congr
      intro k
      simp only [dispatchOnSort_mem]
  · rw [if_neg hpass]
    intro k hk
    obtain ⟨v, hocc, hnumeq⟩ := hk
    obtain ⟨hcomparable, hzero⟩ := (patternNumeq_iff (hniok k v hocc)).1 hnumeq
    apply hpass
    rw [hcomparable, Bool.true_and]
    split
    · rename_i hpure
      rw [Bool.and_eq_true, Option.isNone_iff_eq_none] at hpure
      exact hbounds hpure.1 hpure.2 ⟨k, v, hocc, hzero⟩
    · rfl

section Rising

variable {shapes : List (Shape NV)} {table : List (Sv NV × Nat)}

theorem ivTable_rises
    (h : ∀ v k, (v, k) ∈ table → ∃ i, v = integerSv i) (subject : Scalar conv) :
    (dispatchOnSort conv table).Pairwise fun x y =>
      doNcmp conv x.1 subject.sv ≤ doNcmp conv y.1 subject.sv := by
  have hsign (i j : Integer) : doNcmp conv (integerSv i) (integerSv j) = sign i.value j.value :=
    integerNcmp_eq i j
  have hinj (i j : Integer) (heq : (integerSv i : Sv NV) = integerSv j) : i = j := by
    simpa [integerSv] using heq
  have hsorted : (dispatchOnSort conv table).Pairwise fun x y =>
      ∃ i j, x.1 = integerSv i ∧ y.1 = integerSv j ∧ i.value ≤ j.value := by
    apply insertionSort_pairwise
    · intro x y z hxy hyz
      obtain ⟨i, j, hx, hy, hle⟩ := hxy
      obtain ⟨j', k, hy', hz, hle'⟩ := hyz
      rw [hy] at hy'
      rw [← hinj j j' hy'] at hle'
      exact ⟨i, k, hx, hz, hle.trans hle'⟩
    · intro x hx y hy hafter
      obtain ⟨i, hi⟩ := h x.1 x.2 hx
      obtain ⟨j, hj⟩ := h y.1 y.2 hy
      rw [decide_eq_false_iff_not, hi, hj, hsign, gt_iff_lt, sign_pos] at hafter
      exact ⟨i, j, hi, hj, le_of_not_gt hafter⟩
    · intro x hx y hy hafter
      obtain ⟨i, hi⟩ := h x.1 x.2 hx
      obtain ⟨j, hj⟩ := h y.1 y.2 hy
      rw [decide_eq_true_eq, hi, hj, hsign, gt_iff_lt, sign_pos] at hafter
      exact ⟨j, i, hj, hi, hafter.le⟩
  apply hsorted.imp
  intro x y hxy
  obtain ⟨i, j, hx, hy, hle⟩ := hxy
  rw [hx, hy, doNcmp_integer, doNcmp_integer]
  cases svIVPlease conv subject.sv with
  | some n => exact sign_mono n.value hle
  | none =>
    cases conv.place (svNV conv subject.sv) with
    | none => exact Int.le_refl _
    | some y => exact sign_mono y (conv.placeInt_mono i.value j.value hle)

theorem nvTable_rises
    (h : ∀ v k, (v, k) ∈ table → ∃ f, v = floatSv f ∧ conv.place f ≠ none)
    (subject : Scalar conv) : (dispatchOnSort conv table).Pairwise fun x y =>
      doNcmp conv x.1 subject.sv ≤ doNcmp conv y.1 subject.sv := by
  have hplace (v : Sv NV) (k : Nat) (hv : (v, k) ∈ table) :
      ∃ f p, v = floatSv f ∧ conv.place f = some p := by
    obtain ⟨f, hf, hp⟩ := h v k hv
    obtain ⟨p, hp⟩ := Option.ne_none_iff_exists'.1 hp
    exact ⟨f, p, hf, hp⟩
  have hsign (f g : NV) (p q : L) (hf : conv.place f = some p) (hg : conv.place g = some q) :
      doNcmp conv (floatSv f) (floatSv g) = sign p q := by
    have hagree : ∀ i f', (floatSv g : Sv NV).iok = some i → (floatSv g : Sv NV).nok = some f' →
        conv.place f' = some (conv.placeInt i.value) := by
      intro i f' hi
      cases hi
    have hcmp := doNcmp_float f ⟨floatSv g, hagree⟩
    rw [hcmp]
    change floatNcmp conv f g = _
    simp only [floatNcmp, hf, hg]
  have hinj (f g : NV) (heq : (floatSv f : Sv NV) = floatSv g) : f = g := by
    simpa [floatSv] using heq
  have hsorted : (dispatchOnSort conv table).Pairwise fun x y => ∃ f g p q,
      x.1 = floatSv f ∧ y.1 = floatSv g ∧ conv.place f = some p ∧ conv.place g = some q ∧
        p ≤ q := by
    apply insertionSort_pairwise
    · intro x y z hxy hyz
      obtain ⟨f, g, p, q, hx, hy, hf, hg, hle⟩ := hxy
      obtain ⟨g', k, q', r, hy', hz, hg', hk, hle'⟩ := hyz
      rw [hy] at hy'
      rw [← hinj g g' hy', hg] at hg'
      rw [← Option.some.inj hg'] at hle'
      exact ⟨f, k, p, r, hx, hz, hf, hk, hle.trans hle'⟩
    · intro x hx y hy hafter
      obtain ⟨f, p, hf, hp⟩ := hplace x.1 x.2 hx
      obtain ⟨g, q, hg, hq⟩ := hplace y.1 y.2 hy
      rw [decide_eq_false_iff_not, hf, hg, hsign f g p q hp hq, gt_iff_lt, sign_pos] at hafter
      exact ⟨f, g, p, q, hf, hg, hp, hq, le_of_not_gt hafter⟩
    · intro x hx y hy hafter
      obtain ⟨f, p, hf, hp⟩ := hplace x.1 x.2 hx
      obtain ⟨g, q, hg, hq⟩ := hplace y.1 y.2 hy
      rw [decide_eq_true_eq, hf, hg, hsign f g p q hp hq, gt_iff_lt, sign_pos] at hafter
      exact ⟨g, f, q, p, hg, hf, hq, hp, hafter.le⟩
  apply hsorted.imp
  intro x y hxy
  obtain ⟨f, g, p, q, hx, hy, hf, hg, hle⟩ := hxy
  rw [hx, hy, doNcmp_float, doNcmp_float, floatNcmp, floatNcmp, hf, hg]
  cases conv.place (svNV conv subject.sv) with
  | none => exact Int.le_refl _
  | some y => exact sign_mono y hle

theorem nanTable_rises (h : ∀ v k, (v, k) ∈ table → ∃ f, v = floatSv f ∧ conv.place f = none)
    (subject : Scalar conv) : (dispatchOnSort conv table).Pairwise fun x y =>
      doNcmp conv x.1 subject.sv ≤ doNcmp conv y.1 subject.sv := by
  have hnan (x : Sv NV × Nat) (hx : x ∈ dispatchOnSort conv table) :
      doNcmp conv x.1 subject.sv = 2 := by
    obtain ⟨f, hf, hp⟩ := h x.1 x.2 (dispatchOnSort_mem.1 hx)
    rw [hf, doNcmp_float, floatNcmp, hp]
  apply List.pairwise_of_forall_mem_list
  intro x hx y hy
  rw [hnan x hx, hnan y hy]

end Rising

/-- Where no filter of the tables goes wrong: bounds for subjects without a string slot, and the
order of numbers in the binary strategy. -/
structure Indexable (conv : Conversions NV L) (mode : Mode) (shapes : List (Shape NV))
    (subject : Sv NV) : Prop where
  integers : dispatchOnStrategy mode (clauseCount shapes) ≠ .none → subject.pok = none →
    subject.iok.isSome = true →
    allTakenIn [] ((constants shapes).filterMap Shape.integer?) = true
  floats : dispatchOnStrategy mode (clauseCount shapes) ≠ .none → subject.pok = none →
    subject.nok.isSome = true →
    (∀ f ∈ (constants shapes).filterMap Shape.float?, conv.place f = none) ∨
      ∀ f ∈ ((constants shapes).filterMap Shape.float?).head?, conv.place f ≠ none
  sorted : dispatchOnStrategy mode (clauseCount shapes) = .arrayBinary →
    numericallyComparable conv subject = true →
    (∀ f ∈ (constants shapes).filterMap Shape.float?, conv.place f = none) ∨
      ∀ f ∈ (constants shapes).filterMap Shape.float?, conv.place f ≠ none

def Matches (conv : Conversions NV L) (subject : Sv NV) (shapes : List (Shape NV)) (k : Nat) :
    Prop := ∃ shape, shapes[k]? = some shape ∧ ppDispatchOn conv subject shape = true

theorem sourceOrder_earliest (subject : Sv NV) (shapes : List (Shape NV)) :
    Earliest (Matches conv subject shapes) (sourceOrder conv subject shapes) := by
  rw [sourceOrder]
  cases hfind : shapes.findIdx? (ppDispatchOn conv subject) with
  | none =>
    intro k hk
    obtain ⟨shape, hshape, hmatch⟩ := hk
    rw [List.findIdx?_eq_none_iff] at hfind
    rw [hfind shape (List.mem_of_getElem? hshape)] at hmatch
    cases hmatch
  | some i =>
    rw [List.findIdx?_eq_some_iff_getElem] at hfind
    obtain ⟨hlt, hmatch, hbefore⟩ := hfind
    refine ⟨⟨shapes[i], List.getElem?_eq_getElem hlt, hmatch⟩, ?_⟩
    intro j hj
    obtain ⟨shape, hshape, hmatch'⟩ := hj
    apply Nat.le_of_not_lt
    intro hji
    obtain ⟨hjlt, rfl⟩ := List.getElem?_eq_some_iff.1 hshape
    exact hbefore j hji hmatch'

theorem sooner_none (a : Option Nat) : sooner a none = a := by
  cases a <;> rfl

theorem comparable_of_not_ok {sv : Sv NV} (h : sv.ok = false) :
    numericallyComparable conv sv = false := by
  simp only [Sv.ok, Bool.or_eq_false_iff, Option.isSome_eq_false_iff, Option.isNone_iff_eq_none] at h
  obtain ⟨⟨⟨⟨hiok, hnok⟩, hpok⟩, hrok⟩, -⟩ := h
  simp [numericallyComparable, Sv.niok, hiok, hnok, hpok, hrok]

theorem ppDispatch_eq (strategy : Strategy) (tables : Tables NV) (subject : Sv NV) :
    ppDispatch conv strategy tables subject =
      sooner (sooner (sooner (sooner (sooner tables.defaultClause
        (if subject.ok = true then none else tables.undefClause))
        (subject.bool.bind tables.boolClause))
        (numericCandidate conv strategy tables.ivTable
          (dispatchOnIvInBounds tables.ivBounds subject) subject))
        (numericCandidate conv strategy tables.nvTable
          (dispatchOnNvInBounds conv tables.nvBounds subject) subject))
        (if subject.ok = true ∧ dispatchOnPvInBounds tables.pvBounds subject = true then
          dispatchOnHvCandidate conv tables.pvTable subject else none) := by
  rw [ppDispatch]
  have hnumeric (hok : subject.ok = false) (table : List (Sv NV × Nat)) (b : Bool) :
      numericCandidate conv strategy table b subject = none := by
    rw [numericCandidate, comparable_of_not_ok hok]
    rfl
  cases hok : subject.ok with
  | false =>
    cases hbool : subject.bool with
    | none => simp [hnumeric hok, sooner_none]
    | some b => simp [hnumeric hok, sooner_none]
  | true =>
    cases hpv : dispatchOnPvInBounds tables.pvBounds subject with
    | false =>
      cases hbool : subject.bool with
      | none => simp [sooner_none]
      | some b => simp [sooner_none]
    | true =>
      cases hbool : subject.bool with
      | none => simp [sooner_none]
      | some b => simp [sooner_none]

def Tables.arranged (conv : Conversions NV L) (strategy : Strategy) (tables : Tables NV) :
    Tables NV :=
  { tables with
    ivTable := if strategy = .arrayLinear then tables.ivTable else dispatchOnSort conv tables.ivTable
    nvTable :=
      if strategy = .arrayLinear then tables.nvTable else dispatchOnSort conv tables.nvTable }

theorem ppDispatch_earliest {shapes : List (Shape NV)} {tables : Tables NV} {default : Nat → Prop}
    (h : Built conv shapes tables) (hconstant : ∀ k : Nat, shapes[k]? ≠ some Shape.wildcard)
    (hdefault : Earliest default tables.defaultClause) (strategy : Strategy) (subject : Scalar conv)
    (hiv : subject.sv.pok = none → subject.sv.iok.isSome = true →
      allTakenIn [] (shapes.filterMap Shape.integer?) = true)
    (hnv : subject.sv.pok = none → subject.sv.nok.isSome = true →
      (∀ f ∈ shapes.filterMap Shape.float?, conv.place f = none) ∨
        ∀ f ∈ (shapes.filterMap Shape.float?).head?, conv.place f ≠ none)
    (hsorted : strategy ≠ .arrayLinear → numericallyComparable conv subject.sv = true →
      (∀ f ∈ shapes.filterMap Shape.float?, conv.place f = none) ∨
        ∀ f ∈ shapes.filterMap Shape.float?, conv.place f ≠ none) :
    Earliest (fun k => default k ∨ Matches conv subject.sv shapes k)
      (ppDispatch conv strategy (tables.arranged conv strategy) subject.sv) := by
  have hundef : Earliest (fun k => shapes[k]? = some .undef ∧ subject.sv.ok = false)
      (if subject.sv.ok = true then none else tables.undefClause) := by
    cases hok : subject.sv.ok with
    | false =>
      apply h.undefs.congr
      intro k
      simp
    | true =>
      intro k
      simp
  have hbool : Earliest (fun k => ∃ b, shapes[k]? = some (.bool b) ∧ subject.sv.bool = some b)
      (subject.sv.bool.bind tables.boolClause) := by
    cases hb : subject.sv.bool with
    | none =>
      intro k
      simp
    | some b =>
      apply (h.bools b).congr
      intro k
      simp
  have hinteger : Earliest (fun k => ∃ v, (∃ i, shapes[k]? = some (.integer i) ∧ v = integerSv i) ∧
      patternNumeq conv subject.sv v = true)
      (numericCandidate conv strategy (tables.arranged conv strategy).ivTable
        (dispatchOnIvInBounds tables.ivBounds subject.sv) subject.sv) := by
    apply numericCandidate_earliest h.integers
    · intro k v hocc
      obtain ⟨i, -, rfl⟩ := hocc
      rfl
    · intro hpok _ hhit
      obtain ⟨k, v, ⟨i, hi, rfl⟩, hzero⟩ := hhit
      cases hiok : subject.sv.iok with
      | none => exact ivInBounds_of_none _ hiok
      | some n =>
        rw [h.ivBounds]
        apply ivInBounds_of_mem (hiv hpok (by simp [hiok])) hiok (i := i)
        · exact List.mem_filterMap.2 ⟨_, List.mem_of_getElem? hi, rfl⟩
        · rw [doNcmp_integer_iok i subject hiok, sign_eq_zero] at hzero
          exact hzero
    · intro _ _
      apply ivTable_rises
      intro v k hv
      obtain ⟨i, -, hvi⟩ := h.integers.sound v k hv
      exact ⟨i, hvi⟩
  have hfloat : Earliest (fun k => ∃ v, (∃ f, shapes[k]? = some (.floating f) ∧ v = floatSv f) ∧
      patternNumeq conv subject.sv v = true)
      (numericCandidate conv strategy (tables.arranged conv strategy).nvTable
        (dispatchOnNvInBounds conv tables.nvBounds subject.sv) subject.sv) := by
    apply numericCandidate_earliest h.floats
    · intro k v hocc
      obtain ⟨f, -, rfl⟩ := hocc
      rfl
    · intro hpok _ hhit
      obtain ⟨k, v, ⟨f, hf, rfl⟩, hzero⟩ := hhit
      have hmem : f ∈ shapes.filterMap Shape.float? :=
        List.mem_filterMap.2 ⟨_, List.mem_of_getElem? hf, rfl⟩
      rw [doNcmp_float, floatNcmp_eq_zero] at hzero
      obtain ⟨p, hfp, hsp⟩ := hzero
      cases hnok : subject.sv.nok with
      | none => exact nvInBounds_of_none _ hnok
      | some x =>
        have hx : svNV conv subject.sv = x := by
          rw [svNV, hnok]
        rw [hx] at hsp
        rw [h.nvBounds]
        apply nvInBounds_of_mem _ hnok hsp hmem hfp
        intro g hg
        rcases hnv hpok (by simp [hnok]) with hall | hfirst
        · rw [hall f hmem] at hfp
          cases hfp
        · exact hfirst g hg
    · intro hbinary hcomparable
      have hsound (v : Sv NV) (k : Nat) (hv : (v, k) ∈ tables.nvTable) :
          ∃ f ∈ shapes.filterMap Shape.float?, v = floatSv f := by
        obtain ⟨f, hf, hvf⟩ := h.floats.sound v k hv
        exact ⟨f, List.mem_filterMap.2 ⟨_, List.mem_of_getElem? hf, rfl⟩, hvf⟩
      rcases hsorted hbinary hcomparable with hall | hnone
      · apply nanTable_rises
        intro v k hv
        obtain ⟨f, hf, hvf⟩ := hsound v k hv
        exact ⟨f, hvf, hall f hf⟩
      · apply nvTable_rises
        intro v k hv
        obtain ⟨f, hf, hvf⟩ := hsound v k hv
        exact ⟨f, hvf, hnone f hf⟩
  have hstring : Earliest (fun k => ∃ s, shapes[k]? = some (.string s) ∧
      patternStreq conv subject.sv (stringSv s) = true)
      (if subject.sv.ok = true ∧ dispatchOnPvInBounds tables.pvBounds subject.sv = true then
        dispatchOnHvCandidate conv tables.pvTable subject.sv else none) := by
    have hstreq (s : Str) : patternStreq conv subject.sv (stringSv s) = true ↔
        subject.sv.ok = true ∧ s = svPV conv subject.sv := by
      have hok : (stringSv s : Sv NV).ok = true := rfl
      have hpv : svPV conv (stringSv s : Sv NV) = s := rfl
      rw [patternStreq, hok, hpv, Bool.and_true, Bool.and_eq_true, beq_iff_eq]
      exact and_congr_right fun _ => eq_comm
    by_cases hpass : subject.sv.ok = true ∧ dispatchOnPvInBounds tables.pvBounds subject.sv = true
    · rw [if_pos hpass]
      apply (h.strings (svPV conv subject.sv)).congr
      intro k
      constructor
      · intro hk
        exact ⟨_, hk, (hstreq _).2 ⟨hpass.1, rfl⟩⟩
      · intro hk
        obtain ⟨s, hs, hmatch⟩ := hk
        rw [← ((hstreq s).1 hmatch).2]
        exact hs
    · rw [if_neg hpass]
      intro k hk
      obtain ⟨s, hs, hmatch⟩ := hk
      obtain ⟨hok, hsv⟩ := (hstreq s).1 hmatch
      apply hpass
      refine ⟨hok, ?_⟩
      cases hpok : subject.sv.pok with
      | none => exact pvInBounds_of_none _ hpok
      | some t =>
        have ht : svPV conv subject.sv = t := by
          rw [svPV, hpok]
          rfl
        rw [h.pvBounds]
        apply pvInBounds_of_mem hpok
        rw [← ht, ← hsv]
        exact List.mem_map.2 ⟨s, List.mem_filterMap.2 ⟨_, List.mem_of_getElem? hs, rfl⟩, rfl⟩
  rw [ppDispatch_eq]
  apply (((((hdefault.sooner hundef).sooner hbool).sooner hinteger).sooner hfloat).sooner
    hstring).congr
  intro k
  constructor
  · intro hk
    rcases hk with ((((hk | ⟨hk, hok⟩) | ⟨b, hk, hb⟩) | ⟨v, ⟨i, hk, rfl⟩, hm⟩) |
      ⟨v, ⟨f, hk, rfl⟩, hm⟩) | ⟨s, hk, hm⟩
    · exact Or.inl hk
    · exact Or.inr ⟨_, hk, by simp [ppDispatchOn, hok]⟩
    · exact Or.inr ⟨_, hk, by simp [ppDispatchOn, hb]⟩
    · exact Or.inr ⟨_, hk, hm⟩
    · exact Or.inr ⟨_, hk, hm⟩
    · exact Or.inr ⟨_, hk, hm⟩
  · intro hk
    rcases hk with hk | ⟨shape, hk, hm⟩
    · exact Or.inl (Or.inl (Or.inl (Or.inl (Or.inl hk))))
    · cases shape with
      | undef =>
        refine Or.inl (Or.inl (Or.inl (Or.inl (Or.inr ⟨hk, ?_⟩))))
        simpa [ppDispatchOn] using hm
      | bool b =>
        refine Or.inl (Or.inl (Or.inl (Or.inr ⟨b, hk, ?_⟩)))
        simpa [ppDispatchOn] using hm
      | integer i => exact Or.inl (Or.inl (Or.inr ⟨_, ⟨i, hk, rfl⟩, hm⟩))
      | floating f => exact Or.inl (Or.inr ⟨_, ⟨f, hk, rfl⟩, hm⟩)
      | string s => exact Or.inr ⟨s, hk, hm⟩
      | wildcard => exact absurd hk (hconstant k)

theorem constants_constant (shapes : List (Shape NV)) (k : Nat) :
    (constants shapes)[k]? ≠ some Shape.wildcard := by
  intro hk
  have hmem := List.mem_of_getElem? hk
  induction shapes generalizing k with
  | nil => cases hmem
  | cons shape shapes ih =>
    cases shape with
    | wildcard => cases hmem
    | _ =>
      rcases List.mem_cons.1 hmem with heq | hmem
      · cases heq
      · obtain ⟨j, hj⟩ := List.mem_iff_getElem?.1 hmem
        exact ih j hj hmem

theorem matches_earliest {shapes : List (Shape NV)} {subject : Sv NV} {a default : Option Nat}
    (hdefault : (∃ rest, shapes = constants shapes ++ .wildcard :: rest) ∧
        default = some (constants shapes).length ∨ shapes = constants shapes ∧ default = none)
    (h : Earliest (fun k => default = some k ∨ Matches conv subject (constants shapes) k) a) :
    Earliest (Matches conv subject shapes) a := by
  rcases hdefault with ⟨⟨rest, hrest⟩, rfl⟩ | ⟨hall, rfl⟩
  · generalize constants shapes = consts at hrest h
    have hwild : shapes[consts.length]? = some .wildcard := by
      rw [hrest]
      simp
    have hbelow (k : Nat) (hk : k < consts.length) : shapes[k]? = consts[k]? := by
      rw [hrest, List.getElem?_append_left hk]
    apply earliest_of_cover h
    · intro k hk
      rcases hk with hk | ⟨shape, hk, hm⟩
      · rw [← Option.some.inj hk]
        exact ⟨_, hwild, rfl⟩
      · refine ⟨shape, ?_, hm⟩
        rw [hbelow k (List.getElem?_eq_some_iff.1 hk).1]
        exact hk
    · intro k hk
      obtain ⟨shape, hk, hm⟩ := hk
      rcases Nat.lt_or_ge k consts.length with hlt | hge
      · rw [hbelow k hlt] at hk
        exact ⟨k, Nat.le_refl k, Or.inr ⟨shape, hk, hm⟩⟩
      · exact ⟨_, hge, Or.inl rfl⟩
  · apply h.congr
    intro k
    rw [← hall]
    simp

/-- A dispatch selects the clause that the order of the source selects, on every input on which no
filter of its tables goes wrong. -/
theorem dispatch_eq_sourceOrder (conv : Conversions NV L) (mode : Mode) (shapes : List (Shape NV))
    (subject : Scalar conv) (h : Indexable conv mode shapes subject.sv) :
    dispatch conv mode shapes subject.sv = sourceOrder conv subject.sv shapes := by
  have hnil : Built conv [] (Tables.new NV) := built_nil
  obtain ⟨hbuilt, hdefault⟩ := addClauses_spec shapes hnil rfl
  rw [List.length_nil, Nat.zero_add] at hdefault
  rw [List.nil_append, List.length_nil] at hbuilt
  generalize htables : (Tables.new NV).addClauses conv 0 shapes = tables at hbuilt hdefault
  have hselect (strategy : Strategy)
      (hstrategy : dispatchOnStrategy mode (clauseCount shapes) = strategy)
      (hsome : strategy ≠ .none) :
      ppDispatch conv strategy (tables.arranged conv strategy) subject.sv =
        sourceOrder conv subject.sv shapes := by
    have hdef : Earliest (fun k => tables.defaultClause = some k) tables.defaultClause := by
      cases tables.defaultClause with
      | none =>
        intro k hk
        cases hk
      | some n =>
        refine ⟨rfl, ?_⟩
        intro j hj
        exact Nat.le_of_eq (Option.some.inj hj)
    have hearliest := ppDispatch_earliest hbuilt (constants_constant shapes) hdef strategy subject
      (h.integers (by rw [hstrategy]; exact hsome)) (h.floats (by rw [hstrategy]; exact hsome))
      (by
        intro hbinary
        apply h.sorted
        rw [hstrategy]
        cases strategy with
        | none => exact absurd rfl hsome
        | arrayLinear => exact absurd rfl hbinary
        | arrayBinary => rfl)
    exact (matches_earliest hdefault hearliest).unique (sourceOrder_earliest subject.sv shapes)
  rw [dispatch, dispatchOnCompile]
  by_cases hconst : hasConstant shapes = false
  · rw [if_pos hconst]
  · rw [if_neg hconst, htables]
    cases hstrategy : dispatchOnStrategy mode (clauseCount shapes) with
    | none => rfl
    | arrayLinear => exact hselect .arrayLinear hstrategy (by simp)
    | arrayBinary => exact hselect .arrayBinary hstrategy (by simp)

/-- Numbers with one binary digit behind the point, counted in halves, and a NaN. -/
abbrev Halves := Option Int

def Halves.toInteger (f : Halves) : Option Integer :=
  match f with
  | some h =>
    if h % 2 = 0 ∧ -9007199254740992 ≤ h / 2 ∧ h / 2 ≤ 9007199254740992 then
      some ⟨false, (Int64.ofInt (h / 2)).toUInt64⟩
    else none
  | none => none

theorem Halves.place_toInteger (f : Halves) (i : Integer) (h : f.toInteger = some i) :
    f = some (2 * i.value) := by
  cases f with
  | none => cases h
  | some n =>
    simp only [toInteger] at h
    by_cases hn : n % 2 = 0 ∧ -9007199254740992 ≤ n / 2 ∧ n / 2 ≤ 9007199254740992
    · rw [if_pos hn] at h
      cases h
      have hvalue : (Int64.ofInt (n / 2)).toInt = n / 2 :=
        Int64.toInt_ofInt_of_le (by omega) (by omega)
      have hsigned : (Int64.ofInt (n / 2)).toUInt64.toInt64 = Int64.ofInt (n / 2) := by simp
      have heven : 2 * (n / 2) = n := by omega
      rw [Integer.value, Integer.iv, if_neg Bool.false_ne_true, hsigned, hvalue, heven]
    · rw [if_neg hn] at h
      cases h

/-- The digits of a natural number. -/
def digits (n : Nat) : Str := (Nat.toDigits 10 n).map Char.toNat

/-- The text of a number of halves. -/
def Halves.text (h : Int) : Str :=
  (if h < 0 then [45] else []) ++ digits (h.natAbs / 2) ++ if h % 2 = 0 then [] else [46, 53]

/-- Conversions for strings that are no numbers. -/
def halves : Conversions Halves Int where
  place := id
  ofInt n := some (2 * n)
  toInteger := Halves.toInteger
  looksLikeNumber _ := false
  number _ := (none, some 0)
  stringOf sv :=
    match sv.iok, sv.nok with
    | some i, _ => Halves.text (2 * i.value)
    | none, some (some h) => Halves.text h
    | none, some none => [78, 97, 78]
    | none, none => []
  placeInt n := 2 * n
  place_ofInt _ := rfl
  placeInt_mono m n h := by omega
  place_toInteger := Halves.place_toInteger
  apart f i n _ h := by omega
  place_number s i h := by cases h

/-- The number 2.5 among constants of all kinds. -/
def twoAndAHalf : Scalar halves where
  sv := floatSv (some 5)
  agree i f h := by cases h

theorem dispatch_finds_float :
    dispatch halves .arrayBinary
        [.floating (some 7), .integer ⟨false, 2⟩, .string [120], .floating (some 5),
          .floating (some (-1)), .wildcard, .undef] twoAndAHalf.sv = some 3 :=
  (dispatch_eq_sourceOrder halves .arrayBinary _ twoAndAHalf
    ⟨by decide, by decide, by decide⟩).trans (by decide)

/-- A negative constant resets the upper bound that a constant above all signed words has set. -/
theorem dispatch_misses_greatest :
    ¬ ∀ (mode : Mode) (shapes : List (Shape Halves)) (subject : Scalar halves),
      dispatch halves mode shapes subject.sv = sourceOrder halves subject.sv shapes := by
  intro h
  have hgreatest := h .unset [.integer ⟨true, 18446744073709551615⟩,
      .integer ⟨false, 18446744073709551615⟩]
    ⟨integerSv ⟨true, 18446744073709551615⟩, fun i f hi hf => by cases hf⟩
  revert hgreatest
  decide

end XPerl.Dispatch
