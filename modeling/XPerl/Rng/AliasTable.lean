import Mathlib.Algebra.BigOperators.Field
import Mathlib.Algebra.Order.BigOperators.Group.List
import Mathlib.Tactic.FieldSimp
import Mathlib.Tactic.Linarith
import Mathlib.Tactic.Ring
import XPerl.Rng.UniformInt

/-! `RNG::AliasTable` over the rational numbers. -/

namespace XPerl.Rng

/-- The work of `RNG::AliasTable::new`; the last index of a list of columns stands first. -/
structure Columns where
  prob : Nat → ℚ
  aliases : Nat → Option Nat
  small : List Nat
  large : List Nat

def splitColumns (prob : Nat → ℚ) (count : Nat) : Columns :=
  (List.range count).foldl (fun c i =>
    if c.prob i < 1 then { c with small := i :: c.small } else { c with large := i :: c.large })
    ⟨prob, fun _ => none, [], []⟩

def Columns.move (c : Columns) (small large : Nat) (smalls larges : List Nat) : Columns :=
  let aliases := Function.update c.aliases small (some large)
  let prob := Function.update c.prob large (c.prob large + c.prob small - 1)
  if prob large < 1 then ⟨prob, aliases, large :: smalls, larges⟩
  else ⟨prob, aliases, smalls, large :: larges⟩

def moveMass : Nat → Columns → Columns
  | 0, c => c
  | fuel + 1, c =>
    match c.small, c.large with
    | small :: smalls, large :: larges => moveMass fuel (c.move small large smalls larges)
    | _, _ => c

/-- A table, by its columns. -/
structure AliasTable where
  values : List String
  prob : Nat → ℚ
  aliases : Nat → Option Nat

def weightOf (weights : List (String × ℚ)) (value : String) : ℚ :=
  ((weights.find? fun entry => entry.1 = value).map Prod.snd).getD 0

def maxWeight (weights : List ℚ) : ℚ := weights.foldl (fun max w => if w > max then w else max) 0

def startProb (weights : List ℚ) : Nat → ℚ :=
  let scaled := weights.map (· / maxWeight weights)
  fun i => scaled.getD i 0 * weights.length / scaled.sum

/-- `RNG::AliasTable->new` for a hash of rational weights. -/
def aliasTableNew (weights : List (String × ℚ)) : Except String AliasTable :=
  if weights = [] then .error "weighted RNG input must be a hash reference"
  else
    let values := (weights.map Prod.fst).mergeSort fun a b => decide (a ≤ b)
    if ∃ value ∈ values, weightOf weights value < 0 then
      .error "weighted RNG values must have finite, non-negative weights"
    else if ¬ ∃ value ∈ values, 0 < weightOf weights value then
      .error "weighted RNG input must contain a positive weight"
    else
      let count := values.length
      let c := moveMass count (splitColumns (startProb (values.map (weightOf weights))) count)
      .ok
        { values
          prob := fun i => if i ∈ c.small ++ c.large then 1 else c.prob i
          aliases := c.aliases }

def AliasTable.pick (table : AliasTable) (column : Nat) (unit : ℚ) : Option String :=
  if unit < table.prob column then table.values[column]?
  else (table.aliases column).bind fun i => table.values[i]?

section Columns

variable {n : Nat} {target : Nat → ℚ} {c : Columns}

def given (c : Columns) (i j : Nat) : ℚ := if c.aliases j = some i then 1 - c.prob j else 0

/-- The columns in the lists are open, and share their mass; every outcome has its mass in its
column and in the columns that it is the alias of. -/
structure Balanced (n : Nat) (target : Nat → ℚ) (c : Columns) : Prop where
  nodup : (c.small ++ c.large).Nodup
  lt : ∀ j ∈ c.small ++ c.large, j < n
  small : ∀ j ∈ c.small, 0 ≤ c.prob j ∧ c.prob j < 1
  large : ∀ j ∈ c.large, 1 ≤ c.prob j
  unaliased : ∀ j ∈ c.small ++ c.large, c.aliases j = none
  closed : ∀ j < n, j ∉ c.small ++ c.large →
    0 ≤ c.prob j ∧ c.prob j < 1 ∧ ∃ l < n, c.aliases j = some l ∧ l ≠ j
  total : ((c.small ++ c.large).map c.prob).sum = (c.small ++ c.large).length
  mass : ∀ i < n, c.prob i + ∑ j ∈ Finset.range n, given c i j = target i

theorem splitColumns_eq (prob : Nat → ℚ) (k : Nat) :
    splitColumns prob k =
      ⟨prob, fun _ => none, ((List.range k).filter fun j => prob j < 1).reverse,
        ((List.range k).filter fun j => ¬ prob j < 1).reverse⟩ := by
  induction k with
  | zero => rfl
  | succ k ih =>
    have hstep : splitColumns prob (k + 1) =
        if (splitColumns prob k).prob k < 1 then
          { splitColumns prob k with small := k :: (splitColumns prob k).small }
        else { splitColumns prob k with large := k :: (splitColumns prob k).large } := by
      rw [splitColumns, List.range_succ, List.foldl_append]
      rfl
    rw [hstep, ih]
    by_cases hlt : prob k < 1
    · simp [hlt, List.range_succ]
    · simp [hlt, not_lt.1 hlt, List.range_succ]

theorem perm_split (prob : Nat → ℚ) (k : Nat) :
    ((splitColumns prob k).small ++ (splitColumns prob k).large).Perm (List.range k) := by
  have hnot : ((List.range k).filter fun j => ¬ prob j < 1) =
      (List.range k).filter fun j => !decide (prob j < 1) := by
    simp only [decide_not]
  rw [splitColumns_eq, hnot]
  exact ((List.reverse_perm _).append (List.reverse_perm _)).trans
    (List.filter_append_perm (fun j => decide (prob j < 1)) (List.range k))

theorem balanced_split {prob : Nat → ℚ} (hnonneg : ∀ j < n, 0 ≤ prob j)
    (hsum : ((List.range n).map prob).sum = n) : Balanced n prob (splitColumns prob n) := by
  have hperm := perm_split prob n
  have hmem (j : Nat) :
      j ∈ (splitColumns prob n).small ++ (splitColumns prob n).large ↔ j < n := by
    rw [hperm.mem_iff, List.mem_range]
  have hprob : (splitColumns prob n).prob = prob := by rw [splitColumns_eq]
  have haliases (j : Nat) : (splitColumns prob n).aliases j = none := by rw [splitColumns_eq]
  have hsmall : ∀ j ∈ (splitColumns prob n).small, j < n ∧ prob j < 1 := by
    intro j hj
    rw [splitColumns_eq] at hj
    simpa using hj
  have hlarge : ∀ j ∈ (splitColumns prob n).large, 1 ≤ prob j := by
    intro j hj
    rw [splitColumns_eq] at hj
    simp only [List.mem_reverse, List.mem_filter, decide_eq_true_eq, not_lt] at hj
    exact hj.2
  constructor
  · exact hperm.nodup_iff.2 List.nodup_range
  · exact fun j hj => (hmem j).1 hj
  · intro j hj
    rw [hprob]
    exact ⟨hnonneg j (hsmall j hj).1, (hsmall j hj).2⟩
  · intro j hj
    rw [hprob]
    exact hlarge j hj
  · exact fun j _ => haliases j
  · exact fun j hj hout => absurd ((hmem j).2 hj) hout
  · have hlen := hperm.length_eq
    rw [List.length_range] at hlen
    rw [hprob, (hperm.map prob).sum_eq, hsum, hlen]
  · intro i _
    have hzero : ∀ j ∈ Finset.range n, given (splitColumns prob n) i j = 0 := by
      intro j _
      rw [given, haliases, if_neg (by simp)]
    rw [Finset.sum_eq_zero hzero, hprob, add_zero]

section Move

variable {small large : Nat} {smalls larges : List Nat}

theorem move_fields (c : Columns) (small large : Nat) (smalls larges : List Nat) :
    (c.move small large smalls larges).prob =
        Function.update c.prob large (c.prob large + c.prob small - 1) ∧
      (c.move small large smalls larges).aliases = Function.update c.aliases small (some large) ∧
      (c.prob large + c.prob small - 1 < 1 ∧
          (c.move small large smalls larges).small = large :: smalls ∧
          (c.move small large smalls larges).large = larges ∨
        1 ≤ c.prob large + c.prob small - 1 ∧
          (c.move small large smalls larges).small = smalls ∧
          (c.move small large smalls larges).large = large :: larges) := by
  rw [Columns.move, Function.update_self]
  by_cases hlt : c.prob large + c.prob small - 1 < 1
  · rw [if_pos hlt]
    exact ⟨rfl, rfl, Or.inl ⟨hlt, rfl, rfl⟩⟩
  · rw [if_neg hlt]
    exact ⟨rfl, rfl, Or.inr ⟨not_lt.1 hlt, rfl, rfl⟩⟩

theorem given_move (hsmall : c.aliases small = none) (hlarge : c.aliases large = none)
    (hne : small ≠ large) (i j : Nat) :
    given (c.move small large smalls larges) i j =
      given c i j + if j = small then (if large = i then 1 - c.prob small else 0) else 0 := by
  obtain ⟨hprob, haliases, -⟩ := move_fields c small large smalls larges
  rw [given, given, hprob, haliases]
  by_cases hj : j = small
  · subst hj
    have hnone : ¬ (none : Option Nat) = some i := by simp
    rw [Function.update_self, Function.update_of_ne hne, hsmall, if_neg hnone, if_pos rfl, zero_add]
    by_cases hi : large = i
    · rw [if_pos hi, if_pos (congrArg some hi)]
    · rw [if_neg hi, if_neg fun h => hi (Option.some.inj h)]
  · rw [Function.update_of_ne hj, if_neg hj, add_zero]
    by_cases hj' : j = large
    · have hnone : ¬ (none : Option Nat) = some i := by simp
      rw [hj', hlarge, if_neg hnone, if_neg hnone]
    · rw [Function.update_of_ne hj']

theorem perm_move (hsmall : c.small = small :: smalls) (hlarge : c.large = large :: larges) :
    (c.small ++ c.large).Perm (small :: large :: (smalls ++ larges)) ∧
      ((c.move small large smalls larges).small ++ (c.move small large smalls larges).large).Perm
        (large :: (smalls ++ larges)) := by
  obtain ⟨-, -, hlists⟩ := move_fields c small large smalls larges
  constructor
  · rw [hsmall, hlarge, List.cons_append]
    exact List.perm_middle.cons small
  · rcases hlists with ⟨-, hsmall', hlarge'⟩ | ⟨-, hsmall', hlarge'⟩
    · rw [hsmall', hlarge', List.cons_append]
    · rw [hsmall', hlarge']
      exact List.perm_middle

theorem Balanced.move (h : Balanced n target c) (hsmall : c.small = small :: smalls)
    (hlarge : c.large = large :: larges) :
    Balanced n target (c.move small large smalls larges) := by
  obtain ⟨hprob, haliases, hlists⟩ := move_fields c small large smalls larges
  obtain ⟨hperm, hperm'⟩ := perm_move hsmall hlarge
  have hnodup := hperm.nodup_iff.1 h.nodup
  obtain ⟨hsmallOut, hnodup'⟩ := List.nodup_cons.1 hnodup
  obtain ⟨hlargeOut, -⟩ := List.nodup_cons.1 hnodup'
  have hne : small ≠ large := fun heq => hsmallOut (by rw [heq]; exact List.mem_cons_self)
  have hmem (j : Nat) : j ∈ c.small ++ c.large ↔ j = small ∨ j = large ∨ j ∈ smalls ++ larges := by
    rw [hperm.mem_iff, List.mem_cons, List.mem_cons]
  have hmem' (j : Nat) : j ∈ (c.move small large smalls larges).small ++
      (c.move small large smalls larges).large ↔ j = large ∨ j ∈ smalls ++ larges := by
    rw [hperm'.mem_iff, List.mem_cons]
  have hsmallOpen : small ∈ c.small ++ c.large := (hmem small).2 (Or.inl rfl)
  have hlargeOpen : large ∈ c.small ++ c.large := (hmem large).2 (Or.inr (Or.inl rfl))
  have hprobSmall := h.small small (by rw [hsmall]; exact List.mem_cons_self)
  have hprobLarge := h.large large (by rw [hlarge]; exact List.mem_cons_self)
  have hsame {j : Nat} (hj : j ≠ large) : (c.move small large smalls larges).prob j = c.prob j := by
    rw [hprob, Function.update_of_ne hj]
  have hnew : (c.move small large smalls larges).prob large =
      c.prob large + c.prob small - 1 := by
    rw [hprob, Function.update_self]
  have hrestSmall {j : Nat} (hj : j ∈ smalls) : j ≠ large ∧ 0 ≤ c.prob j ∧ c.prob j < 1 :=
    ⟨fun heq => hlargeOut (List.mem_append_left larges (heq ▸ hj)),
      h.small j (by rw [hsmall]; exact List.mem_cons_of_mem small hj)⟩
  have hrestLarge {j : Nat} (hj : j ∈ larges) : j ≠ large ∧ 1 ≤ c.prob j :=
    ⟨fun heq => hlargeOut (List.mem_append_right smalls (heq ▸ hj)),
      h.large j (by rw [hlarge]; exact List.mem_cons_of_mem large hj)⟩
  constructor
  · exact hperm'.nodup_iff.2 hnodup'
  · exact fun j hj => h.lt j ((hmem j).2 (Or.inr ((hmem' j).1 hj)))
  · intro j hj
    rcases hlists with ⟨hlt, hsmall', -⟩ | ⟨-, hsmall', -⟩
    · rw [hsmall', List.mem_cons] at hj
      rcases hj with rfl | hj
      · rw [hnew]
        exact ⟨by linarith, hlt⟩
      · rw [hsame (hrestSmall hj).1]
        exact (hrestSmall hj).2
    · rw [hsmall'] at hj
      rw [hsame (hrestSmall hj).1]
      exact (hrestSmall hj).2
  · intro j hj
    rcases hlists with ⟨-, -, hlarge'⟩ | ⟨hle, -, hlarge'⟩
    · rw [hlarge'] at hj
      rw [hsame (hrestLarge hj).1]
      exact (hrestLarge hj).2
    · rw [hlarge', List.mem_cons] at hj
      rcases hj with rfl | hj
      · rw [hnew]
        exact hle
      · rw [hsame (hrestLarge hj).1]
        exact (hrestLarge hj).2
  · intro j hj
    have hj' := (hmem' j).1 hj
    have hjne : j ≠ small := by
      intro heq
      rw [heq, ← List.mem_cons] at hj'
      exact hsmallOut hj'
    rw [haliases, Function.update_of_ne hjne]
    exact h.unaliased j ((hmem j).2 (Or.inr hj'))
  · intro j hj hout
    have hjlarge : j ≠ large := fun heq => hout ((hmem' j).2 (Or.inl heq))
    rw [hsame hjlarge, haliases]
    by_cases hjsmall : j = small
    · rw [hjsmall, Function.update_self]
      exact ⟨hprobSmall.1, hprobSmall.2, large, h.lt large hlargeOpen, rfl, hne.symm⟩
    · rw [Function.update_of_ne hjsmall]
      apply h.closed j hj
      intro hopen
      rcases (hmem j).1 hopen with heq | hopen
      · exact hjsmall heq
      · exact hout ((hmem' j).2 hopen)
  · have htotal := h.total
    have hrest : (smalls ++ larges).map (c.move small large smalls larges).prob =
        (smalls ++ larges).map c.prob :=
      List.map_congr_left fun j hj => hsame fun heq => hlargeOut (heq ▸ hj)
    rw [(hperm.map c.prob).sum_eq, hperm.length_eq, List.map_cons, List.map_cons, List.sum_cons,
      List.sum_cons, List.length_cons, List.length_cons] at htotal
    rw [(hperm'.map _).sum_eq, hperm'.length_eq, List.map_cons, List.sum_cons, hnew, hrest,
      List.length_cons]
    push_cast at htotal ⊢
    linarith
  · intro i hi
    have hmass := h.mass i hi
    simp only [given_move (h.unaliased small hsmallOpen) (h.unaliased large hlargeOpen) hne,
      Finset.sum_add_distrib, Finset.sum_ite_eq', Finset.mem_range]
    rw [if_pos (h.lt small hsmallOpen)]
    by_cases hilarge : large = i
    · rw [← hilarge] at hmass ⊢
      rw [if_pos rfl, hnew]
      linarith
    · rw [if_neg hilarge, hsame fun heq => hilarge heq.symm, add_zero]
      exact hmass

end Move

theorem Balanced.moveMass (fuel : Nat) (h : Balanced n target c)
    (hfuel : (c.small ++ c.large).length ≤ fuel) :
    Balanced n target (moveMass fuel c) ∧
      ((moveMass fuel c).small = [] ∨ (moveMass fuel c).large = []) := by
  induction fuel generalizing c with
  | zero =>
    rw [Rng.moveMass]
    refine ⟨h, Or.inl ?_⟩
    have hnil := List.eq_nil_of_length_eq_zero (Nat.le_zero.1 hfuel)
    exact (List.append_eq_nil_iff.1 hnil).1
  | succ fuel ih =>
    cases hsmall : c.small with
    | nil =>
      have hstop : Rng.moveMass (fuel + 1) c = c := by
        rw [Rng.moveMass, hsmall]
      rw [hstop]
      exact ⟨h, Or.inl hsmall⟩
    | cons small smalls =>
      cases hlarge : c.large with
      | nil =>
        have hstop : Rng.moveMass (fuel + 1) c = c := by
          rw [Rng.moveMass, hsmall, hlarge]
        rw [hstop]
        exact ⟨h, Or.inr hlarge⟩
      | cons large larges =>
        have hstep : Rng.moveMass (fuel + 1) c =
            Rng.moveMass fuel (c.move small large smalls larges) := by
          rw [Rng.moveMass, hsmall, hlarge]
        obtain ⟨hperm, hperm'⟩ := perm_move hsmall hlarge
        rw [hstep]
        apply ih (h.move hsmall hlarge)
        have hlen := hperm.length_eq
        rw [List.length_cons, ← hperm'.length_eq] at hlen
        omega

variable {f : Nat → ℚ} {l : List Nat}

theorem sum_le_length (h : ∀ j ∈ l, f j ≤ 1) :
    (l.map f).sum ≤ l.length := by
  induction l with
  | nil => simp
  | cons j l ih =>
    have hj := h j List.mem_cons_self
    have hl := ih fun k hk => h k (List.mem_cons_of_mem j hk)
    rw [List.map_cons, List.sum_cons, List.length_cons]
    push_cast
    linarith

theorem length_le_sum (h : ∀ j ∈ l, 1 ≤ f j) :
    l.length ≤ (l.map f).sum := by
  induction l with
  | nil => simp
  | cons j l ih =>
    have hj := h j List.mem_cons_self
    have hl := ih fun k hk => h k (List.mem_cons_of_mem j hk)
    rw [List.map_cons, List.sum_cons, List.length_cons]
    push_cast
    linarith

theorem Balanced.open_eq_one (h : Balanced n target c) (hend : c.small = [] ∨ c.large = [])
    {j : Nat}
    (hj : j ∈ c.small ++ c.large) : c.prob j = 1 := by
  have htotal := h.total
  obtain ⟨before, behind, hsplit⟩ := List.append_of_mem hj
  have hperm : (c.small ++ c.large).Perm (j :: (before ++ behind)) := by
    rw [hsplit]
    exact List.perm_middle
  rw [(hperm.map c.prob).sum_eq, hperm.length_eq, List.map_cons, List.sum_cons, List.length_cons]
    at htotal
  push_cast at htotal
  have hrest : ∀ k ∈ before ++ behind, k ∈ c.small ++ c.large := fun k hk =>
    hperm.mem_iff.2 (List.mem_cons_of_mem j hk)
  rcases hend with hsmall | hlarge
  · rw [hsmall, List.nil_append] at hj hrest
    have hle := length_le_sum fun k hk => h.large k (hrest k hk)
    linarith [h.large j hj]
  · rw [hlarge, List.append_nil] at hj hrest
    have hle := sum_le_length fun k hk => (h.small k (hrest k hk)).2.le
    linarith [h.small j hj]

end Columns

section Weights

theorem le_maxWeight (weights : List ℚ) (max : ℚ) :
    max ≤ weights.foldl (fun max w => if w > max then w else max) max ∧
      ∀ w ∈ weights, w ≤ weights.foldl (fun max w => if w > max then w else max) max := by
  induction weights generalizing max with
  | nil => exact ⟨le_refl max, fun w hw => absurd hw List.not_mem_nil⟩
  | cons w weights ih =>
    obtain ⟨hmax, hall⟩ := ih (if w > max then w else max)
    have hle : max ≤ (if w > max then w else max) ∧ w ≤ if w > max then w else max := by
      by_cases hw : w > max
      · rw [if_pos hw]
        exact ⟨hw.le, le_refl w⟩
      · rw [if_neg hw]
        exact ⟨le_refl max, not_lt.1 hw⟩
    rw [List.foldl_cons]
    refine ⟨hle.1.trans hmax, ?_⟩
    intro v hv
    rcases List.mem_cons.1 hv with rfl | hv
    · exact hle.2.trans hmax
    · exact hall v hv

theorem sum_map_div (weights : List ℚ) (m : ℚ) :
    (weights.map (· / m)).sum = weights.sum / m := by
  induction weights with
  | nil => simp
  | cons w weights ih =>
    rw [List.map_cons, List.sum_cons, List.sum_cons, ih]
    ring

variable {weights : List ℚ}

variable {w : ℚ}

theorem startProb_eq (hw : w ∈ weights) (hpos : 0 < w) (i : Nat) :
    startProb weights i = weights.getD i 0 * weights.length / weights.sum := by
  have hmax : maxWeight weights ≠ 0 := by
    have hle := (le_maxWeight weights 0).2 w hw
    exact (hpos.trans_le hle).ne'
  have hget : (weights.map (· / maxWeight weights)).getD i 0 =
      weights.getD i 0 / maxWeight weights := by
    rw [List.getD_eq_getElem?_getD, List.getD_eq_getElem?_getD, List.getElem?_map]
    cases weights[i]? with
    | none => simp
    | some v => rfl
  rw [startProb]
  dsimp only
  rw [hget, sum_map_div]
  field_simp

theorem map_getD_range (weights : List ℚ) :
    (List.range weights.length).map (fun i => weights.getD i 0) = weights := by
  apply List.ext_getElem
  · simp
  · intro i hi hi'
    simp [List.getD_eq_getElem?_getD, hi']

theorem sum_startProb (hw : w ∈ weights) (hpos : 0 < w) (hsum : weights.sum ≠ 0) :
    ((List.range weights.length).map (startProb weights)).sum = weights.length := by
  have hstart : (List.range weights.length).map (startProb weights) =
      ((List.range weights.length).map fun i => weights.getD i 0).map
        (· / (weights.sum / weights.length)) := by
    rw [List.map_map]
    apply List.map_congr_left
    intro i _
    rw [startProb_eq hw hpos]
    dsimp only [Function.comp_apply]
    rw [div_div_eq_mul_div]
  have hlen : (weights.length : ℚ) ≠ 0 := by
    have hne := List.length_pos_of_mem hw
    exact_mod_cast hne.ne'
  rw [hstart, map_getD_range, sum_map_div]
  field_simp

end Weights

section Table

variable {weights : List (String × ℚ)}

theorem weightOf_eq (hnodup : (weights.map Prod.fst).Nodup) {entry : String × ℚ}
    (hentry : entry ∈ weights) : weightOf weights entry.1 = entry.2 := by
  have hfind : weights.find? (fun e => e.1 = entry.1) = some entry := by
    induction weights with
    | nil => cases hentry
    | cons first weights ih =>
      obtain ⟨hout, hnodup⟩ := List.nodup_cons.1 hnodup
      rcases List.mem_cons.1 hentry with rfl | hentry
      · exact List.find?_cons_of_pos (decide_eq_true rfl)
      · have hne : first.1 ≠ entry.1 := by
          intro heq
          exact hout (heq ▸ List.mem_map_of_mem hentry)
        rw [List.find?_cons_of_neg (by simpa using hne)]
        exact ih hnodup hentry
  rw [weightOf, hfind]
  rfl

/-- What `new` makes of a balanced distribution over the columns. -/
structure Exact (weights : List (String × ℚ)) (table : AliasTable) : Prop where
  values : table.values.Perm (weights.map Prod.fst)
  prob : ∀ j < table.values.length, 0 ≤ table.prob j ∧ table.prob j ≤ 1
  aliased : ∀ j < table.values.length, table.prob j < 1 →
    ∃ l < table.values.length, table.aliases j = some l ∧ l ≠ j
  unaliased : ∀ j < table.values.length, table.prob j = 1 → table.aliases j = none
  mass : ∀ i < table.values.length,
    table.prob i + ∑ j ∈ Finset.range table.values.length,
        (if table.aliases j = some i then 1 - table.prob j else 0) =
      startProb (table.values.map (weightOf weights)) i

theorem perm_values (weights : List (String × ℚ)) :
    ((weights.map Prod.fst).mergeSort fun a b => decide (a ≤ b)).Perm (weights.map Prod.fst) :=
  List.mergeSort_perm _ _

variable {values : List String} {j i : Nat}

theorem sum_values (hnodup : (weights.map Prod.fst).Nodup)
    (hperm : values.Perm (weights.map Prod.fst)) :
    (values.map (weightOf weights)).sum = (weights.map Prod.snd).sum := by
  have hsame : weights.map (weightOf weights ∘ Prod.fst) = weights.map Prod.snd :=
    List.map_congr_left fun entry hentry => weightOf_eq hnodup hentry
  rw [(hperm.map (weightOf weights)).sum_eq, List.map_map, hsame]

theorem exists_pos_weight (hnodup : (weights.map Prod.fst).Nodup)
    (hpos : 0 < (weights.map Prod.snd).sum)
    (hperm : values.Perm (weights.map Prod.fst)) :
    ∃ value ∈ values, 0 < weightOf weights value := by
  rw [← sum_values hnodup hperm] at hpos
  clear hperm
  induction values with
  | nil => exact absurd hpos (lt_irrefl 0)
  | cons value values ih =>
    rcases lt_or_ge 0 (weightOf weights value) with hvalue | hvalue
    · exact ⟨value, List.mem_cons_self, hvalue⟩
    · rw [List.map_cons, List.sum_cons] at hpos
      obtain ⟨value', hmem, hvalue'⟩ := ih (by linarith)
      exact ⟨value', List.mem_cons_of_mem value hmem, hvalue'⟩

theorem aliasTableNew_exact (hnodup : (weights.map Prod.fst).Nodup)
    (hnonneg : ∀ entry ∈ weights, 0 ≤ entry.2) (hpos : 0 < (weights.map Prod.snd).sum) :
    ∃ table, aliasTableNew weights = .ok table ∧ Exact weights table := by
  have hperm := perm_values weights
  have hne : weights ≠ [] := by
    intro hnil
    rw [hnil, List.map_nil, List.sum_nil] at hpos
    exact lt_irrefl 0 hpos
  rw [aliasTableNew, if_neg hne]
  dsimp only
  generalize (weights.map Prod.fst).mergeSort (fun a b => decide (a ≤ b)) = values at hperm ⊢
  have hweight : ∀ value ∈ values, 0 ≤ weightOf weights value := by
    intro value hvalue
    obtain ⟨entry, hentry, rfl⟩ := List.mem_map.1 (hperm.mem_iff.1 hvalue)
    rw [weightOf_eq hnodup hentry]
    exact hnonneg entry hentry
  have hsum := sum_values hnodup hperm
  have hsome := exists_pos_weight hnodup hpos hperm
  have hneg : ¬ ∃ value ∈ values, weightOf weights value < 0 := by
    intro hneg
    obtain ⟨value, hvalue, hlt⟩ := hneg
    exact absurd (hweight value hvalue) (not_le.2 hlt)
  rw [if_neg hneg, if_neg (not_not.2 hsome)]
  refine ⟨_, rfl, ?_⟩
  obtain ⟨value, hvalue, hvaluePos⟩ := hsome
  have hmem := List.mem_map_of_mem (f := weightOf weights) hvalue
  have hlen : (values.map (weightOf weights)).length = values.length := List.length_map _
  have hstart := sum_startProb hmem hvaluePos (by rw [hsum]; exact hpos.ne')
  rw [hlen] at hstart
  have hstartNonneg : ∀ j < values.length, 0 ≤ startProb (values.map (weightOf weights)) j := by
    intro j hj
    rw [startProb_eq hmem hvaluePos, hsum, List.getD_eq_getElem?_getD, List.getElem?_map,
      List.getElem?_eq_getElem hj]
    exact div_nonneg (mul_nonneg (hweight _ (List.getElem_mem hj)) (Nat.cast_nonneg _)) hpos.le
  have hsplit := balanced_split hstartNonneg hstart
  have hfuel := (perm_split (startProb (values.map (weightOf weights))) values.length).length_eq
  rw [List.length_range] at hfuel
  obtain ⟨hbalanced, hend⟩ := hsplit.moveMass values.length hfuel.le
  generalize moveMass values.length
    (splitColumns (startProb (values.map (weightOf weights))) values.length) = c at hbalanced hend ⊢
  have hprob (j : Nat) : (if j ∈ c.small ++ c.large then 1 else c.prob j) = c.prob j := by
    by_cases hj : j ∈ c.small ++ c.large
    · rw [if_pos hj, hbalanced.open_eq_one hend hj]
    · rw [if_neg hj]
  constructor
  · exact hperm
  · intro j hj
    dsimp only
    rw [hprob]
    by_cases hopen : j ∈ c.small ++ c.large
    · rw [hbalanced.open_eq_one hend hopen]
      exact ⟨zero_le_one, le_refl 1⟩
    · exact ⟨(hbalanced.closed j hj hopen).1, (hbalanced.closed j hj hopen).2.1.le⟩
  · intro j hj hlt
    dsimp only at hlt ⊢
    rw [hprob] at hlt
    by_cases hopen : j ∈ c.small ++ c.large
    · rw [hbalanced.open_eq_one hend hopen] at hlt
      exact absurd hlt (lt_irrefl 1)
    · exact (hbalanced.closed j hj hopen).2.2
  · intro j hj hone
    dsimp only at hone ⊢
    rw [hprob] at hone
    by_cases hopen : j ∈ c.small ++ c.large
    · exact hbalanced.unaliased j hopen
    · have hlt := (hbalanced.closed j hj hopen).2.1
      rw [hone] at hlt
      exact absurd hlt (lt_irrefl 1)
  · intro i hi
    dsimp only
    simp only [hprob]
    exact hbalanced.mass i hi

/-- The numbers below one for which a column gives an outcome. -/
def picking (table : AliasTable) (j : Nat) (value : String) : Set ℚ :=
  {unit | 0 ≤ unit ∧ unit < 1 ∧ table.pick j unit = some value}

/-- Where the numbers begin and end for which column `j` gives the outcome of column `i`. -/
def pickFrom (table : AliasTable) (i j : Nat) : ℚ :=
  if j ≠ i ∧ table.aliases j = some i then table.prob j else 0

def pickTo (table : AliasTable) (i j : Nat) : ℚ :=
  if j = i then table.prob j else if table.aliases j = some i then 1 else 0

variable {table : AliasTable}

theorem Exact.aliases_ne (h : Exact weights table) (hj : j < table.values.length) :
    table.aliases j ≠ some j := by
  intro heq
  rcases lt_or_eq_of_le (h.prob j hj).2 with hlt | hfull
  · obtain ⟨l, -, hl, hne⟩ := h.aliased j hj hlt
    rw [heq] at hl
    exact hne (Option.some.inj hl).symm
  · rw [h.unaliased j hj hfull] at heq
    cases heq

theorem picking_eq (h : Exact weights table) (hnodup : (weights.map Prod.fst).Nodup)
    (hi : i < table.values.length) (hj : j < table.values.length) :
    pickFrom table i j ≤ pickTo table i j ∧
      picking table j table.values[i] = Set.Ico (pickFrom table i j) (pickTo table i j) := by
  have hvalues : table.values.Nodup := h.values.nodup_iff.2 hnodup
  obtain ⟨hzero, hone⟩ := h.prob j hj
  have hindex {l : Nat} : table.values[l]? = some table.values[i] ↔ l = i := by
    constructor
    · intro hl
      obtain ⟨hlt, heq⟩ := List.getElem?_eq_some_iff.1 hl
      exact (hvalues.getElem_inj_iff).1 heq
    · intro hl
      rw [hl]
      exact List.getElem?_eq_getElem hi
  have halias : ((table.aliases j).bind fun l => table.values[l]?) = some table.values[i] ↔
      table.aliases j = some i := by
    cases table.aliases j with
    | none => simp
    | some l => rw [Option.bind_some, hindex, Option.some_inj]
  have hpick (unit : ℚ) : table.pick j unit = some table.values[i] ↔
      unit < table.prob j ∧ j = i ∨ table.prob j ≤ unit ∧ table.aliases j = some i := by
    rw [AliasTable.pick]
    by_cases hlt : unit < table.prob j
    · rw [if_pos hlt, hindex, or_iff_left fun hcase => not_lt.2 hcase.1 hlt, and_iff_right hlt]
    · rw [if_neg hlt, halias, or_iff_right fun hcase => hlt hcase.1, and_iff_right (not_lt.1 hlt)]
  by_cases hsame : j = i
  · have hown : table.aliases j ≠ some i := hsame ▸ h.aliases_ne hj
    have hfrom : pickFrom table i j = 0 := if_neg fun hcase => hcase.1 hsame
    have hto : pickTo table i j = table.prob j := if_pos hsame
    rw [hfrom, hto]
    refine ⟨hzero, ?_⟩
    ext unit
    rw [picking, Set.mem_ofPred_eq, hpick, Set.mem_Ico]
    constructor
    · intro hunit
      rcases hunit.2.2 with hcase | hcase
      · exact ⟨hunit.1, hcase.1⟩
      · exact absurd hcase.2 hown
    · exact fun hunit => ⟨hunit.1, hunit.2.trans_le hone, Or.inl ⟨hunit.2, hsame⟩⟩
  · by_cases hother : table.aliases j = some i
    · have hfrom : pickFrom table i j = table.prob j := if_pos ⟨hsame, hother⟩
      have hto : pickTo table i j = 1 := by rw [pickTo, if_neg hsame, if_pos hother]
      rw [hfrom, hto]
      refine ⟨hone, ?_⟩
      ext unit
      rw [picking, Set.mem_ofPred_eq, hpick, Set.mem_Ico]
      constructor
      · intro hunit
        rcases hunit.2.2 with hcase | hcase
        · exact absurd hcase.2 hsame
        · exact ⟨hcase.1, hunit.2.1⟩
      · exact fun hunit => ⟨hzero.trans hunit.1, hunit.2, Or.inr ⟨hunit.1, hother⟩⟩
    · have hfrom : pickFrom table i j = 0 := if_neg fun hcase => hother hcase.2
      have hto : pickTo table i j = 0 := by rw [pickTo, if_neg hsame, if_neg hother]
      rw [hfrom, hto]
      refine ⟨le_refl 0, ?_⟩
      ext unit
      rw [picking, Set.mem_ofPred_eq, hpick, Set.mem_Ico]
      constructor
      · intro hunit
        rcases hunit.2.2 with hcase | hcase
        · exact absurd hcase.2 hsame
        · exact absurd hcase.2 hother
      · exact fun hunit => absurd hunit.2 (not_lt.2 hunit.1)

theorem sum_picking (h : Exact weights table) (hnodup : (weights.map Prod.fst).Nodup)
    (hpos : 0 < (weights.map Prod.snd).sum) (hi : i < table.values.length) :
    ∑ j ∈ Finset.range table.values.length,
        (pickTo table i j - pickFrom table i j) / table.values.length =
      weightOf weights table.values[i] / (weights.map Prod.snd).sum := by
  have hlength (j : Nat) : pickTo table i j - pickFrom table i j =
      (if j = i then table.prob j - (if table.aliases j = some i then 1 - table.prob j else 0)
        else 0) + if table.aliases j = some i then 1 - table.prob j else 0 := by
    rw [pickTo, pickFrom]
    by_cases hsame : j = i
    · rw [if_pos hsame, if_pos hsame, if_neg fun hcase => hcase.1 hsame]
      ring
    · by_cases hother : table.aliases j = some i
      · rw [if_neg hsame, if_pos hother, if_pos ⟨hsame, hother⟩, if_neg hsame, if_pos hother]
        ring
      · rw [if_neg hsame, if_neg hother, if_neg fun hcase => hother hcase.2, if_neg hsame,
          if_neg hother]
        ring
  have hown : table.aliases i ≠ some i := h.aliases_ne hi
  have hsum : ∑ j ∈ Finset.range table.values.length, (pickTo table i j - pickFrom table i j) =
      startProb (table.values.map (weightOf weights)) i := by
    rw [← h.mass i hi]
    simp only [hlength, Finset.sum_add_distrib, Finset.sum_ite_eq', Finset.mem_range]
    rw [if_pos hi, if_neg hown, sub_zero]
  obtain ⟨value, hvalue, hvaluePos⟩ := exists_pos_weight hnodup hpos h.values
  have hmem := List.mem_map_of_mem (f := weightOf weights) hvalue
  have hget : (table.values.map (weightOf weights)).getD i 0 = weightOf weights table.values[i] := by
    rw [List.getD_eq_getElem?_getD, List.getElem?_map, List.getElem?_eq_getElem hi]
    rfl
  have hne : (table.values.length : ℚ) ≠ 0 := by
    have hlt : 0 < table.values.length := by omega
    exact_mod_cast hlt.ne'
  rw [← Finset.sum_div, hsum, startProb_eq hmem hvaluePos, hget, List.length_map,
    sum_values hnodup h.values]
  field_simp

end Table

/-- The integers are drawn from equally many strings each, out of more than half of all strings; the
table gives every outcome its share of the weights. -/
theorem distributions_exact :
    (∀ strings, uniformInt 1 strings = .ok (some (0, strings))) ∧
    (∀ bound, 2 ≤ bound → bound < 2 ^ 64 →
      (∀ raw strings, uniformInt bound (raw :: strings) =
        if (drawFor bound).value raw < bound then
          .ok (some ((drawFor bound).value raw, strings))
        else uniformInt bound strings) ∧
      (∀ v < bound, {raw ∈ drawStrings bound | (drawFor bound).value raw = v}.ncard =
        2 ^ (drawFor bound).excess) ∧
      (drawStrings bound).ncard = 256 ^ (drawFor bound).bytes ∧
      (drawStrings bound).ncard <
        2 * {raw ∈ drawStrings bound | (drawFor bound).value raw < bound}.ncard ∧
      ∀ raw ∈ drawStrings bound, (drawFor bound).value raw < 2 ^ (drawFor bound).bits ∧
        2 ^ (drawFor bound).bits ≤ 2 ^ 64 ∧ 2 ^ (drawFor bound).bits < 2 * bound) ∧
    ∀ weights : List (String × ℚ), (weights.map Prod.fst).Nodup →
      (∀ entry ∈ weights, 0 ≤ entry.2) → 0 < (weights.map Prod.snd).sum →
      ∃ table, aliasTableNew weights = .ok table ∧
        table.values.Perm (weights.map Prod.fst) ∧
        (∀ j < table.values.length, 0 ≤ table.prob j ∧ table.prob j ≤ 1) ∧
        (∀ j < table.values.length, table.prob j < 1 →
          ∃ l < table.values.length, table.aliases j = some l) ∧
        ∀ entry ∈ weights, ∃ first last : Nat → ℚ,
          (∀ j < table.values.length, first j ≤ last j ∧
            picking table j entry.1 = Set.Ico (first j) (last j)) ∧
          ∑ j ∈ Finset.range table.values.length, (last j - first j) / table.values.length =
            entry.2 / (weights.map Prod.snd).sum := by
  refine ⟨fun strings => rfl, fun bound hbound hlimit => ?_, ?_⟩
  · obtain ⟨hcard, hhalf⟩ := accepted_more_than_half hbound
    obtain ⟨-, hbits, -⟩ := drawFor_bits hbound
    refine ⟨fun raw strings => uniformInt_cons hbound raw strings, fun v hv => ncard_value hbound hv,
      hcard, hhalf, fun raw hraw => ⟨?_, ?_, hbits⟩⟩
    · rw [value_eq hbound hraw]
      exact Nat.mod_lt _ (Nat.two_pow_pos _)
    · have hlt : 2 ^ (drawFor bound).bits < 2 ^ 65 := by omega
      exact Nat.pow_le_pow_right (by decide)
        (Nat.le_of_lt_succ ((Nat.pow_lt_pow_iff_right (by decide)).1 hlt))
  · intro weights hnodup hnonneg hpos
    obtain ⟨table, hnew, h⟩ := aliasTableNew_exact hnodup hnonneg hpos
    refine ⟨table, hnew, h.values, h.prob, ?_, ?_⟩
    · intro j hj hlt
      obtain ⟨l, hl, hal, -⟩ := h.aliased j hj hlt
      exact ⟨l, hl, hal⟩
    · intro entry hentry
      have hmem : entry.1 ∈ table.values := h.values.mem_iff.2 (List.mem_map_of_mem hentry)
      obtain ⟨i, hi, hvalue⟩ := List.getElem_of_mem hmem
      refine ⟨pickFrom table i, pickTo table i, fun j hj => ?_, ?_⟩
      · rw [← hvalue]
        exact picking_eq h hnodup hi hj
      · rw [sum_picking h hnodup hpos hi, hvalue, weightOf_eq hnodup hentry]

/-- One octet for three values; a table for two weights. -/
theorem distributions_exact_three :
    {raw ∈ drawStrings 3 | (drawFor 3).value raw = 2}.ncard = 2 ^ (drawFor 3).excess ∧
      ∃ table, aliasTableNew [("a", 1), ("b", 3)] = .ok table ∧
        table.values.Perm (["a", "b"]) := by
  obtain ⟨-, hint, htable⟩ := distributions_exact
  obtain ⟨table, hnew, hvalues, -⟩ := htable [("a", 1), ("b", 3)] (by decide)
    (by simp) (by norm_num)
  exact ⟨(hint 3 (by decide) (by decide)).2.1 2 (by decide), table, hnew, hvalues⟩

end XPerl.Rng
