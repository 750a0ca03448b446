import Mathlib.Algebra.BigOperators.Group.List.Basic
import Mathlib.Algebra.GroupWithZero.Nat
import Mathlib.Data.List.Count
import Mathlib.Data.List.Lex
import Mathlib.Order.Lattice
import Mathlib.Order.Nat
import XPerl.Framework.Reach
import XPerl.Framework.Search

/-! Topological orders, and the least one, which Kahn's algorithm finds. -/

namespace XPerl.Framework.Kahn

open Relation Reach

section Orders

variable {α : Type} {l : List α} {u v x : α}

/-- The vertices in an order in which every link leads forward. -/
structure IsOrder (links : α → List α) (vertices order : List α) : Prop where
  perm : order.Perm vertices
  forward : ∀ u v, v ∈ links u → [u, v].Sublist order

theorem idxOf_lt [DecidableEq α] (hnodup : l.Nodup) (h : [u, v].Sublist l) :
    l.idxOf u < l.idxOf v := by
  induction l with
  | nil => cases h
  | cons a l ih =>
    obtain ⟨ha, hl⟩ := List.nodup_cons.1 hnodup
    cases h with
    | cons _ h =>
      have hu : u ∈ l := h.subset List.mem_cons_self
      have hv : v ∈ l := h.subset (List.mem_cons_of_mem u List.mem_cons_self)
      rw [List.idxOf_cons_ne l (ne_of_mem_of_not_mem hu ha).symm,
        List.idxOf_cons_ne l (ne_of_mem_of_not_mem hv ha).symm]
      exact Nat.succ_lt_succ (ih hl h)
    | cons_cons _ h =>
      have hv : v ∈ l := h.subset List.mem_cons_self
      rw [List.idxOf_cons_self, List.idxOf_cons_ne l (ne_of_mem_of_not_mem hv ha).symm]
      exact Nat.succ_pos _

variable {l' : List α} {r : α → α → Prop}

theorem mem_of_before (hnodup : (l ++ v :: l').Nodup)
    (h : [u, v].Sublist (l ++ v :: l')) : u ∈ l := by
  induction l with
  | nil =>
    exfalso
    have hv : v ∉ l' := (List.nodup_cons.1 hnodup).1
    cases h with
    | cons _ h => exact hv (h.subset (List.mem_cons_of_mem u List.mem_cons_self))
    | cons_cons _ h => exact hv (h.subset List.mem_cons_self)
  | cons a l ih =>
    cases h with
    | cons _ h => exact List.mem_cons_of_mem a (ih (List.nodup_cons.1 hnodup).2 h)
    | cons_cons _ _ => exact List.mem_cons_self

theorem IsOrder.acyclic {links : α → List α} {vertices order : List α} (hnodup : vertices.Nodup)
    (h : IsOrder links vertices order) : Acyclic fun u v => v ∈ links u := by
  classical
  have hnodup' : order.Nodup := h.perm.nodup_iff.2 hnodup
  exact acyclic_of_rank (order.idxOf ·) fun u v huv => idxOf_lt hnodup' (h.forward u v huv)

theorem prefix_least (h : l <+: l') : l = l' ∨ List.Lex r l l' := by
  obtain ⟨t, rfl⟩ := h
  cases t with
  | nil => exact Or.inl (List.append_nil l).symm
  | cons a t =>
    have hlex := List.Lex.append_left r (List.Lex.nil : List.Lex r [] (a :: t)) l
    rw [List.append_nil] at hlex
    exact Or.inr hlex

theorem exists_source (h : Acyclic r) (xs : List α) (hne : xs ≠ []) :
    ∃ v ∈ xs, ∀ u ∈ xs, ¬ TransGen r u v := by
  induction xs with
  | nil => exact absurd rfl hne
  | cons a xs ih =>
    by_cases hnil : xs = []
    · subst hnil
      refine ⟨a, List.mem_cons_self, fun u hu => ?_⟩
      rw [List.mem_singleton.1 hu]
      exact h a
    · obtain ⟨v, hv, hmin⟩ := ih hnil
      by_cases hav : TransGen r a v
      · refine ⟨a, List.mem_cons_self, fun u hu hua => ?_⟩
        rcases List.mem_cons.1 hu with rfl | hu
        · exact h u hua
        · exact hmin u hu (hua.trans hav)
      · refine ⟨v, List.mem_cons_of_mem a hv, fun u hu huv => ?_⟩
        rcases List.mem_cons.1 hu with rfl | hu
        · exact hav huv
        · exact hmin u hu huv

end Orders

section Algorithm

variable {α : Type} [LinearOrder α]

/-- The links not yet taken back into each vertex, the vertices without any, and the order so far. -/
structure State (α : Type) where
  degree : α → Nat
  ready : List α
  order : List α

def settle (s : State α) (v : α) : State α :=
  let degree := Function.update s.degree v (s.degree v - 1)
  if degree v = 0 then
    { s with
      degree := degree
      ready := (insertBack (fun y x => decide (y > x)) v s.ready.reverse).reverse }
  else { s with degree := degree }

def sort (links : α → List α) : Nat → State α → State α
  | 0, s => s
  | rounds + 1, s =>
    match s.ready with
    | [] => s
    | x :: ready =>
      sort links rounds ((links x).foldl settle ⟨s.degree, ready, s.order ++ [x]⟩)

variable {links : α → List α} {vertices : List α} {s : State α} {v x : α}

def pending (links : α → List α) (vertices order : List α) (v : α) : Nat :=
  ((vertices.filter (· ∉ order)).map fun u => (links u).count v).sum

variable {order : List α} {rounds : Nat}

theorem pending_concat (hnodup : vertices.Nodup) (hx : x ∈ vertices)
    (hnew : x ∉ order) :
    pending links vertices order v = pending links vertices (order ++ [x]) v + (links x).count v := by
  have hmem : x ∈ vertices.filter (· ∉ order) := by
    rw [List.mem_filter]
    exact ⟨hx, by simpa using hnew⟩
  have hperm : (vertices.filter (· ∉ order)).Perm (x :: vertices.filter (· ∉ order ++ [x])) := by
    rw [List.perm_ext_iff_of_nodup (hnodup.filter _)]
    · intro a
      simp only [List.mem_filter, List.mem_cons, List.mem_append, List.not_mem_nil, or_false,
        decide_eq_true_eq, not_or]
      constructor
      · intro ha
        by_cases hax : a = x
        · exact Or.inl hax
        · exact Or.inr ⟨ha.1, ha.2, hax⟩
      · intro ha
        rcases ha with rfl | ha
        · exact ⟨hx, hnew⟩
        · exact ⟨ha.1, ha.2.1⟩
    · refine List.nodup_cons.2 ⟨?_, hnodup.filter _⟩
      simp
  rw [pending, pending, (hperm.map _).sum_nat, List.map_cons, List.sum_cons, Nat.add_comm]

theorem pending_eq_zero (h : pending links vertices order v = 0) {u : α}
    (hu : u ∈ vertices) (hlink : v ∈ links u) : u ∈ order := by
  apply Classical.byContradiction
  intro hnew
  have hmem : u ∈ vertices.filter (· ∉ order) := by
    rw [List.mem_filter]
    exact ⟨hu, by simpa using hnew⟩
  have hzero := List.sum_eq_zero_iff_forall_eq_nat.1 h _ (List.mem_map_of_mem hmem)
  exact absurd hlink (List.count_eq_zero.1 hzero)

theorem exists_pending (h : pending links vertices order v ≠ 0) :
    ∃ u ∈ vertices, u ∉ order ∧ v ∈ links u := by
  apply Classical.byContradiction
  intro hno
  apply h
  apply List.sum_eq_zero_iff_forall_eq_nat.2
  intro n hn
  obtain ⟨u, hu, rfl⟩ := List.mem_map.1 hn
  rw [List.mem_filter, decide_eq_true_eq] at hu
  exact List.count_eq_zero.2 fun hlink => hno ⟨u, hu.1, hu.2, hlink⟩

theorem settle_ready (h : s.ready.Pairwise (· < ·)) (hv : v ∉ s.ready) :
    ((insertBack (fun y x => decide (y > x)) v s.ready.reverse).reverse).Pairwise (· < ·) ∧
      ∀ w, w ∈ (insertBack (fun y x => decide (y > x)) v s.ready.reverse).reverse ↔
        w = v ∨ w ∈ s.ready := by
  constructor
  · rw [List.pairwise_reverse]
    apply insertBack_pairwise (R := (· < ·)) (fun _ _ _ hab hbc => lt_trans hab hbc)
    · rw [List.pairwise_reverse]
      exact h
    · intro y hy hstay
      have hne : y ≠ v := ne_of_mem_of_not_mem (List.mem_reverse.1 hy) hv
      exact lt_of_le_of_ne (not_lt.1 (by simpa using hstay)) hne
    · intro y _ hmove
      simpa using hmove
  · intro w
    rw [List.mem_reverse, (insertBack_perm v s.ready.reverse).mem_iff, List.mem_cons,
      List.mem_reverse]

theorem settleAll_spec (ys : List α) (hdegree : ∀ v, ys.count v ≤ s.degree v)
    (hsorted : s.ready.Pairwise (· < ·)) (hready : ∀ v ∈ s.ready, s.degree v = 0) :
    (ys.foldl settle s).order = s.order ∧
      (∀ v, (ys.foldl settle s).degree v = s.degree v - ys.count v) ∧
      (ys.foldl settle s).ready.Pairwise (· < ·) ∧
      ∀ v, v ∈ (ys.foldl settle s).ready ↔
        v ∈ s.ready ∨ (v ∈ ys ∧ s.degree v = ys.count v) := by
  induction ys generalizing s with
  | nil => exact ⟨rfl, fun _ => rfl, hsorted, fun v => by simp⟩
  | cons y ys ih =>
    have hy : ys.count y + 1 ≤ s.degree y := by
      have hle := hdegree y
      rwa [List.count_cons_self] at hle
    have hynot : y ∉ s.ready := by
      intro hmem
      have hzero := hready y hmem
      omega
    have hcount (v : α) : (y :: ys).count v = ys.count v + if v = y then 1 else 0 := by
      by_cases hvy : v = y
      · rw [hvy, List.count_cons_self, if_pos rfl]
      · rw [List.count_cons_of_ne (fun heq => hvy heq.symm), if_neg hvy]
        rfl
    have hstep : (settle s y).order = s.order ∧
        (settle s y).degree = Function.update s.degree y (s.degree y - 1) ∧
        (settle s y).ready.Pairwise (· < ·) ∧
        ∀ v, v ∈ (settle s y).ready ↔ (v = y ∧ s.degree y = 1) ∨ v ∈ s.ready := by
      rw [settle]
      simp only [Function.update_self]
      by_cases hone : s.degree y - 1 = 0
      · rw [if_pos hone]
        obtain ⟨hpair, hmem⟩ := settle_ready hsorted hynot
        refine ⟨rfl, rfl, hpair, fun v => (hmem v).trans (or_congr ?_ Iff.rfl)⟩
        exact ⟨fun hv => ⟨hv, by omega⟩, fun hv => hv.1⟩
      · rw [if_neg hone]
        refine ⟨rfl, rfl, hsorted, fun v => ⟨Or.inr, fun hv => ?_⟩⟩
        rcases hv with hv | hv
        · omega
        · exact hv
    obtain ⟨horder, hdeg, hpair, hmem⟩ := hstep
    have hdegree' (v : α) : (settle s y).degree v = s.degree v - if v = y then 1 else 0 := by
      rw [hdeg]
      by_cases hvy : v = y
      · rw [hvy, Function.update_self, if_pos rfl]
      · rw [Function.update_of_ne hvy, if_neg hvy]
        rfl
    rw [List.foldl_cons]
    obtain ⟨horder', hdeg', hpair', hmem'⟩ := ih (s := settle s y)
      (fun v => by
        have hle := hdegree v
        rw [hcount] at hle
        rw [hdegree']
        omega) hpair
      (fun v hv => by
        rw [hdegree']
        rcases (hmem v).1 hv with ⟨rfl, hone⟩ | hv
        · rw [if_pos rfl]
          omega
        · have hzero := hready v hv
          omega)
    refine ⟨horder'.trans horder, fun v => ?_, hpair', fun v => ?_⟩
    · rw [hdeg', hdegree', hcount]
      omega
    · rw [hmem', hmem, hdegree', hcount, List.mem_cons]
      by_cases hvy : v = y
      · subst hvy
        rw [if_pos rfl]
        have hpos : v ∈ ys ↔ 0 < ys.count v := List.count_pos_iff.symm
        rw [hpos]
        constructor
        · intro h
          rcases h with (⟨-, hone⟩ | hready) | ⟨-, heq⟩
          · exact Or.inr ⟨Or.inl rfl, by omega⟩
          · exact Or.inl hready
          · exact Or.inr ⟨Or.inl rfl, by omega⟩
        · intro h
          rcases h with hready | ⟨-, heq⟩
          · exact Or.inl (Or.inr hready)
          · by_cases hone : s.degree v = 1
            · exact Or.inl (Or.inl ⟨rfl, hone⟩)
            · exact Or.inr ⟨by omega, by omega⟩
      · rw [if_neg hvy]
        simp [hvy]

/-- What holds before each round. -/
structure Sorting (links : α → List α) (vertices : List α) (s : State α) : Prop where
  nodup : s.order.Nodup
  inside : ∀ v ∈ s.order, v ∈ vertices
  degree : ∀ v ∈ vertices, s.degree v = pending links vertices s.order v
  sorted : s.ready.Pairwise (· < ·)
  mem_ready : ∀ v, v ∈ s.ready ↔ v ∈ vertices ∧ v ∉ s.order ∧ s.degree v = 0
  before : ∀ u ∈ vertices, ∀ v ∈ s.order, v ∈ links u → [u, v].Sublist s.order

/-- The links stay within the vertices. -/
def Inside (links : α → List α) (vertices : List α) : Prop :=
  ∀ u v, v ∈ links u → u ∈ vertices ∧ v ∈ vertices

def place (links : α → List α) (s : State α) (x : α) (ready : List α) : State α :=
  (links x).foldl settle ⟨s.degree, ready, s.order ++ [x]⟩

variable {ready : List α}

theorem sort_cons (h : s.ready = x :: ready) :
    sort links (rounds + 1) s = sort links rounds (place links s x ready) := by
  rw [sort, h]
  rfl

theorem sort_nil (h : s.ready = []) : sort links rounds s = s := by
  cases rounds with
  | zero => rfl
  | succ rounds => rw [sort, h]

theorem place_spec (hinside : Inside links vertices) (hnodup : vertices.Nodup)
    (h : Sorting links vertices s) (hx : s.ready = x :: ready) :
    Sorting links vertices (place links s x ready) ∧
      (place links s x ready).order = s.order ++ [x] := by
  obtain ⟨hxv, hxnew, hxzero⟩ := (h.mem_ready x).1 (hx ▸ List.mem_cons_self)
  obtain ⟨hxlt, hsorted⟩ := List.pairwise_cons.1 (hx ▸ h.sorted)
  have hrest (v : α) (hv : v ∈ ready) : v ∈ vertices ∧ v ∉ s.order ∧ s.degree v = 0 :=
    (h.mem_ready v).1 (hx ▸ List.mem_cons_of_mem x hv)
  have hdegree (v : α) (hv : v ∈ vertices) :
      s.degree v = pending links vertices (s.order ++ [x]) v + (links x).count v :=
    (h.degree v hv).trans (pending_concat hnodup hxv hxnew)
  have hcount (v : α) : (links x).count v ≤ s.degree v := by
    by_cases hv : v ∈ links x
    · rw [hdegree v (hinside x v hv).2]
      exact Nat.le_add_left _ _
    · rw [List.count_eq_zero.2 hv]
      exact Nat.zero_le _
  obtain ⟨horder, hdeg, hpair, hmem⟩ := settleAll_spec (s := ⟨s.degree, ready, s.order ++ [x]⟩)
    (links x) hcount hsorted fun v hv => (hrest v hv).2.2
  have hfresh (v : α) : v ∉ s.order ++ [x] ↔ v ∉ s.order ∧ v ≠ x := by
    rw [List.mem_append, List.mem_singleton, not_or]
  refine ⟨⟨?_, ?_, ?_, hpair, ?_, ?_⟩, horder⟩
  · rw [place, horder]
    refine List.nodup_append.2 ⟨h.nodup, List.nodup_singleton x, fun a ha b hb => ?_⟩
    rw [List.mem_singleton.1 hb]
    exact ne_of_mem_of_not_mem ha hxnew
  · intro v hv
    rw [place, horder] at hv
    rcases List.mem_append.1 hv with hv | hv
    · exact h.inside v hv
    · rw [List.mem_singleton.1 hv]
      exact hxv
  · intro v hv
    rw [place, hdeg, horder, hdegree v hv, Nat.add_sub_cancel]
  · intro v
    rw [place, hmem, hdeg, horder, hfresh]
    constructor
    · intro hv
      rcases hv with hv | ⟨hv, heq⟩
      · obtain ⟨hmemv, hnew, hzero⟩ := hrest v hv
        exact ⟨hmemv, ⟨hnew, (hxlt v hv).ne'⟩, by simp [hzero]⟩
      · refine ⟨(hinside x v hv).2, ⟨fun hold => ?_, fun heqx => ?_⟩, ?_⟩
        · exact hxnew ((h.before x hxv v hold hv).subset List.mem_cons_self)
        · subst heqx
          exact absurd hv (List.count_eq_zero.1 (heq.symm.trans hxzero))
        · exact Nat.sub_eq_zero_of_le (Nat.le_of_eq heq)
    · intro ⟨hmemv, ⟨hnew, hne⟩, hzero⟩
      by_cases hv : v ∈ links x
      · exact Or.inr ⟨hv, Nat.le_antisymm (Nat.sub_eq_zero_iff_le.1 hzero) (hcount v)⟩
      · rw [List.count_eq_zero.2 hv, Nat.sub_zero] at hzero
        have hready := (h.mem_ready v).2 ⟨hmemv, hnew, hzero⟩
        rw [hx] at hready
        exact Or.inl ((List.mem_cons.1 hready).resolve_left hne)
  · intro u hu v hv hlink
    rw [place, horder] at hv ⊢
    rcases List.mem_append.1 hv with hv | hv
    · exact (h.before u hu v hv hlink).trans (List.sublist_append_left _ _)
    · rw [List.mem_singleton] at hv
      subst hv
      have hplaced := pending_eq_zero ((h.degree v hxv).symm.trans hxzero) hu hlink
      exact (List.singleton_sublist.2 hplaced).append (List.Sublist.refl [v])

theorem sort_spec (hinside : Inside links vertices) (hnodup : vertices.Nodup) (rounds : Nat)
    (h : Sorting links vertices s) :
    Sorting links vertices (sort links rounds s) ∧ s.order <+: (sort links rounds s).order ∧
      ((sort links rounds s).ready = [] ∨
        (sort links rounds s).order.length = s.order.length + rounds) := by
  induction rounds generalizing s with
  | zero => exact ⟨h, List.prefix_refl _, Or.inr rfl⟩
  | succ rounds ih =>
    cases hready : s.ready with
    | nil =>
      rw [sort_nil hready]
      exact ⟨h, List.prefix_refl _, Or.inl hready⟩
    | cons x ready =>
      obtain ⟨hnext, horder⟩ := place_spec hinside hnodup h hready
      obtain ⟨hend, hhead, hlength⟩ := ih hnext
      rw [sort_cons hready]
      rw [horder] at hhead hlength
      refine ⟨hend, (List.prefix_append _ _).trans hhead, hlength.imp_right fun heq => ?_⟩
      rw [heq, List.length_append, List.length_singleton]
      omega

theorem sort_least (hinside : Inside links vertices) (hnodup : vertices.Nodup) (rounds : Nat)
    (h : Sorting links vertices s) {q : List α} (hq : IsOrder links vertices q)
    (hhead : s.order <+: q) :
    (sort links rounds s).order = q ∨ List.Lex (· < ·) (sort links rounds s).order q := by
  induction rounds generalizing s with
  | zero => exact prefix_least hhead
  | succ rounds ih =>
    cases hready : s.ready with
    | nil =>
      rw [sort_nil hready]
      exact prefix_least hhead
    | cons x ready =>
      obtain ⟨hnext, horder⟩ := place_spec hinside hnodup h hready
      obtain ⟨q', rfl⟩ := hhead
      have hqnodup : (s.order ++ q').Nodup := hq.perm.nodup_iff.2 hnodup
      rw [sort_cons hready]
      cases q' with
      | nil =>
        obtain ⟨hxv, hxnew, -⟩ := (h.mem_ready x).1 (hready ▸ List.mem_cons_self)
        have hxq := hq.perm.mem_iff.2 hxv
        rw [List.append_nil] at hxq
        exact absurd hxq hxnew
      | cons y q' =>
        -- The first vertex of the rest has all its predecessors in the order, so it is ready too.
        have hyv : y ∈ vertices := hq.perm.mem_iff.1 (by simp)
        have hynew : y ∉ s.order := fun hold =>
          (List.nodup_append.1 hqnodup).2.2 y hold y List.mem_cons_self rfl
        have hyzero : s.degree y = 0 := by
          rw [h.degree y hyv]
          apply Classical.byContradiction
          intro hne
          obtain ⟨u, -, hunew, hlink⟩ := exists_pending hne
          exact hunew (mem_of_before hqnodup (hq.forward u y hlink))
        have hyready := (h.mem_ready y).2 ⟨hyv, hynew, hyzero⟩
        rw [hready] at hyready
        rcases List.mem_cons.1 hyready with heq | hy
        · subst heq
          refine ih hnext ?_
          rw [horder]
          exact ⟨q', by simp⟩
        · have hlt := (List.pairwise_cons.1 (hready ▸ h.sorted)).1 y hy
          obtain ⟨-, ⟨t, ht⟩, -⟩ := sort_spec hinside hnodup rounds hnext
          rw [← ht, horder, List.append_assoc]
          exact Or.inr (List.Lex.append_left _ (List.Lex.rel hlt) s.order)

theorem sort_complete (hinside : Inside links vertices) (hnodup : vertices.Nodup)
    (h : Sorting links vertices s) (hrounds : vertices.length < rounds)
    (hstart : s.order = []) :
    (sort links rounds s).ready = [] ∧
      ((sort links rounds s).order.length = vertices.length ↔
        Acyclic fun u v => v ∈ links u) ∧
      ((sort links rounds s).order.length = vertices.length →
        IsOrder links vertices (sort links rounds s).order) := by
  obtain ⟨hend, -, hlength⟩ := sort_spec hinside hnodup rounds h
  generalize sort links rounds s = s' at hend hlength
  have hsub : s'.order.Subperm vertices := hend.nodup.subperm fun v hv => hend.inside v hv
  have hready : s'.ready = [] := by
    rcases hlength with hready | hlength
    · exact hready
    · rw [hstart, List.length_nil, Nat.zero_add] at hlength
      have hle := hsub.length_le
      omega
  have hfull (heq : s'.order.length = vertices.length) : IsOrder links vertices s'.order := by
    have hperm := hsub.perm_of_length_le (Nat.le_of_eq heq.symm)
    refine ⟨hperm, fun u v hlink => ?_⟩
    obtain ⟨hu, hv⟩ := hinside u v hlink
    exact hend.before u hu v (hperm.mem_iff.2 hv) hlink
  refine ⟨hready, ⟨fun heq => (hfull heq).acyclic hnodup, fun hacyclic => ?_⟩, hfull⟩
  apply Classical.byContradiction
  intro hne
  have hleft : vertices.filter (· ∉ s'.order) ≠ [] := by
    intro hnil
    apply hne
    refine Nat.le_antisymm hsub.length_le (hnodup.subperm fun v hv => ?_).length_le
    have hfalse := List.filter_eq_nil_iff.1 hnil v hv
    simpa using hfalse
  obtain ⟨v, hv, hmin⟩ := exists_source hacyclic _ hleft
  rw [List.mem_filter, decide_eq_true_eq] at hv
  have hpending : s'.degree v ≠ 0 := by
    intro hzero
    have hready' := (hend.mem_ready v).2 ⟨hv.1, hv.2, hzero⟩
    rw [hready] at hready'
    cases hready'
  rw [hend.degree v hv.1] at hpending
  obtain ⟨u, hu, hunew, hlink⟩ := exists_pending hpending
  refine hmin u ?_ (TransGen.single hlink)
  rw [List.mem_filter, decide_eq_true_eq]
  exact ⟨hu, hunew⟩

end Algorithm

end XPerl.Framework.Kahn
