import Mathlib.Algebra.BigOperators.Group.Finset.Basic
import XPerl.Framework.Kahn
import XPerl.XGraph.Components

/-! The topological sort, and the tests for a cycle that have to agree with it. -/

namespace XPerl.XGraph

open XPerl.Framework Exec Kahn Relation

def Graph.degree (graph : Graph) (id : Nat) (outgoing : Bool) : Nat :=
  (if outgoing then graph.out id else graph.inn id).entries.length

/-- The loop over the IDs: in-degrees, and the vertices without an edge into them. -/
def sortStart (graph : Graph) : State Nat where
  degree := fun id => if graph.hasVertex id then graph.degree id false else 0
  ready := graph.allIds.filter fun id => graph.hasVertex id && graph.degree id false == 0
  order := []

def sortLoop (graph : Graph) : Nat → State Nat → State Nat
  | 0, s => s
  | rounds + 1, s =>
    match s.ready with
    | [] => s
    | current :: ready =>
      sortLoop graph rounds ((graph.out current).entries.foldl
        (fun s entry => settle s (xgEntryVertex entry))
        ⟨s.degree, ready, s.order ++ [current]⟩)

def xgTopologicalSort : XgM (Option (List Nat)) := do
  xgRequireUsable
  let graph ← get
  let result := (sortLoop graph (graph.vertexCapacity + 1) (sortStart graph)).order
  return if result.length ≠ graph.liveVertices then none else some result

def xgIsAcyclic : XgM Bool := Option.isSome <$> xgTopologicalSort

variable {g : Graph}

def Graph.liveIds (g : Graph) : List Nat := g.allIds.filter g.hasVertex

theorem Intact.mem_liveIds (h : Intact g) {id : Nat} : id ∈ g.liveIds ↔ g.hasVertex id = true := by
  rw [Graph.liveIds, List.mem_filter]
  exact ⟨fun hid => hid.2, fun hid => ⟨h.mem_allIds hid, hid⟩⟩

theorem liveIds_ascending : g.liveIds.Pairwise (· < ·) :=
  (List.pairwise_lt_range' 1).sublist List.filter_sublist

theorem liveIds_nodup : g.liveIds.Nodup := liveIds_ascending.imp fun hlt => Nat.ne_of_lt hlt

theorem Intact.length_liveIds (h : Intact g) : g.liveIds.length = g.liveVertices :=
  Counted.unique ⟨g.liveIds, liveIds_nodup, fun _ => h.mem_liveIds, rfl⟩ h.table.live

theorem Intact.length_liveIds_lt (h : Intact g) : g.liveIds.length < g.vertexCapacity + 1 := by
  have hsub : g.liveIds ⊆ List.range g.vertexCapacity := fun v hv =>
    List.mem_range.2 (hasVertex_lt (h.mem_liveIds.1 hv))
  have hle := (liveIds_nodup.subperm hsub).length_le
  rw [List.length_range] at hle
  exact Nat.lt_succ_of_le hle

def labelsTo (entries : List Nat) (v : Nat) : List Nat :=
  (entries.filter (xgEntryVertex · == v)).map xgEntryLabel

variable {entries : List Nat} {v : Nat} {cs : List (List Nat)}

theorem mem_labelsTo {l : Nat} :
    l ∈ labelsTo entries v ↔ ∃ e ∈ entries, xgEntryVertex e = v ∧ xgEntryLabel e = l := by
  simp [labelsTo, and_assoc]

theorem labelsTo_nodup (h : entries.Pairwise (· < ·)) (v : Nat) :
    (labelsTo entries v).Nodup := by
  have hnodup : entries.Nodup := h.imp fun hlt => Nat.ne_of_lt hlt
  refine List.Nodup.map_on ?_ (hnodup.filter _)
  intro a ha b hb hlabel
  have hav := (List.mem_filter.1 ha).2
  have hbv := (List.mem_filter.1 hb).2
  rw [beq_iff_eq, xgEntryVertex_eq] at hav hbv
  rw [xgEntryLabel_eq, xgEntryLabel_eq] at hlabel
  omega

theorem length_labelsTo (entries : List Nat) (v : Nat) :
    (labelsTo entries v).length = (entries.map xgEntryVertex).count v := by
  rw [labelsTo, List.length_map, List.count_eq_countP, List.countP_map, List.countP_eq_length_filter]
  rfl

theorem count_mirror (h : Intact g) (u v : Nat) :
    (neighbours g false u).count v = (neighbours g true v).count u := by
  have hperm : (labelsTo (outs g u) v).Perm (labelsTo (ins g v) u) := by
    rw [List.perm_ext_iff_of_nodup (labelsTo_nodup (h.inStep.sortedOut u) v)
      (labelsTo_nodup (h.inStep.sortedIn v) u)]
    intro l
    rw [mem_labelsTo, mem_labelsTo]
    exact h.inStep.mirror u v l
  have hlength := hperm.length_eq
  rw [length_labelsTo, length_labelsTo] at hlength
  exact hlength

theorem sum_counts {vs xs : List Nat} (hnodup : vs.Nodup) (hsub : xs ⊆ vs) :
    (vs.map fun v => xs.count v).sum = xs.length := by
  rw [← List.sum_toFinset _ hnodup]
  have hcard := Multiset.sum_count_eq_card (s := vs.toFinset) (m := (xs : Multiset Nat)) fun x hx =>
    List.mem_toFinset.2 (hsub (Multiset.mem_coe.1 hx))
  simpa using hcard

theorem pending_start (h : Intact g) (v : Nat) :
    pending (neighbours g false) g.liveIds [] v = g.degree v false := by
  have hall : g.liveIds.filter (· ∉ ([] : List Nat)) = g.liveIds := by simp
  rw [pending, hall]
  simp only [count_mirror h]
  rw [sum_counts liveIds_nodup]
  · rw [neighbours, List.length_map]
    rfl
  · intro u hu
    exact h.mem_liveIds.2 (h.follows_live ((mem_neighbours h).1 hu)).2

theorem sortLoop_eq (rounds : Nat) (s : State Nat) :
    sortLoop g rounds s = sort (neighbours g false) rounds s := by
  induction rounds generalizing s with
  | zero => rfl
  | succ rounds ih =>
    rw [sortLoop, sort]
    cases s.ready with
    | nil => rfl
    | cons current ready =>
      have hlinks : neighbours g false current = (g.out current).entries.map xgEntryVertex := rfl
      simp only [ih, hlinks, List.foldl_map]

theorem inside_liveIds (h : Intact g) : Inside (neighbours g false) g.liveIds := by
  intro u v hv
  obtain ⟨hu, hv⟩ := h.follows_live ((mem_neighbours h).1 hv)
  exact ⟨h.mem_liveIds.2 hu, h.mem_liveIds.2 hv⟩

theorem sorting_start (h : Intact g) :
    Sorting (neighbours g false) g.liveIds (sortStart g) := by
  have hdegree {v : Nat} (hv : g.hasVertex v = true) :
      (sortStart g).degree v = g.degree v false := if_pos hv
  refine ⟨List.nodup_nil, fun v hv => absurd hv List.not_mem_nil, fun v hv => ?_, ?_, fun v => ?_,
    fun u _ v hv => absurd hv List.not_mem_nil⟩
  · rw [hdegree (h.mem_liveIds.1 hv)]
    exact (pending_start h v).symm
  · exact (List.pairwise_lt_range' 1).sublist List.filter_sublist
  · have hready : v ∈ (sortStart g).ready ↔
        v ∈ g.allIds ∧ g.hasVertex v = true ∧ g.degree v false = 0 := by
      simp [sortStart]
    rw [h.mem_liveIds, hready]
    constructor
    · intro hv
      obtain ⟨-, hlive, hzero⟩ := hv
      exact ⟨hlive, List.not_mem_nil, (hdegree hlive).trans hzero⟩
    · intro hv
      obtain ⟨hlive, -, hzero⟩ := hv
      exact ⟨h.mem_allIds hlive, hlive, (hdegree hlive).symm.trans hzero⟩

/-- A topological order of the live vertices, and no other comes before it. -/
def LeastOrder (g : Graph) (order : List Nat) : Prop :=
  IsOrder (neighbours g false) g.liveIds order ∧
    ∀ other, IsOrder (neighbours g false) g.liveIds other →
      order = other ∨ List.Lex (· < ·) order other

theorem xgTopologicalSort_run (h : Intact g) :
    ∃ sorted, xgTopologicalSort.run g = .ok sorted g ∧
      (sorted ≠ none ↔ Reach.Acyclic g.Adjacent) ∧
      ∀ order, sorted = some order → LeastOrder g order := by
  obtain ⟨-, hlength, horder⟩ := sort_complete (inside_liveIds h) liveIds_nodup (sorting_start h)
    h.length_liveIds_lt rfl
  have hfollows : (fun u v => v ∈ neighbours g false u) = g.Adjacent := follows_eq h false
  rw [hfollows] at hlength
  have hleast := fun other (hother : IsOrder (neighbours g false) g.liveIds other) =>
    sort_least (inside_liveIds h) liveIds_nodup (g.vertexCapacity + 1) (sorting_start h) hother
      List.nil_prefix
  rw [← sortLoop_eq, h.length_liveIds] at hlength horder
  simp only [← sortLoop_eq] at hleast horder
  apply exists_run
  rw [xgTopologicalSort, returns, wp_bind, h.requireUsable, wp_bind, wp_get, wp_pure]
  refine ⟨rfl, ?_, ?_⟩
  · rw [← hlength]
    split
    · simp_all
    · simp_all
  · intro order hsome
    split at hsome
    · cases hsome
    · cases hsome
      exact ⟨horder (by simp_all), hleast⟩

theorem acyclic_iff {r : Nat → Nat → Prop} : ¬ Reach.Acyclic r ↔ ∃ v, TransGen r v v := by
  rw [Reach.Acyclic, not_forall_not]

theorem Intact.cycle_live (h : Intact g) (hcycle : TransGen g.Adjacent v v) :
    g.hasVertex v = true := by
  obtain ⟨w, hvw, -⟩ := TransGen.head'_iff.1 hcycle
  exact (h.adjacent_live hvw).1

theorem ComponentsOf.isCyclic_iff (h : Intact g)
    (hcs : ComponentsOf g true cs) {c : List Nat} (hc : c ∈ cs) :
    isCyclic g c = true ↔ ∃ v ∈ c, TransGen g.Adjacent v v := by
  obtain ⟨hne, hascending⟩ := hcs.ascending c hc
  have hmembers := hcs.members c hc
  cases c with
  | nil => exact absurd rfl hne
  | cons v rest =>
  cases rest with
  | nil =>
    have hlive := ((hmembers v List.mem_cons_self v).1 List.mem_cons_self).1
    have hloop : isCyclic g [v] = true ↔ g.Adjacent v v := by
      rw [isCyclic, Bool.and_eq_true, bne_iff_ne, and_iff_right (hasVertex_pos hlive), adjacent_iff]
      simp [outs]
    rw [hloop]
    constructor
    · intro hedge
      exact ⟨v, List.mem_cons_self, TransGen.single hedge⟩
    · intro hcycle
      obtain ⟨w, hw, hcycle⟩ := hcycle
      rw [List.mem_singleton] at hw
      subst hw
      obtain ⟨x, hedge, hback⟩ := TransGen.head'_iff.1 hcycle
      have hx : x ∈ [w] := (hmembers w List.mem_cons_self x).2
        ⟨(h.adjacent_live hedge).2, ReflTransGen.single hedge, hback⟩
      rw [List.mem_singleton] at hx
      exact hx ▸ hedge
  | cons w rest =>
    have hvw : v ≠ w := ((List.pairwise_cons.1 hascending).1 w List.mem_cons_self).ne
    have hboth : g.Together true v w :=
      ((hmembers v List.mem_cons_self w).1 (List.mem_cons_of_mem v List.mem_cons_self)).2
    refine ⟨fun _ => ⟨v, List.mem_cons_self, ?_⟩, fun _ => rfl⟩
    rcases reflTransGen_iff_eq_or_transGen.1 hboth.1 with heq | hway
    · exact absurd heq.symm hvw
    · exact hway.trans_left hboth.2

theorem ComponentsOf.cyclic_iff (h : Intact g)
    (hcs : ComponentsOf g true cs) :
    cs.filter (isCyclic g) ≠ [] ↔ ∃ v, TransGen g.Adjacent v v := by
  rw [ne_eq, List.filter_eq_nil_iff]
  constructor
  · intro hsome
    push Not at hsome
    obtain ⟨c, hc, hcyclic⟩ := hsome
    obtain ⟨v, -, hcycle⟩ := (hcs.isCyclic_iff h hc).1 hcyclic
    exact ⟨v, hcycle⟩
  · intro hcycle hnone
    obtain ⟨v, hcycle⟩ := hcycle
    obtain ⟨c, hc, hv⟩ := hcs.cover v (h.cycle_live hcycle)
    exact hnone c hc ((hcs.isCyclic_iff h hc).2 ⟨v, hv, hcycle⟩)

/-- The sort finds the least order unless there is a cycle, and the tests for one agree. -/
theorem sort_and_cycle_tests (h : Intact g) :
    ∃ sorted acyclic cyclic, xgTopologicalSort.run g = .ok sorted g ∧
      xgIsAcyclic.run g = .ok acyclic g ∧ (xgComponents true true).run g = .ok cyclic g ∧
      (sorted = none ↔ ∃ v, TransGen g.Adjacent v v) ∧
      (∀ order, sorted = some order → LeastOrder g order) ∧
      (acyclic = false ↔ ∃ v, TransGen g.Adjacent v v) ∧
      (cyclic ≠ [] ↔ ∃ v, TransGen g.Adjacent v v) ∧
      ∀ shortest, ∃ cycle, (xgCycle shortest).run g = .ok cycle g ∧
        (cycle ≠ none ↔ ∃ v, TransGen g.Adjacent v v) := by
  obtain ⟨sorted, hsort, hacyclic, hleast⟩ := xgTopologicalSort_run h
  obtain ⟨cs, hcs, hcyclic⟩ := xgComponents_run h true true
  have hnone : sorted = none ↔ ∃ v, TransGen g.Adjacent v v := by
    rw [← acyclic_iff, ← hacyclic, not_not]
  refine ⟨sorted, sorted.isSome, _, hsort, ?_, hcyclic, hnone, hleast, ?_, hcs.cyclic_iff h, ?_⟩
  · apply run_of_returns
    rw [xgIsAcyclic, returns, wp_map]
    exact (wp_of_run hsort).2 ⟨rfl, rfl⟩
  · rw [← hnone, Option.isSome_eq_false_iff, Option.isNone_iff_eq_none]
  · intro shortest
    obtain ⟨answer, hanswer, hbest⟩ := xgCycle_spec h shortest
    refine ⟨answer, hanswer, ?_⟩
    rw [ne_eq, hbest.none_iff, acyclic_iff]

theorem sort_and_cycle_tests_twoCycle :
    ∃ sorted acyclic cyclic, xgTopologicalSort.run twoCycle = .ok sorted twoCycle ∧
      xgIsAcyclic.run twoCycle = .ok acyclic twoCycle ∧
      (xgComponents true true).run twoCycle = .ok cyclic twoCycle ∧
      (sorted = none ↔ ∃ v, TransGen twoCycle.Adjacent v v) ∧
      (∀ order, sorted = some order → LeastOrder twoCycle order) ∧
      (acyclic = false ↔ ∃ v, TransGen twoCycle.Adjacent v v) ∧
      (cyclic ≠ [] ↔ ∃ v, TransGen twoCycle.Adjacent v v) ∧
      ∀ shortest, ∃ cycle, (xgCycle shortest).run twoCycle = .ok cycle twoCycle ∧
        (cycle ≠ none ↔ ∃ v, TransGen twoCycle.Adjacent v v) :=
  sort_and_cycle_tests twoCycle_intact

end XPerl.XGraph
