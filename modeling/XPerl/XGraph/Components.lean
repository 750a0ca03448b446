import Mathlib.Data.List.Sort
import XPerl.Framework.Flooding
import XPerl.XGraph.Traversal

/-! Connected components: Kosaraju's two passes, or one flood over both directions. -/

namespace XPerl.XGraph

open XPerl.Framework Exec DepthFirst Flooding Relation

/-- `xg_finish_from`: the search from one vertex, with marks and the finishing order. -/
def xgFinishFrom (graph : Graph) (start : Nat) (seen finish : List Nat) : Machine Nat :=
  dfsLoop graph false true (dfsRounds graph false) ⟨[start], fun _ => 0, start :: seen, finish⟩

def finishAll (graph : Graph) : List Nat → List Nat → List Nat → List Nat
  | [], _, finish => finish
  | id :: ids, seen, finish =>
    if graph.hasVertex id = true ∧ id ∉ seen then
      let s := xgFinishFrom graph id seen finish
      finishAll graph ids s.seen s.order
    else finishAll graph ids seen finish

/-- The lists `xg_mark_component` walks: the incoming one, and for weak components the outgoing one
behind it. -/
def componentLinks (graph : Graph) (strong : Bool) (id : Nat) : List Nat :=
  let entries :=
    if strong then (graph.inn id).entries else (graph.inn id).entries ++ (graph.out id).entries
  entries.map xgEntryVertex

def markedComponents (graph : Graph) (strong : Bool) : List (List Nat) :=
  let order :=
    if strong then (finishAll graph graph.allIds [] []).reverse
    else graph.allIds.filter graph.hasVertex
  sweep (componentLinks graph strong) (graph.vertexCapacity + 1) graph.allIds order 0 fun _ => 0

def firstMember (component : List Nat) : Nat := component.head?.getD 0

def isCyclic (graph : Graph) : List Nat → Bool
  | [] => false
  | [vertex] => vertex != 0 && (graph.out vertex).entries.any (xgEntryVertex · == vertex)
  | _ => true

/-- `xg_components`; `qsort` orders the components by their first members. -/
def xgComponents (strong cyclicOnly : Bool) : XgM (List (List Nat)) := do
  xgRequireUsable
  let graph ← get
  let components :=
    (markedComponents graph strong).mergeSort fun a b => firstMember a ≤ firstMember b
  return if cyclicOnly then components.filter (isCyclic graph) else components

variable {g : Graph}

/-- Vertices of one component: they reach each other, in a weak component along edges either way. -/
def Graph.Together (g : Graph) (strong : Bool) (u v : Nat) : Prop :=
  if strong then ReflTransGen g.Adjacent u v ∧ ReflTransGen g.Adjacent v u
  else ReflTransGen (fun a b => g.Adjacent a b ∨ g.Adjacent b a) u v

variable {strong : Bool} {u v : Nat} {cs : List (List Nat)}

theorem Together.symm (h : g.Together strong u v) :
    g.Together strong v u := by
  cases strong with
  | true => exact ⟨h.2, h.1⟩
  | false =>
    have hsymm : ∀ a b, ReflTransGen (fun a b => g.Adjacent a b ∨ g.Adjacent b a) a b →
        ReflTransGen (fun a b => g.Adjacent a b ∨ g.Adjacent b a) b a := by
      intro a b hway
      induction hway with
      | refl => exact ReflTransGen.refl
      | tail _ hstep ih => exact ih.head hstep.symm
    exact hsymm u v h

theorem Together.trans {w : Nat} (h : g.Together strong u v)
    (h' : g.Together strong v w) : g.Together strong u w := by
  cases strong with
  | true => exact ⟨h.1.trans h'.1, h'.2.trans h.2⟩
  | false => exact ReflTransGen.trans h h'

theorem Together.refl (strong : Bool) (u : Nat) : g.Together strong u u := by
  cases strong with
  | true => exact ⟨ReflTransGen.refl, ReflTransGen.refl⟩
  | false => exact ReflTransGen.refl

theorem finishAll_eq (ids : List Nat) {seen seen' : List Nat} {f : Forest Nat}
    (h : Dfs (neighbours g false) (ids.filter g.hasVertex) seen f seen')
    (hinside : f.preorder ⊆ List.range g.vertexCapacity) (finish : List Nat) :
    finishAll g ids seen finish = finish ++ f.postorder := by
  induction ids generalizing seen f finish with
  | nil =>
    cases h with
    | nil => simp [finishAll, Forest.postorder]
  | cons id ids ih =>
    rw [finishAll]
    by_cases hlive : g.hasVertex id = true
    · rw [List.filter_cons_of_pos hlive] at h
      cases h with
      | skip hseen hrest =>
        rw [if_neg (fun hnew => hnew.2 hseen)]
        exact ih hrest hinside finish
      | @visit _ _ _ seen₁ _ f g' hnew hchildren hrest =>
        rw [if_pos ⟨hlive, hnew⟩, xgFinishFrom, dfsLoop_eq]
        have hall : Dfs (neighbours g false) (id :: ids.filter g.hasVertex) seen
            (Forest.cons id f g') seen' := Dfs.visit hnew hchildren hrest
        have htree : (Forest.cons id f .nil).preorder ⊆ List.range g.vertexCapacity := by
          intro y hy
          apply hinside
          simp only [Forest.preorder, List.mem_cons, List.mem_append, List.not_mem_nil] at hy ⊢
          tauto
        have hone : (Forest.cons id f .nil).preorder.Nodup :=
          (Dfs.visit hnew hchildren Dfs.nil : Dfs (neighbours g false) [id] seen _ _).nodup
        have hcost : cost (neighbours g false) (Forest.cons id f .nil).preorder ≤
            dfsRounds g false := by
          rw [dfsRounds_eq]
          exact cost_le hone htree
        obtain ⟨positions, hrun⟩ := hchildren.machine_root true finish hcost
        have hrun' : Machine.run (neighbours g false) true (dfsRounds g false)
            ⟨[id], fun _ => 0, id :: seen, finish⟩ =
              ⟨[], positions, seen₁, finish ++ (Forest.cons id f .nil).postorder⟩ := hrun
        rw [hrun']
        have hrest' : g'.preorder ⊆ List.range g.vertexCapacity := by
          intro y hy
          apply hinside
          simp only [Forest.preorder, List.mem_cons, List.mem_append]
          tauto
        rw [ih hrest hrest']
        simp [Forest.postorder]
    · rw [List.filter_cons_of_neg hlive] at h
      rw [if_neg (fun hnew => hlive hnew.1)]
      exact ih h hinside finish

theorem finishAll_spec (h : Intact g) :
    (finishAll g g.allIds [] []).Nodup ∧
      (∀ v, v ∈ finishAll g g.allIds [] [] ↔ g.hasVertex v = true) ∧
      NoCross (neighbours g false) (finishAll g g.allIds [] []) := by
  have hids : g.allIds.filter g.hasVertex ⊆ List.range g.vertexCapacity := by
    intro v hv
    exact List.mem_range.2 (hasVertex_lt (List.mem_filter.1 hv).2)
  obtain ⟨f, seen, hdfs, -, hinside, -⟩ := exists_dfs (neighbours_closed h false)
    g.vertexCapacity (g.allIds.filter g.hasVertex) [] (by simp) List.nodup_nil
    (List.nil_subset _) hids
  have heq := finishAll_eq g.allIds hdfs (fun y hy => hinside (hdfs.mem_iff.2 (Or.inr hy))) []
  rw [List.nil_append] at heq
  rw [heq]
  refine ⟨f.postorder_perm.nodup_iff.2 hdfs.nodup, fun v => ?_, hdfs.noCross⟩
  rw [Forest.mem_postorder]
  constructor
  · intro hv
    obtain ⟨x, hx, hway⟩ := hdfs.reached hv
    rw [follows_eq h] at hway
    exact h.reached_live (List.mem_filter.1 hx).2 hway
  · intro hv
    exact hdfs.mem_preorder_iff.2
      ⟨v, List.mem_filter.2 ⟨h.mem_allIds hv, hv⟩, ReflTransGen.refl⟩

theorem mem_componentLinks (h : Intact g) (strong : Bool) :
    v ∈ componentLinks g strong u ↔
      g.Adjacent v u ∨ (strong = false ∧ g.Adjacent u v) := by
  have hin : v ∈ (g.inn u).entries.map xgEntryVertex ↔ g.Adjacent v u :=
    (mem_neighbours h : v ∈ neighbours g true u ↔ g.Follows true u v)
  have hout : v ∈ (g.out u).entries.map xgEntryVertex ↔ g.Adjacent u v :=
    (mem_neighbours h : v ∈ neighbours g false u ↔ g.Follows false u v)
  cases strong with
  | true => simp [componentLinks, hin]
  | false => simp only [componentLinks, Bool.false_eq_true, if_false, List.map_append,
      List.mem_append, hin, hout, true_and]

theorem componentLinks_closed (h : Intact g) (strong : Bool) :
    ∀ u ∈ List.range g.vertexCapacity,
      componentLinks g strong u ⊆ List.range g.vertexCapacity := by
  intro u _ v hv
  apply List.mem_range.2
  rcases (mem_componentLinks h strong).1 hv with hedge | ⟨-, hedge⟩
  · exact hasVertex_lt (h.adjacent_live hedge).1
  · exact hasVertex_lt (h.adjacent_live hedge).2

theorem sweepable_strong (h : Intact g) :
    Sweepable (componentLinks g true) (g.Together true) (finishAll g g.allIds [] []).reverse := by
  obtain ⟨hnodup, hlive, hcross⟩ := finishAll_spec h
  have hlinks {u v : Nat} : v ∈ componentLinks g true u ↔ g.Adjacent v u := by
    simp [mem_componentLinks h]
  refine ⟨fun x _ => Together.refl true x, fun _ _ => Together.symm, fun _ _ _ => Together.trans,
    ?_, ?_⟩
  · intro done x todo hsplit hnone y hway
    have hfinish : finishAll g g.allIds [] [] = (todo.reverse ++ [x]) ++ done.reverse := by
      rw [← List.reverse_reverse (finishAll g g.allIds [] []), hsplit]
      simp
    rw [hfinish] at hnodup hlive hcross
    have hstay : ∀ v, g.hasVertex v = true → (∀ d ∈ done, ¬ g.Together true d v) →
        v ∈ todo.reverse ++ [x] := by
      intro v hv hno
      rcases List.mem_append.1 ((hlive v).2 hv) with hmem | hdone
      · exact hmem
      · exact absurd (Together.refl true v) (hno v (List.mem_reverse.1 hdone))
    -- the flood ran back along a way that never left what finished before `x`
    have hback : y ∈ todo.reverse ++ [x] ∧
        ReflTransGen (fun a b => b ∈ neighbours g false a ∧ a ∈ todo.reverse ++ [x] ∧
          b ∈ todo.reverse ++ [x]) y x := by
      induction hway with
      | refl => exact ⟨List.mem_append_right _ (List.mem_singleton_self x), ReflTransGen.refl⟩
      | tail _ hstep ih =>
        have hedge := hlinks.1 hstep.1
        have hmem := hstay _ (h.adjacent_live hedge).1 hstep.2
        exact ⟨hmem, ih.2.head ⟨(mem_neighbours h).2 hedge, hmem, ih.1⟩⟩
    have hforth := hcross.left.back (List.nodup_append.1 hnodup).1 hback.2 hback.1
    have hto : ReflTransGen (fun a b => b ∈ neighbours g false a) y x :=
      ReflTransGen.mono (fun _ _ hab => hab.1) y x hback.2
    rw [follows_eq h] at hforth hto
    exact ⟨hforth, hto⟩
  · intro x _ y hxy
    obtain ⟨hforth, hto⟩ := hxy
    induction hto using ReflTransGen.head_induction_on with
    | refl => exact ReflTransGen.refl
    | head hstep hrest ih =>
      exact (ih (hforth.tail hstep)).tail ⟨hlinks.2 hstep, hforth, hrest.head hstep⟩

theorem sweepable_weak (h : Intact g) :
    Sweepable (componentLinks g false) (g.Together false) (g.allIds.filter g.hasVertex) := by
  have hlinks {u v : Nat} : v ∈ componentLinks g false u ↔ g.Adjacent u v ∨ g.Adjacent v u := by
    rw [mem_componentLinks h]
    simp [or_comm]
  refine ⟨fun x _ => Together.refl false x, fun _ _ => Together.symm, fun _ _ _ => Together.trans,
    ?_, ?_⟩
  · intro done x todo _ _ y hway
    exact ReflTransGen.mono (fun _ _ hab => hlinks.1 hab.1) x y hway
  · intro x _ y hxy
    change ReflTransGen (fun a b => g.Adjacent a b ∨ g.Adjacent b a) x y at hxy
    induction hxy with
    | refl => exact ReflTransGen.refl
    | tail hway hstep ih => exact ih.tail ⟨hlinks.2 hstep, hway.tail hstep⟩

/-- Lists of live vertices that are the components, ascending and in the order of their least
members. -/
structure ComponentsOf (g : Graph) (strong : Bool) (cs : List (List Nat)) : Prop where
  sorted : cs.Pairwise fun c d => firstMember c < firstMember d
  ascending : ∀ c ∈ cs, c ≠ [] ∧ c.Pairwise (· < ·)
  members : ∀ c ∈ cs, ∀ u ∈ c, ∀ v, v ∈ c ↔ g.hasVertex v = true ∧ g.Together strong u v
  cover : ∀ v, g.hasVertex v = true → ∃ c ∈ cs, v ∈ c

theorem Together.live (h : Intact g) (hu : g.hasVertex u = true)
    (huv : g.Together strong u v) : g.hasVertex v = true := by
  cases strong with
  | true =>
    have hway : ReflTransGen (g.Follows false) u v := huv.1
    exact h.reached_live hu hway
  | false =>
    change ReflTransGen (fun a b => g.Adjacent a b ∨ g.Adjacent b a) u v at huv
    induction huv with
    | refl => exact hu
    | tail _ hstep _ =>
      rcases hstep with hedge | hedge
      · exact (h.adjacent_live hedge).2
      · exact (h.adjacent_live hedge).1

theorem ComponentsOf.apart (h : ComponentsOf g strong cs)
    {c d : List Nat} (hc : c ∈ cs) (hd : d ∈ cs) (hvc : v ∈ c) (hvd : v ∈ d) : c = d := by
  have hsame : ∀ w, w ∈ c ↔ w ∈ d := fun w => by
    rw [h.members c hc v hvc, h.members d hd v hvd]
  exact (h.ascending c hc).2.eq_of_mem_iff (h.ascending d hd).2 hsame

theorem ComponentsOf.nodup
    (hcs : ComponentsOf g strong cs) : cs.Nodup :=
  hcs.sorted.imp fun hlt heq => by
    rw [heq] at hlt
    exact Nat.lt_irrefl _ hlt

theorem ComponentsOf.length_le_one
    (hcs : ComponentsOf g strong cs)
    (htogether : ∀ u v, g.hasVertex u = true → g.hasVertex v = true → g.Together strong u v) :
    cs.length ≤ 1 := by
  have hsame : ∀ c ∈ cs, ∀ d ∈ cs, c = d := by
    intro c hc d hd
    obtain ⟨u, hu⟩ := List.exists_mem_of_ne_nil c (hcs.ascending c hc).1
    obtain ⟨v, hv⟩ := List.exists_mem_of_ne_nil d (hcs.ascending d hd).1
    have hulive := ((hcs.members c hc u hu u).1 hu).1
    have hvlive := ((hcs.members d hd v hv v).1 hv).1
    exact hcs.apart hc hd ((hcs.members c hc u hu v).2 ⟨hvlive, htogether u v hulive hvlive⟩) hv
  have hnodup := hcs.nodup
  cases cs with
  | nil => exact Nat.zero_le 1
  | cons c cs =>
    cases cs with
    | nil => exact Nat.le_refl 1
    | cons d cs =>
      have hcd := hsame c List.mem_cons_self d (List.mem_cons_of_mem c List.mem_cons_self)
      exact absurd (hcd ▸ List.mem_cons_self) (List.nodup_cons.1 hnodup).1

theorem markedComponents_spec (h : Intact g) (strong : Bool) :
    ∃ order, (∀ v, v ∈ order ↔ g.hasVertex v = true) ∧
      Classes (g.Together strong) g.allIds [] order (markedComponents g strong) := by
  have hrange : (List.range g.vertexCapacity).length < g.vertexCapacity + 1 := by
    rw [List.length_range]
    exact Nat.lt_succ_self _
  have hsweep {order : List Nat} (horder : Sweepable (componentLinks g strong) (g.Together strong)
      order) (hlive : ∀ v, v ∈ order ↔ g.hasVertex v = true) :
      Classes (g.Together strong) g.allIds [] order
        (sweep (componentLinks g strong) (g.vertexCapacity + 1) g.allIds order 0 fun _ => 0) := by
    apply sweep_spec horder (componentLinks_closed h strong) _ hrange order [] 0 _ rfl
    · exact fun _ => Nat.le_refl 0
    · intro y
      simp
    · intro v hv
      exact List.mem_range.2 (hasVertex_lt ((hlive v).1 hv))
  cases strong with
  | true =>
    obtain ⟨-, hlive, -⟩ := finishAll_spec h
    have hlive' : ∀ v, v ∈ (finishAll g g.allIds [] []).reverse ↔ g.hasVertex v = true := by
      intro v
      rw [List.mem_reverse, hlive]
    exact ⟨_, hlive', hsweep (sweepable_strong h) hlive'⟩
  | false =>
    have hlive' : ∀ v, v ∈ g.allIds.filter g.hasVertex ↔ g.hasVertex v = true := by
      intro v
      rw [List.mem_filter]
      exact ⟨fun hv => hv.2, fun hv => ⟨h.mem_allIds hv, hv⟩⟩
    exact ⟨_, hlive', hsweep (sweepable_weak h) hlive'⟩

theorem components_spec (h : Intact g) (strong : Bool) :
    ComponentsOf g strong
      ((markedComponents g strong).mergeSort fun a b => firstMember a ≤ firstMember b) := by
  obtain ⟨order, horder, heach, hcover, hapart⟩ := markedComponents_spec h strong
  have hperm := List.mergeSort_perm (markedComponents g strong)
    fun a b => decide (firstMember a ≤ firstMember b)
  have hclass : ∀ c ∈ markedComponents g strong, ∃ x, g.hasVertex x = true ∧
      c.Pairwise (· < ·) ∧ ∀ v, v ∈ c ↔ g.hasVertex v = true ∧ g.Together strong x v := by
    intro c hc
    obtain ⟨x, hx, hclass, -⟩ := heach c hc
    have hxlive := (horder x).1 hx
    refine ⟨x, hxlive, (List.pairwise_lt_range' 1).sublist hclass.order, fun v => ?_⟩
    rw [hclass.members]
    constructor
    · intro hv
      exact ⟨Together.live h hxlive hv.2, hv.2⟩
    · intro hv
      exact ⟨h.mem_allIds hv.1, hv.2⟩
  have hne : ∀ c ∈ markedComponents g strong, c ≠ [] ∧ firstMember c ∈ c := by
    intro c hc
    obtain ⟨x, hx, -, hmem⟩ := hclass c hc
    have hxc := (hmem x).2 ⟨hx, Together.refl strong x⟩
    cases c with
    | nil => cases hxc
    | cons y c => exact ⟨List.cons_ne_nil y c, List.mem_cons_self⟩
  refine ⟨?_, fun c hc => ?_, fun c hc u hu v => ?_, fun v hv => ?_⟩
  · -- components without a common member have different first members
    have hle : ((markedComponents g strong).mergeSort
        fun a b => firstMember a ≤ firstMember b).Pairwise
          fun a b => decide (firstMember a ≤ firstMember b) = true := by
      apply List.pairwise_mergeSort
      · intro a b c hab hbc
        simp only [decide_eq_true_eq] at hab hbc ⊢
        omega
      · intro a b
        simp only [Bool.or_eq_true, decide_eq_true_eq]
        omega
    have hdiff : ((markedComponents g strong).mergeSort
        fun a b => firstMember a ≤ firstMember b).Pairwise fun c d => ∀ y ∈ c, y ∉ d := by
      refine (hperm.pairwise_iff ?_).2 hapart
      intro c d hcd y hy hyc
      exact hcd y hyc hy
    refine (hle.and hdiff).imp_of_mem ?_
    intro c d hc hd hboth
    obtain ⟨hfirst, hno⟩ := hboth
    have hfirst' : firstMember c ≤ firstMember d := by simpa using hfirst
    have hcne := hne c (hperm.mem_iff.1 hc)
    have hdne := hne d (hperm.mem_iff.1 hd)
    apply Nat.lt_of_le_of_ne hfirst'
    intro heq
    apply hno (firstMember c) hcne.2
    rw [heq]
    exact hdne.2
  · have hc' := hperm.mem_iff.1 hc
    obtain ⟨x, -, hasc, -⟩ := hclass c hc'
    exact ⟨(hne c hc').1, hasc⟩
  · obtain ⟨x, -, -, hmem⟩ := hclass c (hperm.mem_iff.1 hc)
    have hxu := ((hmem u).1 hu).2
    rw [hmem]
    apply and_congr_right'
    exact ⟨fun hxv => Together.trans (Together.symm hxu) hxv, fun huv => Together.trans hxu huv⟩
  · rcases hcover v ((horder v).2 hv) with ⟨d, hd, -⟩ | ⟨c, hc, hclass⟩
    · cases hd
    · exact ⟨c, hperm.mem_iff.2 hc, (hclass.members v).2 ⟨h.mem_allIds hv, Together.refl strong v⟩⟩

theorem xgComponents_run (h : Intact g) (strong cyclicOnly : Bool) :
    ∃ cs, ComponentsOf g strong cs ∧ (xgComponents strong cyclicOnly).run g =
      .ok (if cyclicOnly then cs.filter (isCyclic g) else cs) g := by
  refine ⟨_, components_spec h strong, ?_⟩
  apply run_of_returns
  rw [xgComponents, returns, wp_bind, h.requireUsable, wp_bind, wp_get, wp_pure]
  exact ⟨rfl, rfl⟩

end XPerl.XGraph
