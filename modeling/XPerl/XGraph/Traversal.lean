import XPerl.Framework.DepthFirst
import XPerl.XGraph.Paths

/-! What a vertex reaches, and the orders of a depth-first walk from it. -/

namespace XPerl.XGraph

open XPerl.Framework Exec BreadthFirst DepthFirst Relation

/-- `while (head < tail)` of `xg_reachable`: the marks. -/
def reachableLoop (graph : Graph) (incoming : Bool) : Nat → List Nat → List Nat → List Nat
  | 0, _, seen => seen
  | _ + 1, [], seen => seen
  | rounds + 1, id :: queue, seen =>
    let (queue, seen) := (walkList graph id incoming).foldl (fun (queue, seen) entry =>
      if xgEntryVertex entry ∈ seen then (queue, seen)
      else (queue ++ [xgEntryVertex entry], xgEntryVertex entry :: seen)) (queue, seen)
    reachableLoop graph incoming rounds queue seen

/-- The marked IDs in ascending order; a strict request keeps the start only on a cycle. -/
def reachableIds (start : Nat) (incoming strict : Bool) (seen : List Nat) :
    List Nat → XgM (List Nat)
  | [] => return []
  | id :: ids => do
    let kept ←
      if id ∈ seen then
        if strict = true ∧ id = start then xgHasPath start start incoming else pure true
      else pure false
    let rest ← reachableIds start incoming strict seen ids
    return if kept = true then id :: rest else rest

def xgReachable (start : Nat) (incoming strict : Bool) : XgM (List Nat) := do
  xgRequireUsable
  xgRequireVertex start
  let graph ← get
  reachableIds start incoming strict
    (reachableLoop graph incoming (graph.vertexCapacity + 1) [start] [start]) graph.allIds

def dfsStep (graph : Graph) (incoming postorder : Bool) (s : Machine Nat) : Machine Nat :=
  match s.stack with
  | [] => s
  | current :: rest =>
    match (walkList graph current incoming)[s.positions current]? with
    | some entry =>
      let next := xgEntryVertex entry
      let positions := Function.update s.positions current (s.positions current + 1)
      if next ∈ s.seen then { s with positions := positions }
      else
        ⟨next :: current :: rest, positions, next :: s.seen,
          if postorder then s.order else s.order ++ [next]⟩
    | none => ⟨rest, s.positions, s.seen, if postorder then s.order ++ [current] else s.order⟩

/-- `while (top)`; with an empty stack a round changes nothing. -/
def dfsLoop (graph : Graph) (incoming postorder : Bool) : Nat → Machine Nat → Machine Nat
  | 0, s => s
  | rounds + 1, s => dfsLoop graph incoming postorder rounds (dfsStep graph incoming postorder s)

def dfsRounds (graph : Graph) (incoming : Bool) : Nat :=
  ((List.range graph.vertexCapacity).map fun id => (walkList graph id incoming).length + 1).sum

def xgDfsOrder (start : Nat) (incoming postorder : Bool) : XgM (List Nat) := do
  xgRequireUsable
  xgRequireVertex start
  let graph ← get
  return (dfsLoop graph incoming postorder (dfsRounds graph incoming)
    ⟨[start], fun _ => 0, [start], if postorder then [] else [start]⟩).order

variable {g : Graph}

theorem reachableLoop_eq (incoming : Bool) (rounds : Nat) (s : Frontier Nat) :
    reachableLoop g incoming rounds s.queue s.seen =
      (search (neighbours g incoming) (fun _ => false) rounds s).2.seen ∧
    (search (neighbours g incoming) (fun _ => false) rounds s).1 = none := by
  have hscan (id : Nat) (entries : List Nat) (s : Frontier Nat) :
      ∃ s', scan (fun _ => false) id (entries.map xgEntryVertex) s = (false, s') ∧
        entries.foldl (fun (queue, seen) entry =>
          if xgEntryVertex entry ∈ seen then (queue, seen)
          else (queue ++ [xgEntryVertex entry], xgEntryVertex entry :: seen)) (s.queue, s.seen) =
            (s'.queue, s'.seen) := by
    induction entries generalizing s with
    | nil => exact ⟨s, rfl, rfl⟩
    | cons entry entries ih =>
      rw [List.map_cons, scan, List.foldl_cons, if_neg Bool.false_ne_true]
      by_cases hseen : xgEntryVertex entry ∈ s.seen
      · simp only [hseen, if_true]
        exact ih s
      · simp only [hseen, if_false]
        exact ih ((s.mark (xgEntryVertex entry) id).enqueue (xgEntryVertex entry))
  induction rounds generalizing s with
  | zero => exact ⟨rfl, rfl⟩
  | succ rounds ih =>
    obtain ⟨seen, previous, queue⟩ := s
    cases queue with
    | nil => exact ⟨rfl, rfl⟩
    | cons id queue =>
      obtain ⟨s', hfound, hfold⟩ := hscan id (walkList g id incoming) ⟨seen, previous, queue⟩
      simp only [reachableLoop, search]
      rw [hfold, neighbours, hfound]
      exact ih s'

theorem reachableLoop_spec (h : Intact g) {start : Nat} (hstart : g.hasVertex start = true)
    (incoming : Bool) (v : Nat) :
    v ∈ reachableLoop g incoming (g.vertexCapacity + 1) [start] [start] ↔
      ReflTransGen (g.Follows incoming) start v := by
  have hspace : start ∈ List.range g.vertexCapacity := List.mem_range.2 (hasVertex_lt hstart)
  have hended : Ended (neighbours g incoming) (fun _ => false) start (List.range g.vertexCapacity)
      (search (neighbours g incoming) (fun _ => false) (g.vertexCapacity + 1)
        ⟨[start], fun _ => 0, [start]⟩) := by
    apply search_spec (neighbours_closed h incoming) _ (Layered.init _ hspace)
    simp only [List.length_range, List.length_singleton]
    omega
  obtain ⟨hloop, hnone⟩ := reachableLoop_eq (g := g) incoming (g.vertexCapacity + 1)
    ⟨[start], fun _ => 0, [start]⟩
  rw [hloop, ← follows_eq h]
  generalize search (neighbours g incoming) (fun _ => false) _ _ = result at hended hnone ⊢
  obtain ⟨found, s⟩ := result
  obtain rfl : found = none := hnone
  obtain ⟨depth, hlayered, hqueue⟩ := hended
  exact ⟨hlayered.reached, fun hway => (hlayered.complete hqueue hway).1⟩

theorem Intact.reached_live (h : Intact g) {incoming : Bool} {u v : Nat}
    (hu : g.hasVertex u = true) (hway : ReflTransGen (g.Follows incoming) u v) :
    g.hasVertex v = true := by
  induction hway with
  | refl => exact hu
  | tail _ hstep _ => exact (h.follows_live hstep).2

theorem reachableIds_run (start : Nat) (incoming : Bool) (seen ids : List Nat) :
    (reachableIds start incoming false seen ids).run g = .ok (ids.filter (· ∈ seen)) g := by
  induction ids with
  | nil => rfl
  | cons id ids ih =>
    apply run_of_returns
    simp only [reachableIds, Bool.false_eq_true, false_and, if_false, returns, wp_bind, wp_ite,
      wp_pure, wp_of_run ih]
    constructor
    · intro hmem
      simp [hmem]
    · intro hmem
      simp [hmem]

theorem xgReachable_run (h : Intact g) {start : Nat} (hstart : g.hasVertex start = true)
    (incoming : Bool) :
    ∃ ids, (xgReachable start incoming false).run g = .ok ids g ∧ ids.Pairwise (· < ·) ∧
      ∀ v, v ∈ ids ↔ ReflTransGen (g.Follows incoming) start v := by
  refine ⟨g.allIds.filter
    (· ∈ reachableLoop g incoming (g.vertexCapacity + 1) [start] [start]), ?_, ?_, fun v => ?_⟩
  · apply run_of_returns
    rw [xgReachable, returns, wp_bind, h.requireUsable, wp_bind, wp_requireVertex]
    refine ⟨fun hdead => absurd (hstart.symm.trans hdead) Bool.noConfusion, fun _ => ?_⟩
    rw [wp_bind, wp_get, wp_of_run (reachableIds_run start incoming _ _)]
    exact ⟨rfl, rfl⟩
  · exact List.Pairwise.filter _ (List.pairwise_lt_range' 1)
  · rw [List.mem_filter, decide_eq_true_eq, reachableLoop_spec h hstart]
    exact ⟨fun hv => hv.2, fun hway => ⟨h.mem_allIds (h.reached_live hstart hway), hway⟩⟩

theorem dfsLoop_eq (incoming postorder : Bool) (rounds : Nat) (s : Machine Nat) :
    dfsLoop g incoming postorder rounds s =
      Machine.run (neighbours g incoming) postorder rounds s := by
  have hstep (s : Machine Nat) :
      dfsStep g incoming postorder s = s.step (neighbours g incoming) postorder := by
    rw [dfsStep, Machine.step]
    cases s.stack with
    | nil => rfl
    | cons current rest =>
      simp only [neighbours, List.getElem?_map]
      cases (walkList g current incoming)[s.positions current]? with
      | none => rfl
      | some entry => rfl
  induction rounds generalizing s with
  | zero => rfl
  | succ rounds ih => rw [dfsLoop, Machine.run, ih, hstep]

theorem dfsRounds_eq (incoming : Bool) :
    dfsRounds g incoming = cost (neighbours g incoming) (List.range g.vertexCapacity) := by
  simp [dfsRounds, cost, neighbours]

theorem xgDfsOrder_run (h : Intact g) {start : Nat} (hstart : g.hasVertex start = true)
    (incoming : Bool) :
    ∃ f seen, Dfs (neighbours g incoming) [start] [] f seen ∧ ∀ postorder,
      (xgDfsOrder start incoming postorder).run g = .ok (f.order postorder) g := by
  have hspace : start ∈ List.range g.vertexCapacity := List.mem_range.2 (hasVertex_lt hstart)
  obtain ⟨f, seen, hdfs, -, hinside, -⟩ := exists_dfs (neighbours_closed h incoming)
    g.vertexCapacity [start] [] (by simp) List.nodup_nil (List.nil_subset _)
    (List.cons_subset.2 ⟨hspace, List.nil_subset _⟩)
  refine ⟨f, seen, hdfs, fun postorder => ?_⟩
  have hcost : cost (neighbours g incoming) f.preorder ≤ dfsRounds g incoming := by
    rw [dfsRounds_eq]
    exact cost_le hdfs.nodup fun y hy => hinside (hdfs.mem_iff.2 (Or.inr hy))
  cases hdfs with
  | skip hseen => cases hseen
  | visit _ hchildren hrest =>
    cases hrest with
    | nil =>
      obtain ⟨positions, hrun⟩ := hchildren.machine_root postorder [] hcost
      apply run_of_returns
      rw [xgDfsOrder, returns, wp_bind, h.requireUsable, wp_bind, wp_requireVertex]
      refine ⟨fun hdead => absurd (hstart.symm.trans hdead) Bool.noConfusion, fun _ => ?_⟩
      rw [wp_bind, wp_get, wp_pure, dfsLoop_eq]
      rw [List.nil_append] at hrun
      rw [hrun]
      exact ⟨rfl, rfl⟩

theorem mem_order {f : Forest Nat} {postorder : Bool} {v : Nat} :
    v ∈ f.order postorder ↔ v ∈ f.preorder := by
  cases postorder with
  | false => rfl
  | true => exact f.mem_postorder

end XPerl.XGraph
