import XPerl.XGraph.Intact
import XPerl.XGraph.Paths

/-! Graphs made from graphs: the clone, and the subgraph that deletes from one. -/

namespace XPerl.XGraph

open XPerl.Framework Exec

/-- The loop over `vertex_names_by_id`, which stores both directions. -/
def copyNames (source : Graph) : List Nat → (Str → Option Nat) → Str → Option Nat
  | [], byName => byName
  | id :: ids, byName =>
    match source.vertexNamesById id with
    | none => copyNames source ids byName
    | some name => copyNames source ids (Function.update byName name (some id))

def Graph.copyMaps (dest source : Graph) : Graph :=
  { dest with
    labelsById := source.labelsById
    labelIdsByName := source.labelIdsByName
    vertexNamesById := source.vertexNamesById
    vertexIdsByName := copyNames source source.allIds fun _ => none }

/-- A list for as many entries as there are; `none` inside is NULL. -/
def copyList : Option AdjList → Option (Option AdjList)
  | none => some none
  | some list =>
    (xgAdjNew.reserve list.entries.length).map fun fresh =>
      some { fresh with entries := list.entries }

def copyVertices (source : Graph) : List Nat → Graph → Option Graph
  | [], dest => some dest
  | i :: ids, dest =>
    match copyList (source.vertices i).inList, copyList (source.vertices i).outList with
    | some inList, some outList =>
      copyVertices source ids (dest.setVertex i ⟨inList, outList, (source.vertices i).live⟩)
    | _, _ => none

def Graph.blank (source : Graph) (mutableCopy : Bool) : Graph :=
  Graph.growTable
    { xgNew source.acyclic source.strictLabels with
      nextVertexId := source.nextVertexId
      liveVertices := source.liveVertices
      liveEdges := source.liveEdges
      topologyGeneration := source.topologyGeneration
      namingGeneration := source.namingGeneration
      frozen := if mutableCopy then false else source.frozen }
    (source.vertexCapacity - 1)

def xgClone (mutableCopy : Bool) : XgM Graph := do
  xgRequireUsable
  let source ← get
  match copyVertices source (List.range source.vertexCapacity) (source.blank mutableCopy) with
  | none => throw (.allocationFailed "adjacency list is too large")
  | some dest => return dest.copyMaps source

def onGraph {α : Type} (graph : Graph) (m : XgM α) : XgM (α × Graph) :=
  match m.run graph with
  | .ok a result => return (a, result)
  | .error e _ => throw e

theorem wp_onGraph {α : Type} {t s : Graph} {m : XgM α} {Q : α × Graph → Graph → Prop}
    {E : XgError → Graph → Prop} :
    wp (onGraph t m) s Q E ↔ wp m t (fun a r => Q (a, r) s) fun e _ => E e s := by
  rw [onGraph]
  unfold wp
  cases m.run t with
  | ok a r => rfl
  | error e r => rfl

/-- `xg_id_from_sv`; `none` is a value that is no natural number. -/
def xgIdFromSv : Option Nat → XgM Nat
  | none => throw .invalidVertexId
  | some id => do
    throwIf (id < 1 ∨ id > maxVertexId) .invalidVertexId
    return id

def selectVertices : List (Option Nat) → List Nat → XgM (List Nat)
  | [], selected => return selected
  | value :: values, selected => do
    let id ← xgIdFromSv value
    xgRequireVertex id
    selectVertices values (id :: selected)

def deleteOthers (selected : List Nat) : List Nat → XgM Unit
  | [] => return ()
  | id :: ids => do
    let graph ← get
    if graph.hasVertex id = true ∧ id ∉ selected then
      let _ ← xgDeleteVertex id
      deleteOthers selected ids
    else deleteOthers selected ids

def xgInducedSubgraph (vertexIds : List (Option Nat)) : XgM Graph := do
  xgRequireUsable
  let result ← xgClone true
  let (_, result) ← onGraph result do
    let selected ← selectVertices vertexIds []
    deleteOthers selected result.allIds
  return result

variable {g c : Graph}

theorem copyNames_spec (hinverse : ∀ s i j, g.vertexNamesById i = some s →
    g.vertexNamesById j = some s → i = j) (ids : List Nat) (byName : Str → Option Nat) (s : Str) :
    (∀ id ∈ ids, g.vertexNamesById id = some s → copyNames g ids byName s = some id) ∧
      ((∀ id ∈ ids, g.vertexNamesById id ≠ some s) → copyNames g ids byName s = byName s) := by
  induction ids generalizing byName with
  | nil => exact ⟨fun id hid => absurd hid List.not_mem_nil, fun _ => rfl⟩
  | cons i ids ih =>
    cases hname : g.vertexNamesById i with
    | none =>
      rw [copyNames, hname]
      obtain ⟨hfound, hfree⟩ := ih byName
      refine ⟨fun id hid hs => ?_, fun hno => hfree fun id hid => hno id (List.mem_cons_of_mem i hid)⟩
      rcases List.mem_cons.1 hid with rfl | hid
      · rw [hname] at hs
        cases hs
      · exact hfound id hid hs
    | some t =>
      have hstep : copyNames g (i :: ids) byName =
          copyNames g ids (Function.update byName t (some i)) := by
        rw [copyNames, hname]
      rw [hstep]
      obtain ⟨hfound, hfree⟩ := ih (Function.update byName t (some i))
      constructor
      · intro id hid hs
        by_cases hlater : ∃ j ∈ ids, g.vertexNamesById j = some s
        · obtain ⟨j, hj, hjs⟩ := hlater
          rw [hinverse s id j hs hjs]
          exact hfound j hj hjs
        · have hfree' := hfree fun j hj hjs => hlater ⟨j, hj, hjs⟩
          rcases List.mem_cons.1 hid with rfl | hid
          · rw [hname] at hs
            rw [hfree', Option.some.inj hs, Function.update_self]
          · exact absurd ⟨id, hid, hs⟩ hlater
      · intro hno
        have hst : s ≠ t := fun heq => hno i List.mem_cons_self (by rw [hname, heq])
        exact (hfree fun id hid => hno id (List.mem_cons_of_mem i hid)).trans
          (Function.update_of_ne hst _ _)

theorem copyNames_eq (h : Intact g) : copyNames g g.allIds (fun _ => none) = g.vertexIdsByName := by
  funext s
  obtain ⟨hfound, hfree⟩ := copyNames_spec (fun s i j hi hj => Option.some.inj
    (((h.names.inverse s i).2 hi).symm.trans ((h.names.inverse s j).2 hj))) g.allIds
    (fun _ => none) s
  cases hid : g.vertexIdsByName s with
  | none =>
    refine hfree fun id _ hs => ?_
    rw [(h.names.inverse s id).2 hs] at hid
    cases hid
  | some id =>
    exact hfound id (h.mem_allIds (h.names.live s id hid)) ((h.names.inverse s id).1 hid)

/-- What a vertex record shows is in its copy. -/
structure Copied (v v' : Vertex) : Prop where
  live : v'.live = v.live
  outOk : (v'.outList.getD xgAdjNew).Ok
  inOk : (v'.inList.getD xgAdjNew).Ok
  outs : (v'.outList.getD xgAdjNew).entries = (v.outList.getD xgAdjNew).entries
  ins : (v'.inList.getD xgAdjNew).entries = (v.inList.getD xgAdjNew).entries

theorem copyList_spec {list : Option AdjList} (h : (list.getD xgAdjNew).Ok) :
    ∃ list', copyList list = some list' ∧ (list'.getD xgAdjNew).Ok ∧
      (list'.getD xgAdjNew).entries = (list.getD xgAdjNew).entries := by
  cases list with
  | none => exact ⟨none, rfl, xgAdjNew_ok, rfl⟩
  | some list =>
    have hok : list.Ok := h
    have hfew : list.entries.length ≤ 2 ^ 31 := hok.length_le
    obtain ⟨fresh, hfresh, hfreshOk, -, hroom⟩ := AdjList.reserve_spec xgAdjNew_ok hfew
    refine ⟨some { fresh with entries := list.entries }, ?_, ⟨hok.sorted, hroom, hfreshOk.capacity⟩,
      rfl⟩
    rw [copyList, hfresh]
    rfl

theorem copyVertices_spec (h : Intact g) (ids : List Nat) (hnodup : ids.Nodup) (dest : Graph) :
    ∃ vertices, copyVertices g ids dest = some { dest with vertices := vertices } ∧
      (∀ i ∈ ids, Copied (g.vertices i) (vertices i)) ∧
      ∀ i, i ∉ ids → vertices i = dest.vertices i := by
  induction ids generalizing dest with
  | nil => exact ⟨dest.vertices, rfl, fun i hi => absurd hi List.not_mem_nil, fun _ _ => rfl⟩
  | cons i ids ih =>
    obtain ⟨hnot, hnodup⟩ := List.nodup_cons.1 hnodup
    obtain ⟨inList, hin, hinOk, hins⟩ := copyList_spec (h.topology.inOk i)
    obtain ⟨outList, hout, houtOk, houts⟩ := copyList_spec (h.topology.outOk i)
    obtain ⟨vertices, hcopy, hcopied, hrest⟩ :=
      ih hnodup (dest.setVertex i ⟨inList, outList, (g.vertices i).live⟩)
    refine ⟨vertices, ?_, fun j hj => ?_, fun j hj => ?_⟩
    · rw [copyVertices, hin, hout]
      exact hcopy
    · rcases List.mem_cons.1 hj with rfl | hj
      · have hnew : vertices j = ⟨inList, outList, (g.vertices j).live⟩ :=
          (hrest j hnot).trans (Function.update_self j _ dest.vertices)
        rw [hnew]
        exact ⟨rfl, houtOk, hinOk, houts, hins⟩
      · exact hcopied j hj
    · rw [List.mem_cons, not_or] at hj
      exact (hrest j hj.2).trans (Function.update_of_ne hj.1 _ dest.vertices)

theorem blank_spec (h : Intact g) (mutableCopy : Bool) :
    (∀ i, (g.blank mutableCopy).vertices i = ⟨none, none, false⟩) ∧
      g.vertexCapacity ≤ (g.blank mutableCopy).vertexCapacity ∧
      (g.blank mutableCopy).vertexCapacity ≤ maxVertexId + 1 ∧
      ∃ vertices capacity, g.blank mutableCopy =
        { xgNew g.acyclic g.strictLabels with
          vertices := vertices
          vertexCapacity := capacity
          nextVertexId := g.nextVertexId
          liveVertices := g.liveVertices
          liveEdges := g.liveEdges
          topologyGeneration := g.topologyGeneration
          namingGeneration := g.namingGeneration
          frozen := if mutableCopy then false else g.frozen } := by
  obtain ⟨hmin, hmax⟩ := h.table.capacity
  rw [Graph.blank, Graph.growTable]
  have hstart : (xgNew g.acyclic g.strictLabels).vertexCapacity = 16 := rfl
  by_cases hroom : g.vertexCapacity - 1 < 16
  · rw [if_pos (by exact hroom)]
    have hsmall : 16 ≤ maxVertexId + 1 := by decide
    refine ⟨fun _ => rfl, ?_, hsmall, _, _, rfl⟩
    change g.vertexCapacity ≤ 16
    omega
  · rw [if_neg (by exact hroom)]
    obtain ⟨hle, -⟩ := tableCapacity_le (g.vertexCapacity - 1) 25 16 (by decide)
    have hlt := lt_tableCapacity (g.vertexCapacity - 1) 25 16 4 (by omega) (by decide) (by decide)
    refine ⟨fun i => ?_, ?_, hle, _, _, rfl⟩
    · exact ite_self _
    · change g.vertexCapacity ≤ tableCapacity (g.vertexCapacity - 1) 25 16
      omega

/-- A clone: everything a caller can see is as in the source. -/
structure Cloned (g c : Graph) (mutableCopy : Bool) : Prop where
  intact : Intact c
  view : c.view = g.view
  flags : c.acyclic = g.acyclic ∧ c.strictLabels = g.strictLabels ∧
    c.frozen = if mutableCopy then false else g.frozen
  counts : c.liveVertices = g.liveVertices ∧ c.liveEdges = g.liveEdges

theorem copied_view (h : Intact g)
    (hcopied : ∀ u < g.vertexCapacity, Copied (g.vertices u) (c.vertices u))
    (hbeyond : ∀ u, ¬ u < g.vertexCapacity → c.vertices u = ⟨none, none, false⟩)
    (hroom : g.vertexCapacity ≤ c.vertexCapacity) :
    c.hasVertex = g.hasVertex ∧ (∀ u, (c.out u).Ok ∧ outs c u = outs g u) ∧
      ∀ v, (c.inn v).Ok ∧ ins c v = ins g v := by
  have hdead (u : Nat) (hu : ¬ u < g.vertexCapacity) : g.hasVertex u = false := by
    simp [Graph.hasVertex, hu]
  refine ⟨funext fun u => ?_, fun u => ?_, fun v => ?_⟩
  · by_cases hu : u < g.vertexCapacity
    · rw [Graph.hasVertex, Graph.hasVertex, (hcopied u hu).live]
      simp [hu, Nat.lt_of_lt_of_le hu hroom]
    · rw [hdead u hu, Graph.hasVertex, hbeyond u hu]
      simp
  · by_cases hu : u < g.vertexCapacity
    · exact ⟨(hcopied u hu).outOk, (hcopied u hu).outs⟩
    · rw [outs, Graph.out, hbeyond u hu]
      refine ⟨xgAdjNew_ok, ?_⟩
      symm
      apply List.eq_nil_iff_forall_not_mem.2
      intro e he
      have hlive := (h.topology.outEnds u e he).1
      rw [hdead u hu] at hlive
      cases hlive
  · by_cases hv : v < g.vertexCapacity
    · exact ⟨(hcopied v hv).inOk, (hcopied v hv).ins⟩
    · rw [ins, Graph.inn, hbeyond v hv]
      refine ⟨xgAdjNew_ok, ?_⟩
      symm
      apply List.eq_nil_iff_forall_not_mem.2
      intro e he
      have hlive := (h.topology.inEnds v e he).1
      rw [hdead v hv] at hlive
      cases hlive

theorem xgClone_run (h : Intact g) (mutableCopy : Bool) :
    ∃ c, (xgClone mutableCopy).run g = .ok c g ∧ Cloned g c mutableCopy := by
  obtain ⟨hzero, hroom, hmax, blankVertices, capacity, hblank⟩ := blank_spec h mutableCopy
  obtain ⟨vertices, hcopy, hcopied, hrest⟩ := copyVertices_spec h (List.range g.vertexCapacity)
    List.nodup_range (g.blank mutableCopy)
  have hbeyond (u : Nat) (hu : ¬ u < g.vertexCapacity) : vertices u = ⟨none, none, false⟩ :=
    (hrest u (mt List.mem_range.1 hu)).trans (hzero u)
  refine ⟨Graph.copyMaps { g.blank mutableCopy with vertices := vertices } g, ?_, ?_⟩
  · apply run_of_returns
    rw [xgClone, returns, wp_bind, h.requireUsable, wp_bind, wp_get, hcopy]
    exact ⟨rfl, rfl⟩
  · rw [hblank] at hroom hmax ⊢
    generalize hc : Graph.copyMaps _ g = c
    have hvertices : c.vertices = vertices := by rw [← hc]; rfl
    have hcapacity : c.vertexCapacity = capacity := by rw [← hc]; rfl
    have hnext : c.nextVertexId = g.nextVertexId := by rw [← hc]; rfl
    have hlabelsById : c.labelsById = g.labelsById := by rw [← hc]; rfl
    have hlabelIds : c.labelIdsByName = g.labelIdsByName := by rw [← hc]; rfl
    have hnamesById : c.vertexNamesById = g.vertexNamesById := by rw [← hc]; rfl
    have hnames : c.vertexIdsByName = g.vertexIdsByName := by rw [← hc]; exact copyNames_eq h
    have hcounts : c.liveVertices = g.liveVertices ∧ c.liveEdges = g.liveEdges := by
      rw [← hc]
      exact ⟨rfl, rfl⟩
    have hflags : c.acyclic = g.acyclic ∧ c.strictLabels = g.strictLabels ∧
        c.frozen = if mutableCopy then false else g.frozen := by
      rw [← hc]
      exact ⟨rfl, rfl, rfl⟩
    have hpresent : c.unavailableThreadClone = false := by rw [← hc]; rfl
    clear hc
    obtain ⟨hlive, hout, hin⟩ := copied_view (c := c) h
      (fun u hu => by rw [hvertices]; exact hcopied u (List.mem_range.2 hu))
      (fun u hu => by rw [hvertices]; exact hbeyond u hu) (by rw [hcapacity]; exact hroom)
    have htopology : Topology c := h.topology.congr (fun u => (hout u).1) (fun v => (hin v).1)
      (fun u => (hout u).2) (fun v => (hin v).2) (fun id hid => by rw [hlive, hid])
      (by rw [hlabelsById]) hcounts.2
    have hview : c.view = g.view := by
      rw [Graph.view, hlive, funext fun u => (hout u).2, funext fun v => (hin v).2, hnext,
        hnamesById, hnames, hlabelsById, hlabelIds]
      rfl
    refine ⟨⟨hpresent, htopology, ⟨?_, ?_, ?_, ?_⟩, ⟨?_, ?_⟩, ⟨?_, ?_, ?_⟩, ?_⟩, hview, hflags, hcounts⟩
    · rw [hcapacity]
      exact ⟨Nat.le_trans h.table.capacity.1 hroom, hmax⟩
    · rw [hnext]
      exact h.table.next
    · rw [hlive, hnext]
      exact h.table.below
    · rw [hlive, hcounts.1]
      exact h.table.live
    · rw [hnames, hnamesById]
      exact h.names.inverse
    · rw [hnames, hlive]
      exact h.names.live
    · rw [hlabelsById]
      exact h.labels.reserved
    · rw [hlabelsById]
      exact h.labels.limit
    · rw [hlabelsById, hlabelIds]
      exact h.labels.inverse
    · intro u e he
      rw [(hout u).2] at he
      rw [LabelNamed, hlabelsById]
      exact h.known u e he

theorem xgIdFromSv_run {id : Nat} (hpos : id ≠ 0) (hmax : id ≤ maxVertexId) :
    (xgIdFromSv (some id)).run g = .ok id g := by
  apply run_of_returns
  rw [xgIdFromSv, returns, wp_bind, wp_throwIf, wp_pure]
  exact ⟨fun hbad => by omega, fun _ => ⟨rfl, rfl⟩⟩

theorem selectVertices_run (h : Intact g) (ids : List Nat)
    (hlive : ∀ id ∈ ids, g.hasVertex id = true)
    (selected : List Nat) :
    ∃ selected', (selectVertices (ids.map some) selected).run g = .ok selected' g ∧
      ∀ id, id ∈ selected' ↔ id ∈ ids ∨ id ∈ selected := by
  induction ids generalizing selected with
  | nil => exact ⟨selected, rfl, fun id => by simp⟩
  | cons id ids ih =>
    have hid := hlive id List.mem_cons_self
    have hbelow := h.table.below id hid
    have hnext := h.table.next.2
    obtain ⟨selected', hrun, hmem⟩ :=
      ih (fun x hx => hlive x (List.mem_cons_of_mem id hx)) (id :: selected)
    refine ⟨selected', ?_, fun x => ?_⟩
    · apply run_of_returns
      rw [List.map_cons, selectVertices, returns, wp_bind,
        wp_of_run (xgIdFromSv_run (hasVertex_pos hid) (by omega)), wp_bind, wp_requireVertex]
      refine ⟨fun hdead => absurd (hid.symm.trans hdead) Bool.noConfusion, fun _ => ?_⟩
      rw [wp_of_run hrun]
      exact ⟨rfl, rfl⟩
    · rw [hmem, List.mem_cons, List.mem_cons]
      tauto

/-- The vertices `P` holds of stay, with their names. -/
structure Restricted (P : Nat → Prop) (g g' : Graph) : Prop where
  wf : WF g'
  known : KnownLabels g'
  next : g'.nextVertexId = g.nextVertexId
  live : ∀ j, g'.hasVertex j = true ↔ g.hasVertex j = true ∧ P j
  names : ∀ s j, g'.vertexIdsByName s = some j ↔ g.vertexIdsByName s = some j ∧ P j

theorem deleteVertex_restricts (h : WF g) (hknown : KnownLabels g) {id : Nat}
    (hlive : g.hasVertex id = true) :
    returns (xgDeleteVertex id) g fun _ g' => Restricted (· ≠ id) g g' := by
  have hgone := xgDeleteVertex_effect h hlive
  have hthins : wp (xgDeleteVertex id) g (fun _ g' => Thinned g g') (fun _ g' => Thinned g g') :=
    thins_deleteVertex id
  apply wp_mono (wp_and hgone hthins)
  · intro _ g' hg'
    obtain ⟨hgone, hthin⟩ := hg'
    exact ⟨hgone.wf, hknown.thinned hthin, hgone.next, hgone.live, hgone.names⟩
  · intro _ _ hfalse
    exact hfalse.1

theorem deleteOthers_spec (h : WF g) (hknown : KnownLabels g) (selected ids : List Nat) :
    returns (deleteOthers selected ids) g fun _ g' =>
      Restricted (fun j => j ∈ ids → j ∈ selected) g g' := by
  induction ids generalizing g with
  | nil =>
    exact ⟨h, hknown, rfl, fun j => by simp, fun s j => by simp⟩
  | cons id ids ih =>
    rw [deleteOthers, returns, wp_bind, wp_get, wp_ite]
    constructor
    · intro hdelete
      obtain ⟨hlive, hnot⟩ := hdelete
      rw [wp_bind]
      apply wp_of_returns (deleteVertex_restricts h hknown hlive)
      intro _ g₁ h₁
      apply wp_of_returns (ih h₁.wf h₁.known)
      intro _ g₂ h₂
      have hboth (j : Nat) : (j ≠ id ∧ (j ∈ ids → j ∈ selected)) ↔
          (j ∈ id :: ids → j ∈ selected) := by
        rw [List.mem_cons]
        constructor
        · intro hj hmem
          exact hj.2 (hmem.resolve_left hj.1)
        · intro hj
          exact ⟨fun heq => hnot (heq ▸ hj (Or.inl heq)), fun hmem => hj (Or.inr hmem)⟩
      refine ⟨h₂.wf, h₂.known, h₂.next.trans h₁.next, fun j => ?_, fun s j => ?_⟩
      · rw [h₂.live, h₁.live, and_assoc, hboth]
      · rw [h₂.names, h₁.names, and_assoc, hboth]
    · intro hkeep
      apply wp_of_returns (ih h hknown)
      intro _ g₁ h₁
      have hstay (j : Nat) (hj : g.hasVertex j = true) :
          (j ∈ ids → j ∈ selected) ↔ (j ∈ id :: ids → j ∈ selected) := by
        rw [List.mem_cons]
        constructor
        · intro hmem hcons
          rcases hcons with rfl | hcons
          · exact Classical.byContradiction fun hnot => hkeep ⟨hj, hnot⟩
          · exact hmem hcons
        · intro hcons hmem
          exact hcons (Or.inr hmem)
      refine ⟨h₁.wf, h₁.known, h₁.next, fun j => ?_, fun s j => ?_⟩
      · rw [h₁.live]
        exact and_congr_right fun hj => hstay j hj
      · rw [h₁.names]
        exact and_congr_right fun hs => hstay j (h.names.live s j hs)

theorem xgInducedSubgraph_run (h : Intact g) (ids : List Nat)
    (hlive : ∀ id ∈ ids, g.hasVertex id = true) :
    ∃ r, (xgInducedSubgraph (ids.map some)).run g = .ok r g ∧ Restricted (· ∈ ids) g r := by
  obtain ⟨c, hclone, hcloned⟩ := xgClone_run h true
  have hclive : c.hasVertex = g.hasVertex := congrArg View.live hcloned.view
  have hcnames : c.vertexIdsByName = g.vertexIdsByName := congrArg View.idOf hcloned.view
  have hcnext : c.nextVertexId = g.nextVertexId := congrArg View.nextId hcloned.view
  have hwf : WF c := hcloned.intact.wf hcloned.flags.2.2
  obtain ⟨selected, hselect, hselected⟩ := selectVertices_run hcloned.intact ids
    (by rw [hclive]; exact hlive) []
  have hstay (j : Nat) (hj : g.hasVertex j = true) : (j ∈ c.allIds → j ∈ selected) ↔ j ∈ ids := by
    have hcj : c.hasVertex j = true := by rw [hclive, hj]
    have hmem := hcloned.intact.mem_allIds hcj
    simp only [hmem, true_implies, hselected, List.not_mem_nil, or_false]
  apply exists_run
  rw [xgInducedSubgraph, returns, wp_bind, h.requireUsable, wp_bind, wp_of_run hclone, wp_bind,
    wp_onGraph, wp_bind, wp_of_run hselect]
  apply wp_of_returns (deleteOthers_spec hwf hcloned.intact.known selected c.allIds)
  intro _ r hr
  refine ⟨rfl, hr.wf, hr.known, hr.next.trans hcnext, fun j => ?_, fun s j => ?_⟩
  · rw [hr.live, hclive]
    exact and_congr_right fun hj => hstay j hj
  · rw [hr.names, hcnames]
    exact and_congr_right fun hs => hstay j (h.names.live s j hs)

end XPerl.XGraph
