import XPerl.Framework.Multigraph
import XPerl.XGraph.TopologicalSort

/-! Depth-first orders, and the tests for trees, which count instead of searching for cycles. -/

namespace XPerl.XGraph

open XPerl.Framework Exec DepthFirst Multigraph Relation

def xgLoopVertices : XgM (List Nat) := do
  xgRequireUsable
  let graph ← get
  return graph.allIds.filter fun id =>
    graph.hasVertex id && (graph.out id).entries.any (xgEntryVertex · == id)

def xgIsTree : XgM Bool := do
  xgRequireUsable
  let graph ← get
  if graph.liveVertices = 0 ∨ graph.liveEdges ≠ graph.liveVertices - 1 then return false
  else
    let loops ← xgLoopVertices
    if loops ≠ [] then return false
    else
      let components ← xgComponents false false
      return components.length == 1

/-- The loop for the root, which is 0 until one is found; `none` is an early return. -/
def findRoot (graph : Graph) : List Nat → Nat → Option Nat
  | [], root => some root
  | id :: ids, root =>
    if graph.hasVertex id = false then findRoot graph ids root
    else if graph.degree id false = 0 then
      if root ≠ 0 then none else findRoot graph ids id
    else if graph.degree id false ≠ 1 then none
    else findRoot graph ids root

/-- `xg_is_arborescence`; the answer 1 comes with the root, `none` is 0. -/
def xgIsArborescence : XgM (Option Nat) := do
  xgRequireUsable
  let graph ← get
  if graph.liveVertices = 0 ∨ graph.liveEdges ≠ graph.liveVertices - 1 then return none
  else
    match findRoot graph graph.allIds 0 with
    | none => return none
    | some root =>
      if root = 0 then return none
      else
        let reachable ← xgReachable root false false
        return if reachable.length ≠ graph.liveVertices then none else some root

variable {g : Graph}

abbrev Edge := Nat × Nat × Nat

def Graph.HasEdge (g : Graph) (t : Edge) : Prop := g.Outgoing t.1 t.2.1 t.2.2

def Graph.Leads (g : Graph) (t : Edge) (u v : Nat) : Prop := g.HasEdge t ∧ t.1 = u ∧ t.2.1 = v

def Graph.Spans (g : Graph) (t : Edge) (u v : Nat) : Prop :=
  g.HasEdge t ∧ Joins (·.1) (·.2.1) t u v

/-- A graph that is connected and has no cycle when directions are ignored. -/
structure IsTree (g : Graph) : Prop where
  nonempty : ∃ v, g.hasVertex v = true
  connected : ∀ u v, g.hasVertex u = true → g.hasVertex v = true → ∃ es, Route g.Spans u es v
  acyclic : ∀ u es, Route g.Spans u es u → es.Nodup → es = []

/-- A vertex that reaches every vertex by exactly one directed walk. -/
def IsRoot (g : Graph) (root : Nat) : Prop :=
  g.hasVertex root = true ∧ ∀ v, g.hasVertex v = true → ∃ es, Route g.Leads root es v ∧
    ∀ es', Route g.Leads root es' v → es' = es

theorem Intact.edges (h : Intact g) : Counted g.HasEdge g.liveEdges := h.inStep.edges

variable {u v root : Nat}

theorem adjacent_iff_leads : g.Adjacent u v ↔ ∃ t, g.Leads t u v := by
  constructor
  · intro hedge
    obtain ⟨l, hout⟩ := hedge
    exact ⟨(u, v, l), hout, rfl, rfl⟩
  · intro hleads
    obtain ⟨⟨a, b, l⟩, hout, rfl, rfl⟩ := hleads
    exact ⟨l, hout⟩

theorem Intact.leads_live (h : Intact g) {t : Edge} (ht : g.Leads t u v) :
    g.hasVertex u = true ∧ g.hasVertex v = true := by
  obtain ⟨hedge, rfl, rfl⟩ := ht
  exact h.inStep.ends _ _ _ hedge

theorem together_iff_spans :
    g.Together false u v ↔ ReflTransGen (fun u v => ∃ t, g.Spans t u v) u v := by
  have hstep : (fun u v => g.Adjacent u v ∨ g.Adjacent v u) = fun u v => ∃ t, g.Spans t u v := by
    funext u v
    rw [adjacent_iff_leads, adjacent_iff_leads, ← exists_or]
    apply propext
    refine exists_congr fun t => ?_
    rw [Graph.Leads, Graph.Leads, Graph.Spans, Joins]
    tauto
  rw [Graph.Together, if_neg Bool.false_ne_true, hstep]

theorem counted_into (h : Intact g) (v : Nat) :
    Counted (fun t => g.HasEdge t ∧ t.2.1 = v) (g.degree v false) := by
  refine ⟨(ins g v).map fun e => (xgEntryVertex e, v, xgEntryLabel e), ?_, fun t => ?_, ?_⟩
  · have hnodup : (ins g v).Nodup := (h.inStep.sortedIn v).imp fun hlt => Nat.ne_of_lt hlt
    refine hnodup.map_on fun a _ b _ heq => ?_
    simp only [Prod.mk.injEq, true_and, xgEntryVertex_eq, xgEntryLabel_eq] at heq
    omega
  · obtain ⟨u, w, l⟩ := t
    change _ ↔ g.Outgoing u w l ∧ w = v
    rw [List.mem_map, h.inStep.mirror]
    constructor
    · intro hmem
      obtain ⟨e, he, heq⟩ := hmem
      simp only [Prod.mk.injEq] at heq
      obtain ⟨rfl, rfl, rfl⟩ := heq
      exact ⟨⟨e, he, rfl, rfl⟩, rfl⟩
    · intro hmem
      obtain ⟨⟨e, he, hu, hl⟩, rfl⟩ := hmem
      exact ⟨e, he, by rw [hu, hl]⟩
  · rw [List.length_map]
    rfl

theorem crossing_eq {edges : List Edge} (hedges : ∀ t, t ∈ edges ↔ g.HasEdge t) :
    Crossing (fun t : Edge => t.1) (fun t => t.2.1) edges = g.Spans := by
  funext t u v
  rw [Crossing, hedges]
  rfl

theorem closedTrail_iff {edges : List Edge} (hedges : ∀ t, t ∈ edges ↔ g.HasEdge t) :
    ¬ ClosedTrail (fun t : Edge => t.1) (fun t => t.2.1) edges ↔
      ∀ u es, Route g.Spans u es u → es.Nodup → es = [] := by
  rw [ClosedTrail, crossing_eq hedges]
  constructor
  · intro hnone u es hroute hnodup
    apply Classical.byContradiction
    intro hne
    exact hnone ⟨u, es, hne, hnodup, hroute⟩
  · intro hall hsome
    obtain ⟨u, es, hne, hnodup, hroute⟩ := hsome
    exact hne (hall u es hroute hnodup)

theorem isTree_iff (h : Intact g) :
    IsTree g ↔ g.liveVertices ≠ 0 ∧ g.liveEdges = g.liveVertices - 1 ∧
      ∀ u v, g.hasVertex u = true → g.hasVertex v = true → g.Together false u v := by
  obtain ⟨edges, hnodup, hedges, hlength⟩ := h.edges
  have hends : ∀ t ∈ edges, t.1 ∈ g.liveIds ∧ t.2.1 ∈ g.liveIds := by
    intro t ht
    obtain ⟨hu, hv⟩ := h.inStep.ends _ _ _ ((hedges t).1 ht)
    exact ⟨h.mem_liveIds.2 hu, h.mem_liveIds.2 hv⟩
  have hempty : g.liveVertices ≠ 0 ↔ ∃ v, g.hasVertex v = true := by
    rw [← h.length_liveIds, ← Nat.pos_iff_ne_zero, List.length_pos_iff_exists_mem]
    simp only [h.mem_liveIds]
  have hroutes (u v : Nat) : (∃ es, Route g.Spans u es v) ↔ g.Together false u v := by
    rw [together_iff_spans]
    exact ⟨fun hes => hes.choose_spec.reaches, exists_route⟩
  have hcount (hne : g.liveVertices ≠ 0)
      (hconnected : ∀ u v, g.hasVertex u = true → g.hasVertex v = true →
        g.Together false u v) :
      g.liveEdges = g.liveVertices - 1 ↔
        ∀ u es, Route g.Spans u es u → es.Nodup → es = [] := by
    rw [← closedTrail_iff hedges, ← length_of_linked liveIds_nodup ?_ hnodup hends ?_, hlength,
      h.length_liveIds]
    · omega
    · intro hnil
      rw [← h.length_liveIds, hnil] at hne
      exact hne rfl
    · intro u hu v hv
      rw [Linked, crossing_eq hedges, ← together_iff_spans]
      exact hconnected u v (h.mem_liveIds.1 hu) (h.mem_liveIds.1 hv)
  constructor
  · intro htree
    have hne := hempty.2 htree.nonempty
    have hconnected : ∀ u v, g.hasVertex u = true → g.hasVertex v = true →
        g.Together false u v := fun u v hu hv => (hroutes u v).1 (htree.connected u v hu hv)
    exact ⟨hne, (hcount hne hconnected).2 htree.acyclic, hconnected⟩
  · intro htests
    obtain ⟨hne, hedges', hconnected⟩ := htests
    exact ⟨hempty.1 hne, fun u v hu hv => (hroutes u v).2 (hconnected u v hu hv),
      (hcount hne hconnected).1 hedges'⟩

theorem ComponentsOf.length_eq_one {cs : List (List Nat)} (hcs : ComponentsOf g false cs)
    (hne : ∃ v, g.hasVertex v = true) :
    cs.length = 1 ↔
      ∀ u v, g.hasVertex u = true → g.hasVertex v = true → g.Together false u v := by
  constructor
  · intro hone u v hu hv
    obtain ⟨c, rfl⟩ := List.length_eq_one_iff.1 hone
    have hall : ∀ w, g.hasVertex w = true → w ∈ c := by
      intro w hw
      obtain ⟨d, hd, hwd⟩ := hcs.cover w hw
      rwa [List.mem_singleton.1 hd] at hwd
    exact ((hcs.members c List.mem_cons_self u (hall u hu) v).1 (hall v hv)).2
  · intro hconnected
    obtain ⟨v, hv⟩ := hne
    obtain ⟨c, hc, -⟩ := hcs.cover v hv
    have hle := hcs.length_le_one hconnected
    have hpos := List.length_pos_of_mem hc
    omega

theorem xgLoopVertices_run (h : Intact g) :
    ∃ loops, xgLoopVertices.run g = .ok loops g ∧
      ∀ v, v ∈ loops ↔ g.Adjacent v v := by
  apply exists_run
  rw [xgLoopVertices, returns, wp_bind, h.requireUsable, wp_bind, wp_get, wp_pure]
  refine ⟨rfl, fun v => ?_⟩
  have hany : (g.out v).entries.any (xgEntryVertex · == v) = true ↔ g.Adjacent v v := by
    rw [adjacent_iff]
    simp [outs]
  rw [List.mem_filter, Bool.and_eq_true, hany]
  constructor
  · intro hv
    exact hv.2.2
  · intro hedge
    have hlive := (h.adjacent_live hedge).1
    exact ⟨h.mem_allIds hlive, hlive, hedge⟩

theorem xgIsTree_run (h : Intact g) :
    ∃ tree, xgIsTree.run g = .ok tree g ∧ (tree = true ↔ IsTree g) := by
  obtain ⟨loops, hloops, hmem⟩ := xgLoopVertices_run h
  obtain ⟨cs, hcs, hcomponents⟩ := xgComponents_run h false false
  apply exists_run
  rw [xgIsTree, returns, wp_bind, h.requireUsable, wp_bind, wp_get, wp_ite]
  constructor
  · intro hfew
    refine ⟨rfl, fun hfalse => Bool.noConfusion hfalse, fun htree => ?_⟩
    obtain ⟨hne, hedges, -⟩ := (isTree_iff h).1 htree
    exact absurd hfew (not_or.2 ⟨hne, not_not.2 hedges⟩)
  · intro hmany
    obtain ⟨hne, hedges⟩ := not_or.1 hmany
    rw [not_not] at hedges
    have hsome : ∃ v, g.hasVertex v = true := by
      rw [← h.length_liveIds] at hne
      obtain ⟨v, hv⟩ := List.exists_mem_of_ne_nil g.liveIds (by simpa using hne)
      exact ⟨v, h.mem_liveIds.1 hv⟩
    rw [wp_bind, wp_of_run hloops, wp_ite]
    constructor
    · intro hloop
      refine ⟨rfl, fun hfalse => Bool.noConfusion hfalse, fun htree => ?_⟩
      obtain ⟨v, hv⟩ := List.exists_mem_of_ne_nil loops hloop
      obtain ⟨l, hout⟩ := (hmem v).1 hv
      have hnil := htree.acyclic v [(v, v, l)] ⟨v, ⟨hout, Or.inl ⟨rfl, rfl⟩⟩, rfl⟩
        (List.nodup_singleton _)
      exact absurd hnil (List.cons_ne_nil _ _)
    · intro _
      rw [wp_bind, wp_of_run hcomponents, wp_pure]
      refine ⟨rfl, ?_⟩
      rw [beq_iff_eq, if_neg Bool.false_ne_true, hcs.length_eq_one hsome, isTree_iff h]
      exact ⟨fun hconnected => ⟨hne, hedges, hconnected⟩, fun htests => htests.2.2⟩

def sources (g : Graph) (ids : List Nat) : List Nat :=
  ids.filter fun id => g.hasVertex id && g.degree id false == 0

theorem findRoot_spec (ids : List Nat) (hpos : ∀ id ∈ ids, id ≠ 0) (root r : Nat) :
    findRoot g ids root = some r ↔
      (∀ id ∈ ids, g.hasVertex id = true → g.degree id false ≤ 1) ∧
        ((sources g ids = [] ∧ r = root) ∨ (root = 0 ∧ sources g ids = [r])) := by
  induction ids generalizing root with
  | nil =>
    have hsources : sources g [] = [] := rfl
    rw [findRoot, hsources, Option.some.injEq]
    constructor
    · intro heq
      exact ⟨fun id hid => absurd hid List.not_mem_nil, Or.inl ⟨rfl, heq.symm⟩⟩
    · intro hall
      rcases hall.2 with ⟨-, heq⟩ | ⟨-, heq⟩
      · exact heq.symm
      · cases heq
  | cons id ids ih =>
    have hrest := ih fun x hx => hpos x (List.mem_cons_of_mem id hx)
    rw [findRoot, List.forall_mem_cons]
    by_cases hlive : g.hasVertex id = true
    · rw [if_neg (by simp [hlive])]
      by_cases hzero : g.degree id false = 0
      · have hsources : sources g (id :: ids) = id :: sources g ids := by
          simp [sources, hlive, hzero]
        rw [if_pos hzero, hsources]
        by_cases hroot : root = 0
        · rw [if_neg (not_not.2 hroot), hrest]
          have hid := hpos id List.mem_cons_self
          simp only [hid, false_and, or_false, hroot, true_and, hzero, Nat.zero_le, implies_true,
            List.cons.injEq, reduceCtorEq, false_or]
          constructor
          · intro hall
            obtain ⟨hle, hnone, rfl⟩ := hall
            exact ⟨hle, rfl, hnone⟩
          · intro hall
            obtain ⟨hle, rfl, hnone⟩ := hall
            exact ⟨hle, hnone, rfl⟩
        · rw [if_pos hroot]
          simp [hroot]
      · have hsources : sources g (id :: ids) = sources g ids := by
          simp [sources, hzero]
        rw [if_neg hzero, hsources]
        by_cases hone : g.degree id false = 1
        · rw [if_neg (not_not.2 hone), hrest]
          simp [hone]
        · rw [if_pos hone]
          have hmany : ¬ g.degree id false ≤ 1 := by omega
          simp [hlive, hmany]
    · have hsources : sources g (id :: ids) = sources g ids := by
        simp [sources, hlive]
      rw [if_pos (by simpa using hlive), hrest, hsources]
      simp [hlive]

theorem mem_sources (h : Intact g) :
    v ∈ sources g g.allIds ↔ g.hasVertex v = true ∧ g.degree v false = 0 := by
  simp only [sources, List.mem_filter, Bool.and_eq_true, beq_iff_eq]
  exact ⟨fun hv => hv.2, fun hv => ⟨h.mem_allIds hv.1, hv⟩⟩

theorem degree_eq_zero (h : Intact g) :
    g.degree v false = 0 ↔ ∀ t u, ¬ g.Leads t u v := by
  have hcount := counted_into h v
  constructor
  · intro hzero t u hleads
    have hle := hcount.length_le (List.nodup_singleton t) fun a ha => by
      rw [List.mem_singleton.1 ha]
      exact ⟨hleads.1, hleads.2.2⟩
    rw [hzero, List.length_singleton] at hle
    omega
  · intro hnone
    exact hcount.unique (Counted.zero fun t ht => hnone t t.1 ⟨ht.1, rfl, ht.2⟩)

theorem degree_le_one (h : Intact g) :
    g.degree v false ≤ 1 ↔ ∀ t t' u u', g.Leads t u v → g.Leads t' u' v → t = t' ∧ u = u' := by
  have hcount := counted_into h v
  constructor
  · intro hle t t' u u' hleads hleads'
    have hsame : t = t' := by
      apply Classical.byContradiction
      intro hne
      have htwo := hcount.length_le (l := [t, t']) (by simp [hne]) fun a ha => by
        simp only [List.mem_cons, List.not_mem_nil, or_false] at ha
        rcases ha with rfl | rfl
        · exact ⟨hleads.1, hleads.2.2⟩
        · exact ⟨hleads'.1, hleads'.2.2⟩
      have hlength : [t, t'].length = 2 := rfl
      omega
    subst hsame
    exact ⟨rfl, hleads.2.1.symm.trans hleads'.2.1⟩
  · intro hone
    obtain ⟨l, hnodup, hmem, hlength⟩ := hcount
    rw [← hlength]
    cases l with
    | nil => exact Nat.zero_le 1
    | cons t l =>
      cases l with
      | nil => exact Nat.le_refl 1
      | cons t' l =>
        have ht := (hmem t).1 List.mem_cons_self
        have ht' := (hmem t').1 (List.mem_cons_of_mem t List.mem_cons_self)
        have hsame := (hone t t' t.1 t'.1 ⟨ht.1, rfl, ht.2⟩ ⟨ht'.1, rfl, ht'.2⟩).1
        exact absurd (hsame ▸ List.mem_cons_self) (List.nodup_cons.1 hnodup).1

theorem isRoot_iff (h : Intact g) :
    IsRoot g root ↔ g.hasVertex root = true ∧ g.degree root false = 0 ∧
      (∀ v, g.hasVertex v = true → g.degree v false ≤ 1) ∧
      ∀ v, g.hasVertex v = true → ReflTransGen g.Adjacent root v := by
  have hadjacent : g.Adjacent = fun u v => ∃ t, g.Leads t u v := by
    funext u v
    exact propext adjacent_iff_leads
  rw [hadjacent]
  constructor
  · intro hroot
    obtain ⟨hlive, hall⟩ := hroot
    have hextend {es : List Edge} {t : Edge} {u v : Nat} (hes : Route g.Leads root es u)
        (ht : g.Leads t u v) : Route g.Leads root (es ++ [t]) v := route_concat.2 ⟨u, hes, ht⟩
    refine ⟨hlive, (degree_eq_zero h).2 fun t u ht => ?_, fun v hv => (degree_le_one h).2
      fun t t' u u' ht ht' => ?_, fun v hv => ?_⟩
    · obtain ⟨es, hes, -⟩ := hall u (h.leads_live ht).1
      obtain ⟨only, -, honly⟩ := hall root hlive
      have heq := (honly _ (hextend hes ht)).trans (honly [] rfl).symm
      exact absurd heq (by simp)
    · obtain ⟨es, hes, -⟩ := hall u (h.leads_live ht).1
      obtain ⟨es', hes', -⟩ := hall u' (h.leads_live ht').1
      obtain ⟨only, -, honly⟩ := hall v hv
      have heq := (honly _ (hextend hes ht)).trans (honly _ (hextend hes' ht')).symm
      obtain ⟨-, hlast⟩ := List.append_inj' heq rfl
      have hsame : t = t' := by simpa using hlast
      exact ⟨hsame, by rw [← ht.2.1, ← ht'.2.1, hsame]⟩
    · obtain ⟨es, hes, -⟩ := hall v hv
      exact hes.reaches
  · intro htests
    obtain ⟨hlive, hzero, hone, hreach⟩ := htests
    refine ⟨hlive, fun v hv => ?_⟩
    obtain ⟨es, hes⟩ := exists_route (hreach v hv)
    refine ⟨es, hes, fun es' hes' => ?_⟩
    refine Route.unique ((degree_eq_zero h).1 hzero) (fun t t' u u' w ht ht' => ?_) hes' hes
    exact (degree_le_one h).1 (hone w (h.leads_live ht).2) t t' u u' ht ht'

theorem IsRoot.liveEdges (h : Intact g) (hroot : IsRoot g root) :
    g.liveVertices ≠ 0 ∧ g.liveEdges = g.liveVertices - 1 := by
  obtain ⟨hlive, hzero, hone, hreach⟩ := (isRoot_iff h).1 hroot
  obtain ⟨hothers, hpos⟩ := h.table.live.erase (Q := fun v => g.hasVertex v = true ∧ v ≠ root)
    hlive fun v => Iff.rfl
  have htargets : Counted (fun v => g.hasVertex v = true ∧ v ≠ root) g.liveEdges := by
    refine h.edges.map (fun t => t.2.1) (fun t t' ht ht' heq => ?_) fun v => ⟨fun hv => ?_, fun hv => ?_⟩
    · have hv := (h.inStep.ends _ _ _ ht).2
      exact ((degree_le_one h).1 (hone _ hv) t t' _ _ ⟨ht, rfl, rfl⟩ ⟨ht', rfl, heq.symm⟩).1
    · obtain ⟨hv, hne⟩ := hv
      rcases ReflTransGen.cases_tail (hreach v hv) with heq | ⟨u, -, hedge⟩
      · exact absurd heq hne
      · obtain ⟨t, ht⟩ := adjacent_iff_leads.1 hedge
        exact ⟨t, ht.1, ht.2.2⟩
    · obtain ⟨t, ht, rfl⟩ := hv
      refine ⟨(h.inStep.ends _ _ _ ht).2, fun heq => ?_⟩
      exact (degree_eq_zero h).1 hzero t t.1 ⟨ht, rfl, heq⟩
  exact ⟨Nat.pos_iff_ne_zero.1 hpos, htargets.unique hothers⟩

theorem IsRoot.sources (h : Intact g) (hroot : IsRoot g root) :
    sources g g.allIds = [root] := by
  obtain ⟨hlive, hzero, -, hreach⟩ := (isRoot_iff h).1 hroot
  have hnodup : (XGraph.sources g g.allIds).Nodup :=
    ((List.pairwise_lt_range' 1).sublist List.filter_sublist).imp fun hlt => Nat.ne_of_lt hlt
  have hperm : (XGraph.sources g g.allIds).Perm [root] := by
    rw [List.perm_ext_iff_of_nodup hnodup (List.nodup_singleton root)]
    intro v
    rw [mem_sources h, List.mem_singleton]
    constructor
    · intro hv
      rcases ReflTransGen.cases_tail (hreach v hv.1) with heq | ⟨u, -, hedge⟩
      · exact heq
      · obtain ⟨t, ht⟩ := adjacent_iff_leads.1 hedge
        exact absurd ht ((degree_eq_zero h).1 hv.2 t u)
    · intro hv
      rw [hv]
      exact ⟨hlive, hzero⟩
  exact List.perm_singleton.1 hperm

theorem Intact.length_eq_live (h : Intact g) {reached : List Nat} (hnodup : reached.Nodup)
    (hlive : ∀ v ∈ reached, g.hasVertex v = true) :
    reached.length = g.liveVertices ↔ ∀ v, g.hasVertex v = true → v ∈ reached := by
  constructor
  · intro hlength v hv
    have hsub := hnodup.subperm fun v hv => h.mem_liveIds.2 (hlive v hv)
    have hperm := hsub.perm_of_length_le (by rw [hlength, h.length_liveIds])
    exact hperm.mem_iff.2 (h.mem_liveIds.2 hv)
  · intro hall
    exact Counted.unique ⟨reached, hnodup, fun v => ⟨hlive v, hall v⟩, rfl⟩ h.table.live

theorem xgIsArborescence_run (h : Intact g) :
    ∃ answer, xgIsArborescence.run g = .ok answer g ∧ ∀ root, answer = some root ↔ IsRoot g root := by
  have hpos : ∀ id ∈ g.allIds, id ≠ 0 := by
    intro id hid
    have hone := (List.mem_range'_1.1 hid).1
    omega
  apply exists_run
  rw [xgIsArborescence, returns, wp_bind, h.requireUsable, wp_bind, wp_get, wp_ite]
  have hno (hnone : ∀ root, ¬ IsRoot g root) (root : Nat) :
      (none : Option Nat) = some root ↔ IsRoot g root :=
    ⟨fun hfalse => absurd hfalse.symm (Option.some_ne_none root),
      fun hroot => absurd hroot (hnone root)⟩
  constructor
  · intro hfew
    refine ⟨rfl, hno fun root hroot => ?_⟩
    obtain ⟨hne, hedges⟩ := hroot.liveEdges h
    exact not_or.2 ⟨hne, not_not.2 hedges⟩ hfew
  · intro _
    have hfound : ∀ root, IsRoot g root → findRoot g g.allIds 0 = some root := fun root hroot =>
      (findRoot_spec g.allIds hpos 0 root).2
        ⟨fun id _ => ((isRoot_iff h).1 hroot).2.2.1 id, Or.inr ⟨rfl, hroot.sources h⟩⟩
    cases hfind : findRoot g g.allIds 0 with
    | none =>
      refine ⟨rfl, hno fun root hroot => ?_⟩
      rw [hfound root hroot] at hfind
      cases hfind
    | some root =>
      have honly : ∀ r, IsRoot g r → r = root := fun r hr =>
        Option.some.inj ((hfound r hr).symm.trans hfind)
      obtain ⟨hone, hroots⟩ := (findRoot_spec g.allIds hpos 0 root).1 hfind
      rw [wp_ite]
      constructor
      · intro hzero
        refine ⟨rfl, hno fun r hr => ?_⟩
        exact hasVertex_pos hr.1 ((honly r hr).trans hzero)
      · intro hne
        have hsource : root ∈ sources g g.allIds := by
          rcases hroots with ⟨-, hzero⟩ | ⟨-, heq⟩
          · exact absurd hzero hne
          · rw [heq]
            exact List.mem_singleton_self root
        obtain ⟨hlive, hzero⟩ := (mem_sources h).1 hsource
        obtain ⟨reached, hreached, hsorted, hmem⟩ := xgReachable_run h hlive false
        have hroot : IsRoot g root ↔ reached.length = g.liveVertices := by
          rw [h.length_eq_live (hsorted.imp fun hlt => Nat.ne_of_lt hlt)
            fun v hv => h.reached_live hlive ((hmem v).1 hv), isRoot_iff h]
          constructor
          · intro htests v hv
            exact (hmem v).2 (htests.2.2.2 v hv)
          · intro hall
            exact ⟨hlive, hzero, fun v hv => hone v (h.mem_allIds hv) hv,
              fun v hv => (hmem v).1 (hall v hv)⟩
        rw [wp_bind, wp_of_run hreached, wp_pure]
        refine ⟨rfl, fun r => ?_⟩
        by_cases hall : reached.length = g.liveVertices
        · rw [if_neg (not_not.2 hall), Option.some.injEq]
          constructor
          · intro heq
            exact heq ▸ hroot.2 hall
          · intro hr
            exact (honly r hr).symm
        · rw [if_pos hall]
          exact hno (fun x hx => hall (hroot.1 (honly x hx ▸ hx))) r

/-- The depth-first orders are those of the recursive search, and the tests for trees hold exactly
for trees and for arborescences. -/
theorem depth_first_and_trees (h : Intact g) :
    (∀ start incoming, g.hasVertex start = true → ∃ forest seen reached,
      Dfs (neighbours g incoming) [start] [] forest seen ∧
      (∀ forest' seen', Dfs (neighbours g incoming) [start] [] forest' seen' →
        forest' = forest) ∧
      (∀ postorder, (xgDfsOrder start incoming postorder).run g =
        .ok (forest.order postorder) g) ∧
      (xgReachable start incoming false).run g = .ok reached g ∧
      ∀ postorder v, v ∈ forest.order postorder ↔ v ∈ reached) ∧
    (∀ u incoming, (walkList g u incoming).Pairwise (· < ·)) ∧
    (∃ tree, xgIsTree.run g = .ok tree g ∧ (tree = true ↔ IsTree g)) ∧
    ∃ answer, xgIsArborescence.run g = .ok answer g ∧
      (answer ≠ none ↔ ∃ root, IsRoot g root) ∧ ∀ root, answer = some root → IsRoot g root := by
  refine ⟨fun start incoming hstart => ?_, fun u incoming => ?_, xgIsTree_run h, ?_⟩
  · obtain ⟨forest, seen, hdfs, horder⟩ := xgDfsOrder_run h hstart incoming
    obtain ⟨reached, hreached, -, hmem⟩ := xgReachable_run h hstart incoming
    refine ⟨forest, seen, reached, hdfs, fun _ _ hdfs' => (hdfs'.unique hdfs).1, horder, hreached,
      fun postorder v => ?_⟩
    rw [mem_order, hdfs.mem_preorder_iff, follows_eq h, hmem]
    simp
  · cases incoming with
    | false => exact h.inStep.sortedOut u
    | true => exact h.inStep.sortedIn u
  · obtain ⟨answer, hanswer, hroot⟩ := xgIsArborescence_run h
    refine ⟨answer, hanswer, ?_, fun root => (hroot root).1⟩
    rw [Option.ne_none_iff_exists']
    exact exists_congr hroot

theorem depth_first_and_trees_twoCycle :
    (∃ forest seen reached, Dfs (neighbours twoCycle false) [1] [] forest seen ∧
      (∀ forest' seen', Dfs (neighbours twoCycle false) [1] [] forest' seen' →
        forest' = forest) ∧
      (∀ postorder, (xgDfsOrder 1 false postorder).run twoCycle =
        .ok (forest.order postorder) twoCycle) ∧
      (xgReachable 1 false false).run twoCycle = .ok reached twoCycle ∧
      ∀ postorder v, v ∈ forest.order postorder ↔ v ∈ reached) ∧
    (∃ tree, xgIsTree.run twoCycle = .ok tree twoCycle ∧ (tree = true ↔ IsTree twoCycle)) ∧
    ∃ answer, xgIsArborescence.run twoCycle = .ok answer twoCycle ∧
      (answer ≠ none ↔ ∃ root, IsRoot twoCycle root) :=
  have h := depth_first_and_trees twoCycle_intact
  have htests := h.2.2
  ⟨h.1 1 false rfl, htests.1, htests.2.imp fun _ hanswer => ⟨hanswer.1, hanswer.2.1⟩⟩

end XPerl.XGraph
