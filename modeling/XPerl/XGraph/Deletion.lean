import XPerl.XGraph.Edges

/-! Edges and vertices go, with both entries of every edge. -/

namespace XPerl.XGraph

open XPerl.Framework Exec XGraph.Graph

variable {g g' : Graph}

/-- The graph lost the edge from `u` to `v` with label `l`. -/
structure EdgeGone (u v l : Nat) (g g' : Graph) : Prop where
  frame : SameFrame g g'
  outOk : ∀ u, (g'.out u).Ok
  inOk : ∀ v, (g'.inn v).Ok
  outs : ∀ x e, e ∈ outs g' x ↔ e ∈ outs g x ∧ ¬ (x = u ∧ e = xgPack v l)
  ins : ∀ y e, e ∈ ins g' y ↔ e ∈ ins g y ∧ ¬ (y = v ∧ e = xgPack u l)
  edges : g'.liveEdges = g.liveEdges - 1

variable {u v l e id : Nat}

theorem EdgeGone.wf (h : WF g) (ha : EdgeGone u v l g g') (hfu : Fits u l)
    (hfv : Fits v l) (hold : xgPack v l ∈ XGraph.outs g u) : WF g' := by
  have hsub (x e : Nat) (he : e ∈ XGraph.outs g' x) : e ∈ XGraph.outs g x := ((ha.outs x e).1 he).1
  have hsub' (y e : Nat) (he : e ∈ XGraph.ins g' y) : e ∈ XGraph.ins g y := ((ha.ins y e).1 he).1
  apply h.of_frame ha.frame
  refine ⟨ha.outOk, ha.inOk, ?_, ?_, ?_, ?_, ?_, ?_, ?_⟩
  · intro x e he
    exact h.topology.outWord x e (hsub x e he)
  · intro y e he
    exact h.topology.inWord y e (hsub' y e he)
  · intro x y k hx hy
    rw [ha.outs, ha.ins, h.topology.mirror x y k hx hy]
    apply and_congr_right'
    apply not_congr
    constructor
    · intro hedge
      obtain ⟨hy', hk⟩ := xgPack_inj hy hfv hedge.2
      exact ⟨hy', by rw [hedge.1, hk]⟩
    · intro hedge
      obtain ⟨hx', hk⟩ := xgPack_inj hx hfu hedge.2
      exact ⟨hx', by rw [hedge.1, hk]⟩
  · intro x e he
    rw [ha.frame.live, ha.frame.live]
    exact h.topology.outEnds x e (hsub x e he)
  · intro y e he
    rw [ha.frame.live, ha.frame.live]
    exact h.topology.inEnds y e (hsub' y e he)
  · intro x e he
    rw [ha.frame.labelsById]
    exact h.topology.labels x e (hsub x e he)
  · rw [ha.edges]
    apply (h.topology.edges.erase (x := (u, xgPack v l)) hold ?_).1
    intro p
    rw [ha.outs, ne_eq, Prod.ext_iff]

theorem removedBoth_spec (h : WF g) (hfu : Fits u l) (hfv : Fits v l)
    (hold : xgPack v l ∈ outs g u) :
    ∃ lo li, (g.out u).remove (xgPack v l) = some lo ∧
      (g.inn v).remove (xgPack u l) = some li ∧
      EdgeGone u v l g { (g.setOut u lo).setIn v li with liveEdges := g.liveEdges - 1 } ∧
      EdgeGone u v l g { (g.setIn v li).setOut u lo with liveEdges := g.liveEdges - 1 } ∧
      lo.entries.length + 1 = (g.out u).entries.length ∧
      li.entries.length + 1 = (g.inn v).entries.length := by
  have holdIn : xgPack u l ∈ (g.inn v).entries := (h.topology.mirror u v l hfu hfv).1 hold
  obtain ⟨lo, hlo, hloOk, hloMem, hloLen⟩ := AdjList.remove_spec (h.topology.outOk u) hold
  obtain ⟨li, hli, hliOk, hliMem, hliLen⟩ := AdjList.remove_spec (h.topology.inOk v) holdIn
  have hout (x : Nat) : ((g.setOut u lo).setIn v li).out x = (if x = u then lo else g.out x) := by
    rw [out_setIn, out_setOut]
  have hinn (y : Nat) : ((g.setOut u lo).setIn v li).inn y = (if y = v then li else g.inn y) := by
    rw [inn_setIn, inn_setOut]
  have hout' (x : Nat) : ((g.setIn v li).setOut u lo).out x = (if x = u then lo else g.out x) := by
    rw [out_setOut, out_setIn]
  have hinn' (y : Nat) : ((g.setIn v li).setOut u lo).inn y = (if y = v then li else g.inn y) := by
    rw [inn_setOut, inn_setIn]
  have hgone (g' : Graph) (hframe : SameFrame g g')
      (hout : ∀ x, g'.out x = if x = u then lo else g.out x)
      (hinn : ∀ y, g'.inn y = if y = v then li else g.inn y) :
      EdgeGone u v l g { g' with liveEdges := g.liveEdges - 1 } := by
    refine ⟨hframe.withEdges _, ?_, ?_, ?_, ?_, rfl⟩
    · intro x
      change (g'.out x).Ok
      rw [hout]
      by_cases hx : x = u
      · rw [if_pos hx]
        exact hloOk
      · rw [if_neg hx]
        exact h.topology.outOk x
    · intro y
      change (g'.inn y).Ok
      rw [hinn]
      by_cases hy : y = v
      · rw [if_pos hy]
        exact hliOk
      · rw [if_neg hy]
        exact h.topology.inOk y
    · intro x e
      change e ∈ (g'.out x).entries ↔ _
      rw [hout]
      by_cases hx : x = u
      · rw [if_pos hx, hloMem, hx]
        simp [outs]
      · rw [if_neg hx]
        simp [outs, hx]
    · intro y e
      change e ∈ (g'.inn y).entries ↔ _
      rw [hinn]
      by_cases hy : y = v
      · rw [if_pos hy, hliMem, hy]
        simp [ins]
      · rw [if_neg hy]
        simp [ins, hy]
  refine ⟨lo, li, hlo, hli, hgone _ ?_ hout hinn, hgone _ ?_ hout' hinn', hloLen, hliLen⟩
  · exact (SameFrame.setOut g u lo).trans (SameFrame.setIn _ v li)
  · exact (SameFrame.setIn g v li).trans (SameFrame.setOut _ u lo)

theorem outList_of_mem (he : e ∈ outs g u) :
    (g.vertices u).outList = some (g.out u) := by
  cases hlist : (g.vertices u).outList with
  | none =>
    have hnil : outs g u = [] := by simp [outs, out, hlist, xgAdjNew]
    rw [hnil] at he
    cases he
  | some list => simp [out, hlist]

theorem inList_of_mem (he : e ∈ ins g v) :
    (g.vertices v).inList = some (g.inn v) := by
  cases hlist : (g.vertices v).inList with
  | none =>
    have hnil : ins g v = [] := by simp [ins, inn, hlist, xgAdjNew]
    rw [hnil] at he
    cases he
  | some list => simp [inn, hlist]

theorem WF.touched (h : WF g) : WF g.touchTopology :=
  ⟨h.usable, h.topology.congr h.topology.outOk h.topology.inOk (fun _ => rfl) (fun _ => rfl)
    (fun _ hid => hid) (Nat.le_refl _) rfl,
    ⟨h.table.capacity, h.table.next, h.table.below, h.table.live⟩,
    ⟨h.names.inverse, h.names.live⟩, ⟨h.labels.reserved, h.labels.limit, h.labels.inverse⟩⟩

theorem xgDeleteEdge_spec (h : WF g) (u v : Nat) (label : Value) :
    wp (xgDeleteEdge u v label) g (fun _ g' => Kept g g') (fun _ g' => g' = g) := by
  have hsame : Kept g g := ⟨h, Nat.le_refl _⟩
  rw [xgDeleteEdge, wp_bind, wp_requireMutable h, wp_bind, wp_requireVertex]
  refine ⟨fun _ => rfl, fun hu => ?_⟩
  rw [wp_bind, wp_requireVertex]
  refine ⟨fun _ => rfl, fun hv => ?_⟩
  have hu' : g.hasVertex u = true := by simpa using hu
  have hv' : g.hasVertex v = true := by simpa using hv
  rw [wp_bind]
  apply wp_mono (xgLabelId_spec h label (-1))
  · intro lid g₁ hinterned
    -- lookup mode changes nothing
    have hlookup : g₁ = g ∧ lid < g.labelsById.length := by
      cases hinterned with
      | unknown =>
        have hreserved := h.labels.reserved_lt
        exact ⟨rfl, by omega⟩
      | known hpos hlt _ => exact ⟨rfl, hlt⟩
      | fresh hdeclare => exact absurd (by decide) hdeclare
    obtain ⟨rfl, hlt⟩ := hlookup
    rw [wp_ite]
    refine ⟨fun _ => hsame, fun _ => ?_⟩
    have hlmax : lid ≤ maxLabelId := by
      have hlimit := h.labels.limit
      omega
    rw [wp_bind, wp_get]
    by_cases hold : xgPack v lid ∈ outs g₁ u
    · have hfu := h.table.fits hu' hlmax
      have hfv := h.table.fits hv' hlmax
      have holdIn := (h.topology.mirror u v lid hfu hfv).1 hold
      obtain ⟨lo, li, hlo, hli, hgone, -⟩ := removedBoth_spec h hfu hfv hold
      rw [outList_of_mem hold, inList_of_mem holdIn]
      simp only [hlo, hli, wp_bind, wp_modify, wp_pure]
      exact ⟨(hgone.wf h hfu hfv hold).touched, Nat.le_of_eq hgone.frame.next.symm⟩
    · cases hout : (g₁.vertices u).outList with
      | none => exact hsame
      | some lo =>
        cases hin : (g₁.vertices v).inList with
        | none => exact hsame
        | some li =>
          have hnone : lo.remove (xgPack v lid) = none := by
            have hremove := AdjList.remove_none (h.topology.outOk u) hold
            simpa [out, hout] using hremove
          simp only [hnone]
          exact hsame
  · intro e g₁ hrefused
    exact hrefused.1

private theorem dropOuts_spec (id rounds : Nat) (h : WF g) (hrounds : (outs g id).length ≤ rounds) :
    returns (dropOuts id rounds) g fun _ g' =>
      WF g' ∧ SameFrame g g' ∧ outs g' id = [] := by
  induction rounds generalizing g with
  | zero =>
    exact ⟨h, SameFrame.refl g, List.length_eq_zero_iff.1 (Nat.le_zero.1 hrounds)⟩
  | succ rounds ih =>
    rw [dropOuts, returns, wp_bind, wp_get]
    cases hentries : (g.out id).entries with
    | nil => exact ⟨h, SameFrame.refl g, hentries⟩
    | cons e rest =>
      have hmem : e ∈ outs g id := by
        rw [outs, hentries]
        exact List.mem_cons_self
      have hword := h.topology.outWord id e hmem
      have hfu := h.topology.source_fits h.table hmem
      have hfv := fits_of_word hword
      have hpack := xgPack_word hword
      have hold : xgPack (xgEntryVertex e) (xgEntryLabel e) ∈ outs g id := by rw [hpack]; exact hmem
      have holdIn := (h.topology.mirror id _ _ hfu hfv).1 hold
      obtain ⟨lo, li, hlo, hli, -, hgone, hloLen, -⟩ := removedBoth_spec h hfu hfv hold
      rw [hpack] at hlo
      have hlo' : ((g.setIn (xgEntryVertex e) li).out id).removed e = lo := by
        rw [out_setIn, AdjList.removed, hlo]
        rfl
      have hmem' : e ∈ outs (g.setIn (xgEntryVertex e) li) id := by
        rw [outs, out_setIn]
        exact hmem
      have hli' : (g.inn (xgEntryVertex e)).removed (xgPack id (xgEntryLabel e)) = li := by
        rw [AdjList.removed, hli]
        rfl
      simp only [modifyIn, modifyOut, dropEdge, wp_bind, wp_get, inList_of_mem holdIn, wp_modify,
        hli', outList_of_mem hmem', hlo']
      have hlen : (outs { (g.setIn (xgEntryVertex e) li).setOut id lo with
          liveEdges := g.liveEdges - 1 } id).length ≤ rounds := by
        have hout : outs { (g.setIn (xgEntryVertex e) li).setOut id lo with
            liveEdges := g.liveEdges - 1 } id = lo.entries := by
          change (((g.setIn (xgEntryVertex e) li).setOut id lo).out id).entries = _
          rw [out_setOut, if_pos rfl]
        rw [hout]
        change (g.out id).entries.length ≤ rounds + 1 at hrounds
        omega
      have hwf := hgone.wf h hfu hfv hold
      apply wp_of_returns (ih hwf hlen)
      intro _ g' hg'
      exact ⟨hg'.1, hgone.frame.trans hg'.2.1, hg'.2.2⟩

private theorem dropIns_spec (id rounds : Nat) (h : WF g) (hrounds : (ins g id).length ≤ rounds)
    (hnoOut : outs g id = []) :
    returns (dropIns id rounds) g fun _ g' =>
      WF g' ∧ SameFrame g g' ∧ ins g' id = [] ∧ outs g' id = [] := by
  induction rounds generalizing g with
  | zero =>
    exact ⟨h, SameFrame.refl g, List.length_eq_zero_iff.1 (Nat.le_zero.1 hrounds), hnoOut⟩
  | succ rounds ih =>
    rw [dropIns, returns, wp_bind, wp_get]
    cases hentries : (g.inn id).entries with
    | nil => exact ⟨h, SameFrame.refl g, hentries, hnoOut⟩
    | cons e rest =>
      have hmem : e ∈ ins g id := by
        rw [ins, hentries]
        exact List.mem_cons_self
      have hword := h.topology.inWord id e hmem
      have hfv := h.topology.target_fits h.table hmem
      have hfu := fits_of_word hword
      have hpack := xgPack_word hword
      have holdIn : xgPack (xgEntryVertex e) (xgEntryLabel e) ∈ ins g id := by rw [hpack]; exact hmem
      have hold := (h.topology.mirror _ id _ hfu hfv).2 holdIn
      obtain ⟨lo, li, hlo, hli, hgone, -, -, hliLen⟩ := removedBoth_spec h hfu hfv hold
      rw [hpack] at hli
      have hli' : ((g.setOut (xgEntryVertex e) lo).inn id).removed e = li := by
        rw [inn_setOut, AdjList.removed, hli]
        rfl
      have hmem' : e ∈ ins (g.setOut (xgEntryVertex e) lo) id := by
        rw [ins, inn_setOut]
        exact hmem
      have hlo' : (g.out (xgEntryVertex e)).removed (xgPack id (xgEntryLabel e)) = lo := by
        rw [AdjList.removed, hlo]
        rfl
      simp only [modifyIn, modifyOut, dropEdge, wp_bind, wp_get, outList_of_mem hold, wp_modify,
        hlo', inList_of_mem hmem', hli']
      have hlen : (ins { (g.setOut (xgEntryVertex e) lo).setIn id li with
          liveEdges := g.liveEdges - 1 } id).length ≤ rounds := by
        have hin : ins { (g.setOut (xgEntryVertex e) lo).setIn id li with
            liveEdges := g.liveEdges - 1 } id = li.entries := by
          change (((g.setOut (xgEntryVertex e) lo).setIn id li).inn id).entries = _
          rw [inn_setIn, if_pos rfl]
        rw [hin]
        change (g.inn id).entries.length ≤ rounds + 1 at hrounds
        omega
      have hnoOut' : outs { (g.setOut (xgEntryVertex e) lo).setIn id li with
          liveEdges := g.liveEdges - 1 } id = [] := by
        apply List.eq_nil_iff_forall_not_mem.2
        intro e' he'
        have hmem := ((hgone.outs id e').1 he').1
        rw [hnoOut] at hmem
        cases hmem
      have hwf := hgone.wf h hfu hfv hold
      apply wp_of_returns (ih hwf hlen hnoOut')
      intro _ g' hg'
      exact ⟨hg'.1, hgone.frame.trans hg'.2.1, hg'.2.2⟩

def Graph.kill (g : Graph) (id : Nat) : Graph :=
  Graph.touchTopology { g.setVertex id { g.vertices id with live := false } with
    liveVertices := g.liveVertices - 1 }

private theorem hasVertex_kill (g : Graph) (id j : Nat) :
    (g.kill id).hasVertex j = true ↔ g.hasVertex j = true ∧ j ≠ id := by
  by_cases hj : j = id
  · simp [hasVertex, kill, touchTopology, setVertex, hj]
  · have hsame : (g.kill id).vertices j = g.vertices j := by
      simp [kill, touchTopology, setVertex, hj]
    have heq : (g.kill id).hasVertex j = g.hasVertex j := by
      rw [hasVertex, hsame]
      rfl
    simp [heq, hj]

private theorem out_kill (g : Graph) (id j : Nat) : (g.kill id).out j = g.out j := by
  by_cases hj : j = id
  · simp [out, kill, touchTopology, setVertex, hj]
  · simp [out, kill, touchTopology, setVertex, hj]

private theorem inn_kill (g : Graph) (id j : Nat) : (g.kill id).inn j = g.inn j := by
  by_cases hj : j = id
  · simp [inn, kill, touchTopology, setVertex, hj]
  · simp [inn, kill, touchTopology, setVertex, hj]

theorem kill_wf (h : WF g) (hlive : g.hasVertex id = true) (hnoOut : outs g id = [])
    (hnoIn : ins g id = []) (hunnamed : g.vertexNamesById id = none) : WF (g.kill id) := by
  have hkill := hasVertex_kill g id
  -- an entry that names the dead vertex would have its mirror image in an empty list
  have houtEnd (u e : Nat) (he : e ∈ outs g u) : u ≠ id ∧ xgEntryVertex e ≠ id := by
    constructor
    · intro hu
      rw [hu, hnoOut] at he
      cases he
    · intro hv
      have hword := h.topology.outWord u e he
      have hpack := xgPack_word hword
      have hmirror := (h.topology.mirror u _ _ (h.topology.source_fits h.table he)
        (fits_of_word hword)).1 (by rw [hpack]; exact he)
      rw [hv, hnoIn] at hmirror
      cases hmirror
  have hinEnd (v e : Nat) (he : e ∈ ins g v) : v ≠ id ∧ xgEntryVertex e ≠ id := by
    constructor
    · intro hv
      rw [hv, hnoIn] at he
      cases he
    · intro hu
      have hword := h.topology.inWord v e he
      have hpack := xgPack_word hword
      have hmirror := (h.topology.mirror _ v _ (fits_of_word hword)
        (h.topology.target_fits h.table he)).2 (by rw [hpack]; exact he)
      rw [hu, hnoOut] at hmirror
      cases hmirror
  have houts : ∀ u, outs (g.kill id) u = outs g u :=
    fun u => congrArg AdjList.entries (out_kill g id u)
  have hins : ∀ v, ins (g.kill id) v = ins g v :=
    fun v => congrArg AdjList.entries (inn_kill g id v)
  refine ⟨h.usable, ⟨?_, ?_, ?_, ?_, ?_, ?_, ?_, ?_, ?_⟩,
    ⟨h.table.capacity, h.table.next, ?_, ?_⟩, ⟨h.names.inverse, ?_⟩,
    ⟨h.labels.reserved, h.labels.limit, h.labels.inverse⟩⟩
  · intro u
    rw [out_kill]
    exact h.topology.outOk u
  · intro v
    rw [inn_kill]
    exact h.topology.inOk v
  · intro u e he
    rw [houts] at he
    exact h.topology.outWord u e he
  · intro v e he
    rw [hins] at he
    exact h.topology.inWord v e he
  · intro u v l hu hv
    rw [houts, hins]
    exact h.topology.mirror u v l hu hv
  · intro u e he
    rw [houts] at he
    obtain ⟨hu, hv⟩ := h.topology.outEnds u e he
    obtain ⟨hu', hv'⟩ := houtEnd u e he
    exact ⟨(hkill u).2 ⟨hu, hu'⟩, (hkill _).2 ⟨hv, hv'⟩⟩
  · intro v e he
    rw [hins] at he
    obtain ⟨hv, hu⟩ := h.topology.inEnds v e he
    obtain ⟨hv', hu'⟩ := hinEnd v e he
    exact ⟨(hkill v).2 ⟨hv, hv'⟩, (hkill _).2 ⟨hu, hu'⟩⟩
  · intro u e he
    rw [houts] at he
    exact h.topology.labels u e he
  · exact h.topology.edges.congr (fun p => by rw [houts])
  · intro j hj
    exact h.table.below j ((hkill j).1 hj).1
  · exact (h.table.live.erase hlive hkill).1
  · intro s j hs
    refine (hkill j).2 ⟨h.names.live s j hs, ?_⟩
    intro hj
    rw [hj] at hs
    have hname := (h.names.inverse s id).1 hs
    rw [hunnamed] at hname
    cases hname

/-- A vertex that is gone, with its edges and its name. -/
structure VertexGone (id : Nat) (g g' : Graph) : Prop where
  wf : WF g'
  next : g'.nextVertexId = g.nextVertexId
  live : ∀ j, g'.hasVertex j = true ↔ g.hasVertex j = true ∧ j ≠ id
  names : ∀ s j, g'.vertexIdsByName s = some j ↔ g.vertexIdsByName s = some j ∧ j ≠ id

theorem xgDeleteVertex_effect (h : WF g) (hlive : g.hasVertex id = true) :
    returns (xgDeleteVertex id) g fun _ g' => VertexGone id g g' := by
  rw [xgDeleteVertex, returns, wp_bind, wp_requireMutable h, wp_bind, wp_get, wp_ite]
  refine ⟨fun hdead => absurd (hlive.symm.trans hdead) Bool.noConfusion, fun _ => ?_⟩
  rw [wp_bind]
  apply wp_of_returns (dropOuts_spec id _ h (Nat.le_refl _))
  intro _ g₁ hg₁
  obtain ⟨h₁, hframe₁, hnoOut₁⟩ := hg₁
  rw [wp_bind, wp_get, wp_bind]
  apply wp_of_returns (dropIns_spec id _ h₁ (Nat.le_refl _) hnoOut₁)
  intro _ g₂ hg₂
  obtain ⟨h₂, hframe₂, hnoIn₂, hnoOut₂⟩ := hg₂
  have hframe := hframe₁.trans hframe₂
  have hlive₂ : g₂.hasVertex id = true := by rw [hframe.live, hlive]
  have hkilled (j : Nat) : (g₂.kill id).hasVertex j = true ↔ g.hasVertex j = true ∧ j ≠ id := by
    rw [hasVertex_kill, hframe.live]
  rw [wp_bind, wp_get]
  cases hname : g₂.vertexNamesById id with
  | none =>
    simp only [wp_bind, wp_modify, wp_pure]
    refine ⟨kill_wf h₂ hlive₂ hnoOut₂ hnoIn₂ hname, hframe.next, hkilled, fun s j => ?_⟩
    change g₂.vertexIdsByName s = some j ↔ _
    rw [hframe.vertexIdsByName]
    refine ⟨fun hs => ⟨hs, fun hj => ?_⟩, fun hs => hs.1⟩
    rw [← hframe.vertexIdsByName, h₂.names.inverse, hj, hname] at hs
    cases hs
  | some t =>
    simp only [wp_bind, wp_modify, wp_pure]
    have hnames := deleteName_names h₂.names hname
    have h₃ : WF (g₂.deleteName id t).touchNames := h₂.of_names hnames.touch ⟨_, _, _, rfl⟩
    refine ⟨kill_wf h₃ hlive₂ hnoOut₂ hnoIn₂ ?_, hframe.next, hkilled, fun s j => ?_⟩
    · simp [touchNames, deleteName]
    · change (Function.update g₂.vertexIdsByName t none) s = some j ↔ _
      have htid : g₂.vertexIdsByName t = some id := (h₂.names.inverse t id).2 hname
      rw [← hframe.vertexIdsByName]
      by_cases hst : s = t
      · rw [hst, Function.update_self, htid]
        simp [eq_comm]
      · rw [Function.update_of_ne hst]
        refine ⟨fun hs => ⟨hs, fun hj => hst ?_⟩, fun hs => hs.1⟩
        have hsame := (h₂.names.inverse s j).1 hs
        rw [hj, hname] at hsame
        exact (Option.some.inj hsame).symm

theorem xgDeleteVertex_spec (h : WF g) (id : Nat) :
    wp (xgDeleteVertex id) g (fun _ g' => Kept g g') (fun _ g' => g' = g) := by
  by_cases hlive : g.hasVertex id = true
  · apply wp_of_returns (xgDeleteVertex_effect h hlive)
    intro _ g' hgone
    exact ⟨hgone.wf, Nat.le_of_eq hgone.next.symm⟩
  · rw [xgDeleteVertex, wp_bind, wp_requireMutable h, wp_bind, wp_get, wp_ite]
    exact ⟨fun _ => ⟨h, Nat.le_refl _⟩, fun hdead => absurd (by simpa using hlive) hdead⟩

end XPerl.XGraph
