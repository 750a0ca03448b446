import XPerl.XGraph.Vertices

/-! Edges come and go in both directions at once. -/

namespace XPerl.XGraph

open XPerl.Framework Exec

variable {g g' : Graph}

/-- Lists may be allocated or grow; nothing else happens. -/
structure Resized (g g' : Graph) : Prop where
  frame : SameFrame g g'
  outOk : ∀ u, (g'.out u).Ok
  inOk : ∀ v, (g'.inn v).Ok
  outs : ∀ u, outs g' u = outs g u
  ins : ∀ v, ins g' v = ins g v
  edges : g'.liveEdges = g.liveEdges

theorem Resized.wf (h : WF g) (hr : Resized g g') : WF g' := by
  apply h.of_frame hr.frame
  apply h.topology.congr hr.outOk hr.inOk hr.outs hr.ins
  · intro id hid
    rw [hr.frame.live, hid]
  · rw [hr.frame.labelsById]
  · exact hr.edges

theorem Resized.view (hr : Resized g g') : g'.view = g.view := by
  have hfields : g'.view = ⟨g'.hasVertex, XGraph.outs g', XGraph.ins g', g'.nextVertexId,
      g'.vertexNamesById, g'.vertexIdsByName, g'.labelsById, g'.labelIdsByName⟩ := rfl
  rw [hfields, funext hr.frame.live, funext hr.outs, funext hr.ins, hr.frame.next,
    hr.frame.vertexNamesById, hr.frame.vertexIdsByName, hr.frame.labelsById,
    hr.frame.labelIdsByName]
  rfl

variable {g'' : Graph} {id : Nat} {read : Graph → AdjList} {write : Graph → AdjList → Graph}
  {f : AdjList → Option AdjList} {Q : Unit → Graph → Prop} {E : XgError → Graph → Prop}

theorem Resized.trans (h : Resized g g') (h' : Resized g' g'') : Resized g g'' where
  frame := h.frame.trans h'.frame
  outOk := h'.outOk
  inOk := h'.inOk
  outs := fun u => (h'.outs u).trans (h.outs u)
  ins := fun v => (h'.ins v).trans (h.ins v)
  edges := h'.edges.trans h.edges

theorem Resized.refl (h : WF g) : Resized g g :=
  ⟨SameFrame.refl g, h.topology.outOk, h.topology.inOk, fun _ => rfl, fun _ => rfl, rfl⟩

variable {list : AdjList} {u v l : Nat}

theorem resized_setOut (h : WF g) (hok : list.Ok)
    (hsame : list.entries = outs g id) : Resized g (g.setOut id list) where
  frame := SameFrame.setOut g id list
  outOk := by
    intro u
    rw [out_setOut]
    by_cases hu : u = id
    · rw [if_pos hu]
      exact hok
    · rw [if_neg hu]
      exact h.topology.outOk u
  inOk := by
    intro v
    rw [inn_setOut]
    exact h.topology.inOk v
  outs := by
    intro u
    rw [outs, out_setOut]
    by_cases hu : u = id
    · rw [if_pos hu, hu]
      exact hsame
    · rw [if_neg hu]
      rfl
  ins := fun v => congrArg AdjList.entries (inn_setOut g id v list)
  edges := rfl

theorem resized_setIn (h : WF g) (hok : list.Ok)
    (hsame : list.entries = ins g id) : Resized g (g.setIn id list) where
  frame := SameFrame.setIn g id list
  outOk := by
    intro u
    rw [out_setIn]
    exact h.topology.outOk u
  inOk := by
    intro v
    rw [inn_setIn]
    by_cases hv : v = id
    · rw [if_pos hv]
      exact hok
    · rw [if_neg hv]
      exact h.topology.inOk v
  outs := fun u => congrArg AdjList.entries (out_setIn g id u list)
  ins := by
    intro v
    rw [ins, inn_setIn]
    by_cases hv : v = id
    · rw [if_pos hv, hv]
      exact hsame
    · rw [if_neg hv]
      rfl
  edges := rfl

theorem ensureOut_resized (h : WF g) (id : Nat) : Resized g (g.ensureOut id) := by
  cases hlist : (g.vertices id).outList with
  | some list =>
    have heq : g.ensureOut id = g := by simp [Graph.ensureOut, hlist]
    rw [heq]
    exact Resized.refl h
  | none =>
    have heq : g.ensureOut id = g.setOut id xgAdjNew := by simp [Graph.ensureOut, hlist]
    rw [heq]
    apply resized_setOut h xgAdjNew_ok
    simp [outs, Graph.out, hlist]

theorem ensureIn_resized (h : WF g) (id : Nat) : Resized g (g.ensureIn id) := by
  cases hlist : (g.vertices id).inList with
  | some list =>
    have heq : g.ensureIn id = g := by simp [Graph.ensureIn, hlist]
    rw [heq]
    exact Resized.refl h
  | none =>
    have heq : g.ensureIn id = g.setIn id xgAdjNew := by simp [Graph.ensureIn, hlist]
    rw [heq]
    apply resized_setIn h xgAdjNew_ok
    simp [ins, Graph.inn, hlist]

/-- The graph gained the edge from `u` to `v` with label `l`. -/
structure EdgeAdded (u v l : Nat) (g g' : Graph) : Prop where
  frame : SameFrame g g'
  outOk : ∀ u, (g'.out u).Ok
  inOk : ∀ v, (g'.inn v).Ok
  outs : ∀ x e, e ∈ outs g' x ↔ (x = u ∧ e = xgPack v l) ∨ e ∈ outs g x
  ins : ∀ y e, e ∈ ins g' y ↔ (y = v ∧ e = xgPack u l) ∨ e ∈ ins g y
  edges : g'.liveEdges = g.liveEdges + 1

theorem EdgeAdded.wf (h : WF g) (ha : EdgeAdded u v l g g')
    (hu : g.hasVertex u = true) (hv : g.hasVertex v = true) (hl : l < g.labelsById.length)
    (hnew : xgPack v l ∉ XGraph.outs g u) : WF g' := by
  have hlmax : l ≤ maxLabelId := by
    have hlimit := h.labels.limit
    omega
  have hfu := h.table.fits hu hlmax
  have hfv := h.table.fits hv hlmax
  apply h.of_frame ha.frame
  refine ⟨ha.outOk, ha.inOk, ?_, ?_, ?_, ?_, ?_, ?_, ?_⟩
  · intro x e he
    rcases (ha.outs x e).1 he with ⟨-, rfl⟩ | he
    · exact xgPack_lt hfv
    · exact h.topology.outWord x e he
  · intro y e he
    rcases (ha.ins y e).1 he with ⟨-, rfl⟩ | he
    · exact xgPack_lt hfu
    · exact h.topology.inWord y e he
  · intro x y k hx hy
    rw [ha.outs, ha.ins, h.topology.mirror x y k hx hy]
    apply or_congr_left
    constructor
    · intro hedge
      obtain ⟨hy', hk⟩ := xgPack_inj hy hfv hedge.2
      exact ⟨hy', by rw [hedge.1, hk]⟩
    · intro hedge
      obtain ⟨hx', hk⟩ := xgPack_inj hx hfu hedge.2
      exact ⟨hx', by rw [hedge.1, hk]⟩
  · intro x e he
    rw [ha.frame.live, ha.frame.live]
    rcases (ha.outs x e).1 he with ⟨rfl, rfl⟩ | he
    · rw [xgEntryVertex_pack hfv]
      exact ⟨hu, hv⟩
    · exact h.topology.outEnds x e he
  · intro y e he
    rw [ha.frame.live, ha.frame.live]
    rcases (ha.ins y e).1 he with ⟨rfl, rfl⟩ | he
    · rw [xgEntryVertex_pack hfu]
      exact ⟨hv, hu⟩
    · exact h.topology.inEnds y e he
  · intro x e he
    rw [ha.frame.labelsById]
    rcases (ha.outs x e).1 he with ⟨-, rfl⟩ | he
    · rw [xgEntryLabel_pack hfv]
      exact hl
    · exact h.topology.labels x e he
  · rw [ha.edges]
    apply h.topology.edges.insert (x := (u, xgPack v l)) hnew
    intro p
    rw [ha.outs, Prod.ext_iff]

theorem wp_updateList_some (hf : f (read g) = some list) :
    wp (updateList read write f) g Q E ↔ Q () (write g list) := by
  simp only [updateList, wp_bind, wp_get, hf, wp_modify]

theorem wp_updateList_none (hf : f (read g) = none) :
    wp (updateList read write f) g Q E ↔ E (.allocationFailed "adjacency list is too large") g := by
  simp only [updateList, wp_bind, wp_get, hf, wp_throw]

/-- What stops an edge between live vertices whose label has an ID. -/
def Refused (g : Graph) (u v l : Nat) : Prop :=
  xgPack v l ∈ outs g u ∨ 2 ^ 31 ≤ (outs g u).length ∨ 2 ^ 31 ≤ (ins g v).length

private theorem insertBoth_spec (h : WF g) (hu : g.hasVertex u = true)
    (hv : g.hasVertex v = true) (hl : l < g.labelsById.length) (hnew : xgPack v l ∉ outs g u)
    (houtRoom : (g.out u).entries.length + 1 ≤ (g.out u).capacity)
    (hinRoom : (g.inn v).entries.length + 1 ≤ (g.inn v).capacity) :
    ∃ lo li, (g.out u).insert (xgPack v l) = some lo ∧
      ((g.setOut u lo).inn v).insert (xgPack u l) = some li ∧
      EdgeAdded u v l g
        (Graph.touchTopology { (g.setOut u lo).setIn v li with liveEdges := g.liveEdges + 1 }) := by
  have hlmax : l ≤ maxLabelId := by
    have hlimit := h.labels.limit
    omega
  have hnewIn : xgPack u l ∉ (g.inn v).entries := fun hmem =>
    hnew ((h.topology.mirror u v l (h.table.fits hu hlmax) (h.table.fits hv hlmax)).2 hmem)
  obtain ⟨lo, hlo, hloOk, hloMem, -⟩ := AdjList.insert_spec (h.topology.outOk u) hnew houtRoom
  obtain ⟨li, hli, hliOk, hliMem, -⟩ := AdjList.insert_spec (h.topology.inOk v) hnewIn hinRoom
  refine ⟨lo, li, hlo, by rw [inn_setOut]; exact hli, ?_, ?_, ?_, ?_, ?_, rfl⟩
  · exact (((SameFrame.setOut g u lo).trans (SameFrame.setIn _ v li)).withEdges _).touched
  · intro x
    change (((g.setOut u lo).setIn v li).out x).Ok
    rw [out_setIn, out_setOut]
    by_cases hx : x = u
    · rw [if_pos hx]
      exact hloOk
    · rw [if_neg hx]
      exact h.topology.outOk x
  · intro y
    change (((g.setOut u lo).setIn v li).inn y).Ok
    rw [inn_setIn, inn_setOut]
    by_cases hy : y = v
    · rw [if_pos hy]
      exact hliOk
    · rw [if_neg hy]
      exact h.topology.inOk y
  · intro x e
    change e ∈ (((g.setOut u lo).setIn v li).out x).entries ↔ _
    rw [out_setIn, out_setOut]
    by_cases hx : x = u
    · rw [if_pos hx, hloMem, hx]
      simp [outs]
    · rw [if_neg hx]
      simp [outs, hx]
  · intro y e
    change e ∈ (((g.setOut u lo).setIn v li).inn y).entries ↔ _
    rw [inn_setIn, inn_setOut]
    by_cases hy : y = v
    · rw [if_pos hy, hliMem, hy]
      simp [ins]
    · rw [if_neg hy]
      simp [ins, hy]

theorem EdgeAdded.of_resized (hr : Resized g g')
    (ha : EdgeAdded u v l g' g'') : EdgeAdded u v l g g'' where
  frame := hr.frame.trans ha.frame
  outOk := ha.outOk
  inOk := ha.inOk
  outs := fun x e => by rw [ha.outs, hr.outs]
  ins := fun y e => by rw [ha.ins, hr.ins]
  edges := by rw [ha.edges, hr.edges]

theorem installEdge_spec (h : WF g) (hu : g.hasVertex u = true)
    (hv : g.hasVertex v = true) (hl : l < g.labelsById.length) :
    wp (installEdge u v l) g
      (fun _ g' => EdgeAdded u v l g g' ∧ ¬ Refused g u v l)
      (fun _ g' => Resized g g' ∧ Refused g u v l) := by
  have hr₁ := ensureOut_resized h u
  have hr₂ := hr₁.trans (ensureIn_resized (hr₁.wf h) v)
  have h₂ := hr₂.wf h
  rw [installEdge]
  simp only [wp_bind, wp_get, wp_modify, wp_throwIf]
  have hholds : ((((g.ensureOut u).ensureIn v).out u).holds (xgPack v l) = true) ↔
      xgPack v l ∈ outs g u := by
    rw [AdjList.holds_iff (h₂.topology.outOk u), ← hr₂.outs u]
    rfl
  refine ⟨fun hdup => ⟨hr₂, Or.inl (hholds.1 hdup)⟩, fun hfree => ?_⟩
  have hnew : xgPack v l ∉ outs g u := fun hmem => hfree (hholds.2 hmem)
  generalize (g.ensureOut u).ensureIn v = g₂ at hr₂ h₂ ⊢
  have houtLen : (g₂.out u).entries.length = (outs g u).length := congrArg List.length (hr₂.outs u)
  -- the first reservation
  cases hlo : (g₂.out u).reserve ((g₂.out u).entries.length + 1) with
  | none =>
    rw [wp_updateList_none hlo]
    have hfull := AdjList.reserve_none (h₂.topology.outOk u) hlo
    exact ⟨hr₂, Or.inr (Or.inl (by omega))⟩
  | some lo =>
    rw [wp_updateList_some hlo]
    obtain ⟨hloOk, hloSame, hloRoom, hloMax⟩ := AdjList.reserve_some (h₂.topology.outOk u) hlo
    have hr₃ := hr₂.trans (resized_setOut h₂ hloOk hloSame)
    have h₃ := hr₃.wf h
    have houtRoom : ((g₂.setOut u lo).out u).entries.length + 1 ≤
        ((g₂.setOut u lo).out u).capacity := by
      rw [out_setOut, if_pos rfl, hloSame]
      exact hloRoom
    generalize g₂.setOut u lo = g₃ at hr₃ h₃ houtRoom ⊢
    have hinLen : (g₃.inn v).entries.length = (ins g v).length := congrArg List.length (hr₃.ins v)
    -- the second reservation
    cases hli : (g₃.inn v).reserve ((g₃.inn v).entries.length + 1) with
    | none =>
      rw [wp_updateList_none hli]
      have hfull := AdjList.reserve_none (h₃.topology.inOk v) hli
      exact ⟨hr₃, Or.inr (Or.inr (by omega))⟩
    | some li =>
      rw [wp_updateList_some hli]
      obtain ⟨hliOk, hliSame, hliRoom, hliMax⟩ := AdjList.reserve_some (h₃.topology.inOk v) hli
      have hr₄ := hr₃.trans (resized_setIn h₃ hliOk hliSame)
      have h₄ := hr₄.wf h
      have hinRoom : ((g₃.setIn v li).inn v).entries.length + 1 ≤
          ((g₃.setIn v li).inn v).capacity := by
        rw [inn_setIn, if_pos rfl, hliSame]
        exact hliRoom
      have houtRoom' : ((g₃.setIn v li).out u).entries.length + 1 ≤
          ((g₃.setIn v li).out u).capacity := by
        rw [out_setIn]
        exact houtRoom
      generalize g₃.setIn v li = g₄ at hr₄ h₄ hinRoom houtRoom' ⊢
      have hu₄ : g₄.hasVertex u = true := by rw [hr₄.frame.live, hu]
      have hv₄ : g₄.hasVertex v = true := by rw [hr₄.frame.live, hv]
      have hl₄ : l < g₄.labelsById.length := by rw [hr₄.frame.labelsById]; exact hl
      have hnew₄ : xgPack v l ∉ outs g₄ u := by rw [hr₄.outs]; exact hnew
      obtain ⟨lo', li', hlo', hli', hadded⟩ :=
        insertBoth_spec h₄ hu₄ hv₄ hl₄ hnew₄ houtRoom' hinRoom
      rw [wp_updateList_some hlo', wp_updateList_some hli']
      refine ⟨EdgeAdded.of_resized hr₄ hadded, ?_⟩
      intro hrefused
      rcases hrefused with hdup | hfull | hfull
      · exact hnew hdup
      · omega
      · omega

/-- What makes an edge that cannot be stored leave its label behind: every check passes, the label
is new, and one of the two lists has as many entries as a list can have. -/
structure LeaksLabel (g : Graph) (u v : Nat) (label : Value) : Prop where
  source : g.hasVertex u = true
  target : g.hasVertex v = true
  acyclic : ¬ (g.acyclic = true ∧ (u = v ∨ xgReaches g v u = true))
  lenient : g.strictLabels = false
  room : g.labelsById.length ≤ maxLabelId
  fresh : FreshLabel g label
  full : 2 ^ 31 ≤ (outs g u).length ∨ 2 ^ 31 ≤ (ins g v).length

private theorem view_intern_ne {s : Str} (hr : Resized (g.internLabel s).touchNames g') :
    g'.view ≠ g.view := by
  intro hsame
  rw [hr.view] at hsame
  have hlabels : g.labelsById ++ [some s] = g.labelsById := congrArg View.labels hsame
  have hlen := congrArg List.length hlabels
  rw [List.length_append, List.length_singleton] at hlen
  omega

theorem xgAddEdge_spec (h : WF g) (u v : Nat) (label : Value) :
    wp (xgAddEdge u v label) g (fun _ g' => Kept g g' ∧ ¬ LeaksLabel g u v label)
      (fun _ g' => Kept g g' ∧ (g'.view = g.view ↔ ¬ LeaksLabel g u v label)) := by
  have hthrown (hno : ¬ LeaksLabel g u v label) :
      Kept g g ∧ (g.view = g.view ↔ ¬ LeaksLabel g u v label) :=
    ⟨⟨h, Nat.le_refl _⟩, fun _ => hno, fun _ => rfl⟩
  rw [xgAddEdge, wp_bind, wp_requireMutable h, wp_bind]
  apply wp_normalizeLabel label
  · intro normalized hlabel
    rw [← hlabel, wp_bind, wp_requireVertex]
    refine ⟨fun hu => hthrown (fun hl => by rw [hl.source] at hu; cases hu), fun hu => ?_⟩
    rw [wp_bind, wp_requireVertex]
    refine ⟨fun hv => hthrown (fun hl => by rw [hl.target] at hv; cases hv), fun hv => ?_⟩
    have hu' : g.hasVertex u = true := by simpa using hu
    have hv' : g.hasVertex v = true := by simpa using hv
    rw [wp_bind, wp_get, wp_bind, wp_throwIf]
    refine ⟨fun hcycle => hthrown (fun hl => hl.acyclic hcycle), fun hacyclic => ?_⟩
    rw [wp_bind]
    apply wp_mono (xgLabelId_spec h label 0)
    · intro lid g₁ hinterned
      have h₁ := hinterned.wf h
      cases hinterned with
      | unknown hneg => exact absurd hneg (by decide)
      | known hpos hlt hold =>
        have hno : ¬ LeaksLabel g u v label := fun hl => hold hl.fresh
        apply wp_mono (installEdge_spec h hu' hv' hlt)
        · intro _ g' hadded
          obtain ⟨hadded, hfree⟩ := hadded
          have hnew : xgPack v lid ∉ outs g u := fun hmem => hfree (Or.inl hmem)
          exact ⟨⟨hadded.wf h hu' hv' hlt hnew, Nat.le_of_eq hadded.frame.next.symm⟩, hno⟩
        · intro _ g' hrefused
          obtain ⟨hresized, -⟩ := hrefused
          exact ⟨⟨hresized.wf h, Nat.le_of_eq hresized.frame.next.symm⟩, fun _ => hno,
            fun _ => hresized.view⟩
      | @fresh s _ hstrict hstr hne hnone hlimit =>
        have hlt : g.labelsById.length < (g.internLabel s).touchNames.labelsById.length := by
          simp [Graph.touchNames, Graph.internLabel]
        apply wp_mono (installEdge_spec h₁ hu' hv' hlt)
        · intro _ g' hadded
          obtain ⟨hadded, hfree⟩ := hadded
          have hnew : xgPack v g.labelsById.length ∉ outs (g.internLabel s).touchNames u :=
            fun hmem => hfree (Or.inl hmem)
          exact ⟨⟨hadded.wf h₁ hu' hv' hlt hnew, Nat.le_of_eq hadded.frame.next.symm⟩,
            fun hl => hfree (Or.inr hl.full)⟩
        · intro _ g' hrefused
          obtain ⟨hresized, hrefused⟩ := hrefused
          have hfull : 2 ^ 31 ≤ (outs g u).length ∨ 2 ^ 31 ≤ (ins g v).length := by
            rcases hrefused with hdup | hfull
            · -- no edge has a label that was only just given an ID
              have hlab := h.topology.labels u _ hdup
              rw [xgEntryLabel_pack (h.table.fits hv' hlimit)] at hlab
              exact absurd hlab (Nat.lt_irrefl _)
            · exact hfull
          have hleak : LeaksLabel g u v label :=
            ⟨hu', hv', hacyclic, by simpa using hstrict, hlimit, ⟨s, hstr, hne, hnone⟩, hfull⟩
          exact ⟨⟨hresized.wf h₁, Nat.le_of_eq hresized.frame.next.symm⟩,
            fun hsame => absurd hsame (view_intern_ne hresized), fun hno => absurd hleak hno⟩
    · intro e g₁ hrefused
      obtain ⟨rfl, hrefused⟩ := hrefused
      apply hthrown
      intro hl
      rcases hrefused hl.fresh with hstrict | hlimit
      · rw [hl.lenient] at hstrict
        cases hstrict
      · exact absurd hlimit (Nat.not_lt.2 hl.room)
  · intro e hno
    apply hthrown
    intro hl
    obtain ⟨s, hs, -⟩ := hl.fresh
    exact hno s hs

end XPerl.XGraph
