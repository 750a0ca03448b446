import XPerl.XGraph.Deletion

/-! Every mutation but the insertion of an edge leaves at most the edges that were there. -/

namespace XPerl.XGraph

open XPerl.Framework Exec

variable {g g' : Graph}

/-- The mode stays, labels keep their IDs and no edge comes. -/
structure Thinned (g g' : Graph) : Prop where
  acyclic : g'.acyclic = g.acyclic
  labels : ∃ names : List Str, g'.labelsById = g.labelsById ++ names.map some
  outs : ∀ u, outs g' u ⊆ outs g u

theorem sameLabels (h : g'.labelsById = g.labelsById) :
    ∃ names : List Str, g'.labelsById = g.labelsById ++ names.map some :=
  ⟨[], by rw [h, List.map_nil, List.append_nil]⟩

theorem isDrift_thinned : IsDrift Thinned where
  refl := fun _ => ⟨rfl, sameLabels rfl, fun _ => List.Subset.refl _⟩
  trans := by
    intro g g' g'' h h'
    obtain ⟨names, hnames⟩ := h.labels
    obtain ⟨names', hnames'⟩ := h'.labels
    refine ⟨h'.acyclic.trans h.acyclic, ⟨names ++ names', ?_⟩,
      fun u => List.Subset.trans (h'.outs u) (h.outs u)⟩
    rw [hnames', hnames, List.map_append, List.append_assoc]

theorem thinned_of_vertices (hacyclic : g'.acyclic = g.acyclic)
    (hvertices : g'.vertices = g.vertices) (hlabels : g'.labelsById = g.labelsById) :
    Thinned g g' := by
  refine ⟨hacyclic, sameLabels hlabels, fun u => ?_⟩
  rw [outs, Graph.out, hvertices]
  exact List.Subset.refl _

variable {id entry : Nat} {list list' : AdjList}

theorem thinned_setOut (h : list.entries ⊆ outs g id) :
    Thinned g (g.setOut id list) := by
  refine ⟨rfl, sameLabels rfl, fun u => ?_⟩
  rw [outs, out_setOut]
  by_cases hu : u = id
  · rw [if_pos hu, hu]
    exact h
  · rw [if_neg hu]
    exact List.Subset.refl _

theorem thinned_setIn (id : Nat) (list : AdjList) : Thinned g (g.setIn id list) := by
  refine ⟨rfl, sameLabels rfl, fun u => ?_⟩
  rw [outs, out_setIn]
  exact List.Subset.refl _

theorem thinned_setLive (id : Nat) (live : Bool) :
    Thinned g (g.setVertex id { g.vertices id with live := live }) := by
  refine ⟨rfl, sameLabels rfl, fun u => ?_⟩
  have hout : (g.setVertex id { g.vertices id with live := live }).out u = g.out u := by
    by_cases hu : u = id
    · simp [Graph.out, Graph.setVertex, hu]
    · simp [Graph.out, Graph.setVertex, hu]
  rw [outs, hout]
  exact List.Subset.refl _

theorem thinned_liven (id : Nat) : Thinned g (g.liven id) :=
  isDrift_thinned.trans (thinned_setLive id true) (thinned_of_vertices rfl rfl rfl)

theorem thinned_growTable (id : Nat) : Thinned g (g.growTable id) := by
  rw [Graph.growTable]
  by_cases hroom : id < g.vertexCapacity
  · rw [if_pos hroom]
    exact isDrift_thinned.refl g
  · rw [if_neg hroom]
    refine ⟨rfl, sameLabels rfl, fun u e he => ?_⟩
    by_cases hu : u < g.vertexCapacity
    · simpa [outs, Graph.out, hu] using he
    · simp [outs, Graph.out, hu, xgAdjNew] at he

theorem remove_subset
    (hremove : list.remove entry = some list') : list'.entries ⊆ list.entries := by
  rw [AdjList.remove] at hremove
  by_cases hholds : list.holds entry
  · rw [if_pos hholds] at hremove
    obtain rfl := Option.some.inj hremove
    exact (List.eraseIdx_sublist _ _).subset
  · rw [if_neg hholds] at hremove
    cases hremove

theorem thins_requireUsable : Drifts Thinned xgRequireUsable g :=
  drifts_get_bind (drifts_throwIf isDrift_thinned _ _)

theorem thins_requireMutable : Drifts Thinned xgRequireMutable g :=
  drifts_bind isDrift_thinned thins_requireUsable
    fun _ _ => drifts_get_bind (drifts_throwIf isDrift_thinned _ _)

theorem thins_requireVertex (id : Nat) : Drifts Thinned (xgRequireVertex id) g :=
  drifts_get_bind (drifts_throwIf isDrift_thinned _ _)

theorem thins_normalizeName (name : Value) : Drifts Thinned (xgNormalizeName name) g := by
  cases name with
  | undef => exact drifts_pure isDrift_thinned _
  | ref => exact drifts_throw isDrift_thinned _
  | dies => exact drifts_throw isDrift_thinned _
  | str s => exact drifts_pure isDrift_thinned _

theorem thins_normalizeLabel (label : Value) : Drifts Thinned (xgNormalizeLabel label) g := by
  cases label with
  | ref => exact drifts_throw isDrift_thinned _
  | undef => exact thins_normalizeName .undef
  | dies => exact thins_normalizeName .dies
  | str s => exact thins_normalizeName (.str s)

theorem thinned_addLive (hacyclic : g'.acyclic = g.acyclic) (hvertices : g'.vertices = g.vertices)
    (hlabels : g'.labelsById = g.labelsById) (id : Nat) :
    Thinned g ((g'.growTable id).liven id) := by
  have hgrown := isDrift_thinned.trans (thinned_of_vertices hacyclic hvertices hlabels)
    (thinned_growTable id)
  exact isDrift_thinned.trans hgrown (thinned_liven id)

theorem thins_addVertex (name : Value) : Drifts Thinned (xgAddVertex name) g := by
  rw [xgAddVertex]
  apply drifts_bind isDrift_thinned thins_requireMutable
  intro _ g₁
  apply drifts_bind isDrift_thinned (thins_normalizeName name)
  intro normalized g₂
  have hrefl := isDrift_thinned.refl g₂
  have hnext : Thinned g₂ { g₂ with nextVertexId := g₂.nextVertexId + 1 } :=
    thinned_of_vertices rfl rfl rfl
  have hlive := isDrift_thinned.trans hnext (thinned_addLive rfl rfl rfl g₂.nextVertexId)
  cases normalized with
  | none =>
    simp only [Drifts, wp_bind, wp_get, wp_pure, wp_throwIf, xgVertexCapacity, wp_modify]
    exact ⟨fun _ => hrefl, fun _ => isDrift_thinned.trans hlive (thinned_of_vertices rfl rfl rfl)⟩
  | some s =>
    simp only [Drifts, wp_bind, wp_get, wp_pure, wp_throwIf, xgVertexCapacity, wp_modify]
    exact ⟨fun _ => hrefl, fun _ => ⟨fun _ => hrefl,
      fun _ => isDrift_thinned.trans hlive (thinned_of_vertices rfl rfl rfl)⟩⟩

theorem thins_addVertexId (id : Nat) : Drifts Thinned (xgAddVertexId id) g := by
  rw [xgAddVertexId]
  apply drifts_bind isDrift_thinned thins_requireMutable
  intro _ g₁
  apply drifts_bind isDrift_thinned (drifts_throwIf isDrift_thinned _ _)
  intro _ g₂
  have hlive := thinned_addLive (g := g₂) rfl rfl rfl id
  simp only [Drifts, wp_bind, wp_get, wp_throwIf, xgVertexCapacity, wp_modify]
  refine ⟨fun _ => isDrift_thinned.refl g₂, fun _ => ?_⟩
  by_cases hnext : id ≥ ((g₂.growTable id).liven id).nextVertexId
  · rw [if_pos hnext]
    exact isDrift_thinned.trans hlive (thinned_of_vertices rfl rfl rfl)
  · rw [if_neg hnext]
    exact isDrift_thinned.trans hlive (thinned_of_vertices rfl rfl rfl)

theorem thins_renameVertex (id : Nat) (name : Value) :
    Drifts Thinned (xgRenameVertex id name) g := by
  rw [xgRenameVertex]
  apply drifts_bind isDrift_thinned thins_requireMutable
  intro _ g₁
  apply drifts_bind isDrift_thinned (thins_requireVertex id)
  intro _ g₂
  apply drifts_bind isDrift_thinned (thins_normalizeName name)
  intro normalized g₃
  apply drifts_get_bind
  have hrefl := isDrift_thinned.refl g₃
  -- what follows changes names only
  have hnames (g₄ : Graph) (hacyclic : g₄.acyclic = g₃.acyclic)
      (hvertices : g₄.vertices = g₃.vertices) (hlabels : g₄.labelsById = g₃.labelsById) :
      Thinned g₃ g₄ := thinned_of_vertices hacyclic hvertices hlabels
  cases normalized with
  | none =>
    cases hname : g₃.vertexNamesById id with
    | none => exact hnames _ rfl rfl rfl
    | some old =>
      simp only [Drifts, wp_bind, wp_modify]
      exact hnames _ rfl rfl rfl
  | some s =>
    cases hheld : g₃.vertexIdsByName s with
    | none =>
      cases hname : g₃.vertexNamesById id with
      | none =>
        simp only [Drifts, hheld, wp_bind, wp_modify]
        exact hnames _ rfl rfl rfl
      | some old =>
        simp only [Drifts, hheld, wp_bind, wp_modify]
        exact hnames _ rfl rfl rfl
    | some holder =>
      cases hname : g₃.vertexNamesById id with
      | none =>
        simp only [Drifts, hheld, wp_bind, wp_throwIf, wp_modify]
        exact ⟨fun _ => hrefl, fun _ => hnames _ rfl rfl rfl⟩
      | some old =>
        simp only [Drifts, hheld, wp_bind, wp_throwIf, wp_modify]
        exact ⟨fun _ => hrefl, fun _ => hnames _ rfl rfl rfl⟩

theorem thins_labelId (label : Value) (declare : Int) :
    Drifts Thinned (xgLabelId label declare) g := by
  rw [xgLabelId]
  apply drifts_bind isDrift_thinned thins_requireUsable
  intro _ g₁
  apply drifts_bind isDrift_thinned (thins_normalizeLabel label)
  intro normalized g₂
  cases normalized with
  | none => exact drifts_pure isDrift_thinned _
  | some name =>
    cases name with
    | nil => exact drifts_pure isDrift_thinned _
    | cons c s =>
      apply drifts_get_bind
      cases hid : g₂.labelIdsByName (c :: s) with
      | some id => exact drifts_pure isDrift_thinned _
      | none =>
        simp only [Drifts, wp_ite, wp_bind, wp_throwIf, wp_modify, wp_pure]
        have hrefl := isDrift_thinned.refl g₂
        exact ⟨fun _ => hrefl, fun _ => ⟨fun _ => hrefl, fun _ => ⟨fun _ => hrefl,
          fun _ => ⟨rfl, ⟨[c :: s], rfl⟩, fun _ => List.Subset.refl _⟩⟩⟩⟩

theorem thins_declareLabels (labels : List Value) :
    Drifts Thinned (xgDeclareLabels labels) g := by
  rw [xgDeclareLabels]
  apply drifts_bind isDrift_thinned thins_requireMutable
  intro _ g₁
  by_cases hnil : labels = []
  · rw [if_pos hnil]
    exact drifts_pure isDrift_thinned _
  · rw [if_neg hnil]
    apply drifts_bind isDrift_thinned (drifts_mapM isDrift_thinned
      (fun label _ => thins_normalizeLabel label) labels)
    intro normalized g₂
    apply drifts_get_bind
    apply drifts_bind isDrift_thinned (drifts_throwIf isDrift_thinned _ _)
    intro _ g₃
    exact drifts_forM isDrift_thinned (fun label _ => drifts_map _ (thins_labelId _ 1)) normalized

theorem thinned_removed
    (hlist : (g.vertices id).outList = some list) (h : list.remove entry = some list') :
    Thinned g (g.setOut id list') := by
  apply thinned_setOut
  have hout : outs g id = list.entries := by simp [outs, Graph.out, hlist]
  rw [hout]
  exact remove_subset h

theorem thins_deleteEdge (source target : Nat) (label : Value) :
    Drifts Thinned (xgDeleteEdge source target label) g := by
  rw [xgDeleteEdge]
  apply drifts_bind isDrift_thinned thins_requireMutable
  intro _ g₁
  apply drifts_bind isDrift_thinned (thins_requireVertex source)
  intro _ g₂
  apply drifts_bind isDrift_thinned (thins_requireVertex target)
  intro _ g₃
  apply drifts_bind isDrift_thinned (thins_labelId label (-1))
  intro lid g₄
  by_cases hlid : lid = 0
  · rw [if_pos hlid]
    exact drifts_pure isDrift_thinned _
  · rw [if_neg hlid]
    apply drifts_get_bind
    cases hout : (g₄.vertices source).outList with
    | none => exact drifts_pure isDrift_thinned _
    | some out =>
      cases hin : (g₄.vertices target).inList with
      | none => exact drifts_pure isDrift_thinned _
      | some inn =>
        cases hremove : out.remove (xgPack target lid) with
        | none =>
          simp only [hremove]
          exact drifts_pure isDrift_thinned _
        | some out' =>
          simp only [hremove]
          apply drifts_bind isDrift_thinned (drifts_modify (thinned_removed hout hremove))
          intro _ g₅
          cases inn.remove (xgPack source lid) with
          | none => exact drifts_throw isDrift_thinned _
          | some inn' =>
            apply drifts_bind isDrift_thinned (drifts_modify (thinned_setIn target inn'))
            intro _ g₆
            apply drifts_bind isDrift_thinned (drifts_modify (thinned_of_vertices rfl rfl rfl))
            intro _ g₇
            exact drifts_pure isDrift_thinned _

theorem thins_modifyIn (id : Nat) (f : AdjList → AdjList) : Drifts Thinned (modifyIn id f) g := by
  rw [modifyIn]
  apply drifts_get_bind
  cases (g.vertices id).inList with
  | none => exact drifts_throw isDrift_thinned _
  | some list => exact drifts_modify (thinned_setIn id (f list))

theorem thins_modifyOut (id entry : Nat) :
    Drifts Thinned (modifyOut id (AdjList.removed · entry)) g := by
  rw [modifyOut]
  apply drifts_get_bind
  cases hlist : (g.vertices id).outList with
  | none => exact drifts_throw isDrift_thinned _
  | some list =>
    apply drifts_modify
    apply thinned_setOut
    have hout : outs g id = list.entries := by simp [outs, Graph.out, hlist]
    rw [hout, AdjList.removed]
    cases hremove : list.remove entry with
    | none => exact List.Subset.refl _
    | some list' => exact remove_subset hremove

theorem thins_dropOuts (id rounds : Nat) : Drifts Thinned (dropOuts id rounds) g := by
  induction rounds generalizing g with
  | zero => exact drifts_pure isDrift_thinned _
  | succ rounds ih =>
    rw [dropOuts]
    apply drifts_get_bind
    cases (g.out id).entries with
    | nil => exact drifts_pure isDrift_thinned _
    | cons entry rest =>
      apply drifts_bind isDrift_thinned (thins_modifyIn _ _)
      intro _ g₁
      apply drifts_bind isDrift_thinned (thins_modifyOut id entry)
      intro _ g₂
      apply drifts_bind isDrift_thinned (drifts_modify (thinned_of_vertices rfl rfl rfl))
      intro _ g₃
      exact ih

theorem thins_dropIns (id rounds : Nat) : Drifts Thinned (dropIns id rounds) g := by
  induction rounds generalizing g with
  | zero => exact drifts_pure isDrift_thinned _
  | succ rounds ih =>
    rw [dropIns]
    apply drifts_get_bind
    cases (g.inn id).entries with
    | nil => exact drifts_pure isDrift_thinned _
    | cons entry rest =>
      apply drifts_bind isDrift_thinned (thins_modifyOut _ _)
      intro _ g₁
      apply drifts_bind isDrift_thinned (thins_modifyIn id _)
      intro _ g₂
      apply drifts_bind isDrift_thinned (drifts_modify (thinned_of_vertices rfl rfl rfl))
      intro _ g₃
      exact ih

theorem thins_deleteVertex (id : Nat) : Drifts Thinned (xgDeleteVertex id) g := by
  rw [xgDeleteVertex]
  apply drifts_bind isDrift_thinned thins_requireMutable
  intro _ g₁
  apply drifts_get_bind
  by_cases hdead : g₁.hasVertex id = false
  · rw [if_pos hdead]
    exact drifts_pure isDrift_thinned _
  · rw [if_neg hdead]
    apply drifts_bind isDrift_thinned (thins_dropOuts id _)
    intro _ g₂
    apply drifts_get_bind
    apply drifts_bind isDrift_thinned (thins_dropIns id _)
    intro _ g₃
    apply drifts_get_bind
    have hkill (g₄ : Graph) : Thinned g₄ (g₄.kill id) :=
      isDrift_thinned.trans (thinned_setLive id false) (thinned_of_vertices rfl rfl rfl)
    cases g₃.vertexNamesById id with
    | none =>
      apply drifts_bind isDrift_thinned (drifts_modify (hkill g₃))
      intro _ g₄
      exact drifts_pure isDrift_thinned _
    | some name =>
      apply drifts_bind isDrift_thinned (drifts_modify (thinned_of_vertices rfl rfl rfl))
      intro _ g₄
      apply drifts_bind isDrift_thinned (drifts_modify (hkill g₄))
      intro _ g₅
      exact drifts_pure isDrift_thinned _

theorem call_thins {op : Op} (hop : ∀ source target label, op ≠ .addEdge source target label) :
    Drifts Thinned op.call g := by
  cases op with
  | addVertex name => exact drifts_map _ (thins_addVertex name)
  | addVertexId id => exact drifts_map _ (thins_addVertexId id)
  | renameVertex id name => exact drifts_map _ (thins_renameVertex id name)
  | deleteVertex id => exact drifts_map _ (thins_deleteVertex id)
  | labelId label declare => exact drifts_map _ (thins_labelId label declare)
  | declareLabels labels => exact drifts_map _ (thins_declareLabels labels)
  | addEdge source target label => exact absurd rfl (hop source target label)
  | deleteEdge source target label => exact drifts_map _ (thins_deleteEdge source target label)

end XPerl.XGraph
