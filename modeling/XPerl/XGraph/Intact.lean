import XPerl.XGraph.Acyclic

/-! Graphs as the library leaves them, and what vertices without names and edges do to them. -/

namespace XPerl.XGraph

open XPerl.Framework Exec

variable {g g' : Graph}

/-- The ID of undef, or of a string in the registry. -/
def LabelNamed (g : Graph) (lid : Nat) : Prop := lid = 1 ∨ ∃ s, g.labelsById[lid]? = some (some s)

def KnownLabels (g : Graph) : Prop := ∀ u, ∀ e ∈ outs g u, LabelNamed g (xgEntryLabel e)

/-- What holds of every graph, whether it is frozen or not. -/
structure Intact (g : Graph) : Prop where
  present : g.unavailableThreadClone = false
  topology : Topology g
  table : Table g
  names : Names g
  labels : Labels g
  known : KnownLabels g

theorem WF.intact (h : WF g) (hknown : KnownLabels g) : Intact g :=
  ⟨h.usable.1, h.topology, h.table, h.names, h.labels, hknown⟩

theorem Intact.wf (h : Intact g) (hmutable : g.frozen = false) : WF g :=
  ⟨⟨h.present, hmutable⟩, h.topology, h.table, h.names, h.labels⟩

def Graph.withFrozen (g : Graph) (frozen : Bool) : Graph := { g with frozen := frozen }

theorem Intact.withFrozen (h : Intact g) (frozen : Bool) : Intact (g.withFrozen frozen) where
  present := h.present
  topology := ⟨h.topology.outOk, h.topology.inOk, h.topology.outWord, h.topology.inWord,
    h.topology.mirror, h.topology.outEnds, h.topology.inEnds, h.topology.labels, h.topology.edges⟩
  table := ⟨h.table.capacity, h.table.next, h.table.below, h.table.live⟩
  names := ⟨h.names.inverse, h.names.live⟩
  labels := ⟨h.labels.reserved, h.labels.limit, h.labels.inverse⟩
  known := h.known

theorem Intact.thawed (h : Intact g) : WF (g.withFrozen false) := (h.withFrozen false).wf rfl

theorem Intact.inStep (h : Intact g) : InStep g :=
  have hstep := h.thawed.inStep
  ⟨hstep.sortedOut, hstep.sortedIn, hstep.mirror, hstep.ends, hstep.edges, hstep.vertices,
    hstep.below, hstep.names, hstep.named, hstep.labels⟩

theorem Intact.adjacent_live (h : Intact g) {u v : Nat} (hedge : g.Adjacent u v) :
    g.hasVertex u = true ∧ g.hasVertex v = true := by
  obtain ⟨l, hout⟩ := hedge
  exact h.inStep.ends u v l hout

theorem LabelNamed.ne_zero {lid : Nat} (h : LabelNamed g lid) (hlabels : Labels g) : lid ≠ 0 := by
  intro hzero
  obtain ⟨rest, hrest⟩ := hlabels.reserved
  rw [hzero, LabelNamed, hrest] at h
  simp at h

theorem LabelNamed.grown {lid : Nat} (h : LabelNamed g lid) (hthin : Thinned g g') :
    LabelNamed g' lid := by
  rcases h with hone | ⟨s, hs⟩
  · exact Or.inl hone
  · obtain ⟨names, hnames⟩ := hthin.labels
    obtain ⟨hlt, -⟩ := List.getElem?_eq_some_iff.1 hs
    refine Or.inr ⟨s, ?_⟩
    rw [hnames, List.getElem?_append_left hlt, hs]

theorem KnownLabels.thinned (h : KnownLabels g) (hthin : Thinned g g') : KnownLabels g' :=
  fun u e he => (h u e (hthin.outs u he)).grown hthin

theorem xgLabelId_named (h : WF g) (label : Value) (declare : Int) :
    wp (xgLabelId label declare) g (fun lid g' => ¬ declare < 0 → LabelNamed g' lid)
      (fun _ _ => True) := by
  simp only [xgLabelId, xgRequireUsable, wp_bind, wp_get, wp_throwIf, h.usable.1]
  refine ⟨fun _ => trivial, fun _ => wp_normalizeLabel label ?_ fun _ _ => trivial⟩
  intro normalized _
  cases normalized with
  | none => exact fun _ => Or.inl rfl
  | some s =>
    cases s with
    | nil =>
      obtain ⟨rest, hrest⟩ := h.labels.reserved
      exact fun _ => Or.inr ⟨[], by rw [hrest]; rfl⟩
    | cons c s =>
      simp only [wp_bind, wp_get]
      cases hid : g.labelIdsByName (c :: s) with
      | some id => exact fun _ => Or.inr ⟨c :: s, (h.labels.inverse _ _).1 hid⟩
      | none =>
        simp only [wp_ite, wp_bind, wp_throwIf, wp_modify, wp_pure]
        refine ⟨fun hneg hpos => absurd hneg hpos, fun _ => ⟨fun _ => trivial, fun _ =>
          ⟨fun _ => trivial, fun _ _ => Or.inr ⟨c :: s, ?_⟩⟩⟩⟩
        simp [Graph.touchNames, Graph.internLabel]

theorem xgAddEdge_effect (h : WF g) (u v : Nat) (label : Value) :
    wp (xgAddEdge u v label) g
      (fun _ g' => ∃ lid g₁, Interned g label 0 lid g₁ ∧ LabelNamed g₁ lid ∧ Thinned g g₁ ∧
        g₁.hasVertex v = true ∧ EdgeAdded u v lid g₁ g')
      (fun _ g' => Thinned g g') := by
  have hsame : Thinned g g := isDrift_thinned.refl g
  rw [xgAddEdge, wp_bind, wp_requireMutable h, wp_bind]
  apply wp_normalizeLabel label
  · intro normalized hlabel
    rw [← hlabel, wp_bind, wp_requireVertex]
    refine ⟨fun _ => hsame, fun hu => ?_⟩
    rw [wp_bind, wp_requireVertex]
    refine ⟨fun _ => hsame, fun hv => ?_⟩
    rw [wp_bind, wp_get, wp_bind, wp_throwIf]
    refine ⟨fun _ => hsame, fun _ => ?_⟩
    rw [wp_bind]
    have hlabelled := wp_and (xgLabelId_spec h label 0)
      (wp_and (xgLabelId_named h label 0) (thins_labelId label 0))
    apply wp_mono hlabelled
    · intro lid g₁ hfound
      obtain ⟨hinterned, hnamed, hthin⟩ := hfound
      obtain ⟨hlid, hlive⟩ := hinterned.ready
      have hu₁ : g₁.hasVertex u = true := by
        rw [hlive]
        simpa using hu
      have hv₁ : g₁.hasVertex v = true := by
        rw [hlive]
        simpa using hv
      apply wp_mono (installEdge_spec (hinterned.wf h) hu₁ hv₁ hlid)
      · intro _ g' hadded
        exact ⟨lid, g₁, hinterned, hnamed (by decide), hthin, hv₁, hadded.1⟩
      · intro _ g' hrefused
        refine isDrift_thinned.trans hthin
          ⟨hrefused.1.frame.flags.1, sameLabels hrefused.1.frame.labelsById, fun x e he => ?_⟩
        rw [hrefused.1.outs] at he
        exact he
    · intro _ g₁ hfailed
      exact hfailed.2.2
  · intro _ _
    exact hsame

theorem xgAddEdge_known (h : WF g) (hknown : KnownLabels g) (u v : Nat) (label : Value) :
    wp (xgAddEdge u v label) g (fun _ g' => KnownLabels g') (fun _ g' => KnownLabels g') := by
  apply wp_mono (xgAddEdge_effect h u v label)
  · intro _ g' hadded
    obtain ⟨lid, g₁, hinterned, hnamed, hthin, hv, hedge⟩ := hadded
    intro x e he
    have hsame : LabelNamed g₁ (xgEntryLabel e) → LabelNamed g' (xgEntryLabel e) := by
      rw [LabelNamed, LabelNamed, hedge.frame.labelsById]
      exact id
    apply hsame
    rcases (hedge.outs x e).1 he with ⟨-, rfl⟩ | hold
    · have h₁ := hinterned.wf h
      have hlimit := h₁.labels.limit
      have hlid := hinterned.ready.1
      rw [xgEntryLabel_pack (h₁.table.fits hv (by omega))]
      exact hnamed
    · exact hknown.thinned hthin x e hold
  · intro _ g' hthin
    exact hknown.thinned hthin

theorem call_known (h : WF g) (hknown : KnownLabels g) (op : Op) :
    KnownLabels (stateAfter op.call g) := by
  by_cases hop : ∃ source target label, op = .addEdge source target label
  · obtain ⟨source, target, label, rfl⟩ := hop
    have hcall : wp (Op.addEdge source target label).call g (fun _ g' => KnownLabels g')
        (fun _ g' => KnownLabels g') := by
      rw [Op.call, wp_map]
      exact xgAddEdge_known h hknown source target label
    exact wp_stateAfter hcall
  · have hthins : Drifts Thinned op.call g :=
      call_thins fun source target label heq => hop ⟨source, target, label, heq⟩
    exact hknown.thinned (wp_stateAfter hthins)

theorem run_intact (acyclic strictLabels frozen : Bool) (ops : List Op) :
    Intact ((run Op.call (xgNew acyclic strictLabels) ops).withFrozen frozen) := by
  have hrun : ∀ (ops : List Op) (g : Graph), WF g → KnownLabels g →
      KnownLabels (run Op.call g ops) := by
    intro ops
    induction ops with
    | nil => exact fun g _ hknown => hknown
    | cons op ops ih =>
      exact fun g h hknown => ih _ (call_kept h op).1 (call_known h hknown op)
  have hnew := xgNew_wf acyclic strictLabels
  have hknown : KnownLabels (xgNew acyclic strictLabels) := fun u e he => by cases he
  exact ((run_kept hnew ops).1.intact (hrun ops _ hnew hknown)).withFrozen frozen

/-- Two vertices with an edge each way. -/
def twoCycle : Graph :=
  (run Op.call (xgNew false false)
    [.addVertex .undef, .addVertex .undef, .addEdge 1 2 .undef, .addEdge 2 1 .undef]).withFrozen
    false

theorem twoCycle_intact : Intact twoCycle := run_intact false false false _

def Graph.withNames (g : Graph) (byId : Nat → Option Str) (byName : Str → Option Nat) : Graph :=
  { g with vertexNamesById := byId, vertexIdsByName := byName }

def xgHasEdge (source target : Nat) (label : Value) : XgM Bool := do
  xgRequireVertex source
  xgRequireVertex target
  let lid ← xgLabelId label (-1)
  if lid = 0 then return false
  else
    let graph ← get
    match (graph.vertices source).outList with
    | none => return false
    | some out => return out.holds (xgPack target lid)

variable {byId : Nat → Option Str} {byName : Str → Option Nat}

abbrev NameFree {α : Type} (byId : Nat → Option Str) (byName : Str → Option Nat) (m : XgM α) : Prop :=
  Commutes (fun g : Graph => g.withNames byId byName) m

theorem nameFree_requireUsable : NameFree byId byName xgRequireUsable :=
  Commutes.get (fun _ => rfl) fun _ => Commutes.throwIf _ _

theorem nameFree_requireMutable : NameFree byId byName xgRequireMutable :=
  nameFree_requireUsable.bind fun _ => Commutes.get (fun _ => rfl) fun _ => Commutes.throwIf _ _

theorem nameFree_requireVertex (id : Nat) : NameFree byId byName (xgRequireVertex id) :=
  Commutes.get (fun _ => rfl) fun _ => Commutes.throwIf _ _

theorem nameFree_normalizeLabel (label : Value) :
    NameFree byId byName (xgNormalizeLabel label) := by
  cases label with
  | undef => exact Commutes.pure _
  | ref => exact Commutes.throw _
  | dies => exact Commutes.throw _
  | str s => exact Commutes.pure _

theorem nameFree_labelId (label : Value) (declare : Int) :
    NameFree byId byName (xgLabelId label declare) := by
  refine nameFree_requireUsable.bind fun _ => (nameFree_normalizeLabel label).bind fun normalized => ?_
  cases normalized with
  | none => exact Commutes.pure _
  | some s =>
    cases s with
    | nil => exact Commutes.pure _
    | cons c s =>
      have hintern : NameFree byId byName
          (modify fun graph : Graph => (graph.internLabel (c :: s)).touchNames) :=
        Commutes.modify fun _ => rfl
      refine Commutes.get (fun _ => rfl) fun g => ?_
      cases g.labelIdsByName (c :: s) with
      | some id => exact Commutes.pure _
      | none =>
        refine Commutes.ite (Commutes.pure _) ?_
        exact (Commutes.throwIf _ _).bind fun _ => (Commutes.throwIf _ _).bind fun _ =>
          hintern.bind fun _ => Commutes.pure _

theorem growTable_withNames (g : Graph) (id : Nat) :
    (g.withNames byId byName).growTable id = (g.growTable id).withNames byId byName := by
  by_cases hroom : id < g.vertexCapacity
  · have hroom' : id < (g.withNames byId byName).vertexCapacity := hroom
    rw [Graph.growTable, Graph.growTable, if_pos hroom, if_pos hroom']
  · have hroom' : ¬ id < (g.withNames byId byName).vertexCapacity := hroom
    rw [Graph.growTable, Graph.growTable, if_neg hroom, if_neg hroom']
    rfl

theorem nameFree_addVertex : NameFree byId byName (xgAddVertex .undef) := by
  have hgrow (id : Nat) : NameFree byId byName (xgVertexCapacity id) :=
    Commutes.modify fun g => growTable_withNames g id
  have hliven (id : Nat) : NameFree byId byName (modify (Graph.liven · id)) :=
    Commutes.modify fun _ => rfl
  have hnext : NameFree byId byName
      (modify fun graph : Graph => { graph with nextVertexId := graph.nextVertexId + 1 }) :=
    Commutes.modify fun _ => rfl
  have htouch : NameFree byId byName (modify Graph.touchTopology) := Commutes.modify fun _ => rfl
  have hrest : NameFree byId byName (do
      let graph ← get
      throwIf (graph.nextVertexId = 0 ∨ graph.nextVertexId > maxVertexId) .vertexIdExhausted
      let id := graph.nextVertexId
      modify fun graph => { graph with nextVertexId := graph.nextVertexId + 1 }
      xgVertexCapacity id
      modify (Graph.liven · id)
      modify Graph.touchTopology
      return id : XgM Nat) :=
    Commutes.get (fun _ => rfl) fun g => (Commutes.throwIf _ _).bind fun _ => hnext.bind fun _ =>
      (hgrow g.nextVertexId).bind fun _ => (hliven g.nextVertexId).bind fun _ =>
      htouch.bind fun _ => Commutes.pure _
  exact nameFree_requireMutable.bind fun _ => hrest

theorem reachLoop_withNames (g : Graph) (wanted rounds : Nat) (stack seen : List Nat) :
    reachLoop (g.withNames byId byName) wanted rounds stack seen =
      reachLoop g wanted rounds stack seen := by
  induction rounds generalizing stack seen with
  | zero => rfl
  | succ rounds ih =>
    cases stack with
    | nil => rfl
    | cons id stack =>
      simp only [reachLoop, ih]
      rfl

theorem ensureOut_withNames (g : Graph) (id : Nat) :
    (g.withNames byId byName).ensureOut id = (g.ensureOut id).withNames byId byName := by
  have hsame : ((g.withNames byId byName).vertices id).outList = (g.vertices id).outList := rfl
  rw [Graph.ensureOut, Graph.ensureOut, hsame]
  cases (g.vertices id).outList with
  | none => rfl
  | some list => rfl

theorem ensureIn_withNames (g : Graph) (id : Nat) :
    (g.withNames byId byName).ensureIn id = (g.ensureIn id).withNames byId byName := by
  have hsame : ((g.withNames byId byName).vertices id).inList = (g.vertices id).inList := rfl
  rw [Graph.ensureIn, Graph.ensureIn, hsame]
  cases (g.vertices id).inList with
  | none => rfl
  | some list => rfl

theorem nameFree_updateList {read : Graph → AdjList} {write : Graph → AdjList → Graph}
    (hread : ∀ g, read (g.withNames byId byName) = read g)
    (hwrite : ∀ g list, write (g.withNames byId byName) list =
      (write g list).withNames byId byName) (f : AdjList → Option AdjList) :
    NameFree byId byName (updateList read write f) := by
  refine Commutes.get (fun g => by rw [hread]) fun g => ?_
  cases f (read g) with
  | none => exact Commutes.throw _
  | some list => exact Commutes.modify fun g => hwrite g list

theorem nameFree_installEdge (source target lid : Nat) :
    NameFree byId byName (installEdge source target lid) := by
  refine (Commutes.modify fun g => ensureOut_withNames g source).bind fun _ =>
    (Commutes.modify fun g => ensureIn_withNames g target).bind fun _ =>
    Commutes.get (fun _ => rfl) fun g => (Commutes.throwIf _ _).bind fun _ => ?_
  have hout (f : AdjList → Option AdjList) : NameFree byId byName
      (updateList (Graph.out · source) (Graph.setOut · source) f) :=
    nameFree_updateList (fun _ => rfl) (fun _ _ => rfl) f
  have hin (f : AdjList → Option AdjList) : NameFree byId byName
      (updateList (Graph.inn · target) (Graph.setIn · target) f) :=
    nameFree_updateList (fun _ => rfl) (fun _ _ => rfl) f
  exact (hout _).bind fun _ => (hin _).bind fun _ => (hout _).bind fun _ => (hin _).bind fun _ =>
    Commutes.modify fun _ => rfl

theorem nameFree_addEdge (source target : Nat) (label : Value) :
    NameFree byId byName (xgAddEdge source target label) := by
  refine nameFree_requireMutable.bind fun _ => (nameFree_normalizeLabel label).bind fun normalized =>
    (nameFree_requireVertex source).bind fun _ => (nameFree_requireVertex target).bind fun _ => ?_
  apply Commutes.get
  · intro g
    have hreach : xgReaches (g.withNames byId byName) target source = xgReaches g target source :=
      reachLoop_withNames g source _ _ _
    have hthrow : (throwIf ((g.withNames byId byName).acyclic = true ∧ (source = target ∨
        xgReaches (g.withNames byId byName) target source = true)) .cycleRejected : XgM Unit) =
        throwIf (g.acyclic = true ∧ (source = target ∨ xgReaches g target source = true))
          .cycleRejected := throwIf_congr (by rw [hreach]; rfl) _
    rw [hthrow]
  · intro g
    exact (Commutes.throwIf _ _).bind fun _ => (nameFree_labelId _ 0).bind fun lid =>
      nameFree_installEdge source target lid

theorem nameFree_hasEdge (source target : Nat) (label : Value) :
    NameFree byId byName (xgHasEdge source target label) := by
  refine (nameFree_requireVertex source).bind fun _ => (nameFree_requireVertex target).bind fun _ =>
    (nameFree_labelId label (-1)).bind fun lid => Commutes.ite (Commutes.pure _) ?_
  refine Commutes.get (fun _ => rfl) fun g => ?_
  cases (g.vertices source).outList with
  | none => exact Commutes.pure _
  | some out => exact Commutes.pure _

end XPerl.XGraph
