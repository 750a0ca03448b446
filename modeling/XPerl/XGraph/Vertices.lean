import XPerl.XGraph.Labels

/-! Vertices and their names: the mutations that leave the edges alone. -/

namespace XPerl.XGraph

open XPerl.Framework Exec XGraph.Graph

variable {g : Graph}

theorem tableCapacity_le (id rounds capacity : Nat) (hcap : capacity ≤ maxVertexId + 1) :
    tableCapacity id rounds capacity ≤ maxVertexId + 1 ∧
      capacity ≤ tableCapacity id rounds capacity := by
  induction rounds generalizing capacity with
  | zero => exact ⟨hcap, Nat.le_refl _⟩
  | succ rounds ih =>
    rw [tableCapacity]
    by_cases hle : capacity ≤ id
    · rw [if_pos hle]
      by_cases hhalf : capacity > (maxVertexId + 1) / 2
      · rw [if_pos hhalf]
        obtain ⟨hmax, hge⟩ := ih (maxVertexId + 1) (Nat.le_refl _)
        exact ⟨hmax, by omega⟩
      · rw [if_neg hhalf]
        obtain ⟨hmax, hge⟩ := ih (capacity * 2) (by omega)
        exact ⟨hmax, by omega⟩
    · rw [if_neg hle]
      exact ⟨hcap, Nat.le_refl _⟩

theorem lt_tableCapacity (id rounds capacity k : Nat) (hid : id ≤ maxVertexId)
    (hcap : 2 ^ k ≤ capacity) (hk : 24 ≤ k + rounds) : id < tableCapacity id rounds capacity := by
  have hmax : maxVertexId + 1 = 2 ^ 24 := rfl
  induction rounds generalizing capacity k with
  | zero =>
    have hk' : 24 ≤ k := by omega
    have hpow := Nat.pow_le_pow_right (n := 2) (by omega) hk'
    rw [tableCapacity]
    omega
  | succ rounds ih =>
    rw [tableCapacity]
    by_cases hle : capacity ≤ id
    · rw [if_pos hle]
      by_cases hhalf : capacity > (maxVertexId + 1) / 2
      · rw [if_pos hhalf]
        have hge := (tableCapacity_le id rounds (maxVertexId + 1) (Nat.le_refl _)).2
        omega
      · rw [if_neg hhalf]
        apply ih (capacity * 2) (k + 1)
        · rw [Nat.pow_succ]
          omega
        · omega
    · rw [if_neg hle]
      omega

variable {id : Nat}

theorem hasVertex_lt (hid : g.hasVertex id = true) : id < g.vertexCapacity := by
  simp only [hasVertex, Bool.and_eq_true, decide_eq_true_eq] at hid
  exact hid.2.1

theorem outs_eq_nil (h : WF g) {u : Nat} (hdead : g.hasVertex u = false) : outs g u = [] := by
  apply List.eq_nil_iff_forall_not_mem.2
  intro e he
  rw [(h.topology.outEnds u e he).1] at hdead
  cases hdead

theorem ins_eq_nil (h : WF g) {v : Nat} (hdead : g.hasVertex v = false) : ins g v = [] := by
  apply List.eq_nil_iff_forall_not_mem.2
  intro e he
  rw [(h.topology.inEnds v e he).1] at hdead
  cases hdead

private theorem growTable_vertex (g : Graph) (id j : Nat) :
    (g.growTable id).vertices j = g.vertices j ∨
      (g.growTable id).vertices j = ⟨none, none, false⟩ ∧ g.hasVertex j = false := by
  rw [growTable]
  by_cases hid : id < g.vertexCapacity
  · rw [if_pos hid]
    exact Or.inl rfl
  · rw [if_neg hid]
    by_cases hj : j < g.vertexCapacity
    · exact Or.inl (if_pos hj)
    · refine Or.inr ⟨if_neg hj, ?_⟩
      simp [hasVertex, hj]

private theorem growTable_capacity (h : WF g) (hid : id ≤ maxVertexId) :
    g.vertexCapacity ≤ (g.growTable id).vertexCapacity ∧
      (g.growTable id).vertexCapacity ≤ maxVertexId + 1 ∧
      id < (g.growTable id).vertexCapacity := by
  rw [growTable]
  by_cases hlt : id < g.vertexCapacity
  · rw [if_pos hlt]
    exact ⟨Nat.le_refl _, h.table.capacity.2, hlt⟩
  · rw [if_neg hlt]
    obtain ⟨hmax, hge⟩ := tableCapacity_le id 25 g.vertexCapacity h.table.capacity.2
    refine ⟨hge, hmax, ?_⟩
    exact lt_tableCapacity id 25 g.vertexCapacity 4 hid h.table.capacity.1 (by omega)

private theorem growTable_rest (g : Graph) (id : Nat) :
    ∃ vertices capacity, g.growTable id =
      { g with vertices := vertices, vertexCapacity := capacity } := by
  rw [growTable]
  by_cases hid : id < g.vertexCapacity
  · rw [if_pos hid]
    exact ⟨g.vertices, g.vertexCapacity, rfl⟩
  · rw [if_neg hid]
    exact ⟨_, _, rfl⟩

theorem growTable_spec (h : WF g) (hid : id ≤ maxVertexId) :
    WF (g.growTable id) ∧ id < (g.growTable id).vertexCapacity ∧ (g.growTable id).view = g.view := by
  obtain ⟨hge, hmax, hroom⟩ := growTable_capacity h hid
  obtain ⟨vertices, capacity, hrest⟩ := growTable_rest g id
  have hlive : ∀ j, (g.growTable id).hasVertex j = g.hasVertex j := by
    intro j
    rcases growTable_vertex g id j with hsame | ⟨hzero, hdead⟩
    · rw [hasVertex, hasVertex, hsame]
      by_cases hj : j < g.vertexCapacity
      · simp [hj, Nat.lt_of_lt_of_le hj hge]
      · by_cases hidlt : id < g.vertexCapacity
        · rw [growTable, if_pos hidlt]
        · rw [growTable, if_neg hidlt] at hsame
          have hnone : g.vertices j = ⟨none, none, false⟩ := hsame.symm.trans (if_neg hj)
          simp [hnone]
    · rw [hdead, hasVertex, hzero]
      simp
  have houts : ∀ j, (g.growTable id).out j = g.out j ∨
      (g.growTable id).out j = xgAdjNew ∧ outs g j = [] := by
    intro j
    rcases growTable_vertex g id j with hsame | ⟨hzero, hdead⟩
    · exact Or.inl (by rw [out, hsame]; rfl)
    · exact Or.inr ⟨by rw [out, hzero]; rfl, outs_eq_nil h hdead⟩
  have hins : ∀ j, (g.growTable id).inn j = g.inn j ∨
      (g.growTable id).inn j = xgAdjNew ∧ ins g j = [] := by
    intro j
    rcases growTable_vertex g id j with hsame | ⟨hzero, hdead⟩
    · exact Or.inl (by rw [inn, hsame]; rfl)
    · exact Or.inr ⟨by rw [inn, hzero]; rfl, ins_eq_nil h hdead⟩
  have houtsEq : ∀ j, outs (g.growTable id) j = outs g j := by
    intro j
    rcases houts j with hsame | ⟨hnew, hnil⟩
    · rw [outs, hsame]
      rfl
    · rw [hnil, outs, hnew]
      rfl
  have hinsEq : ∀ j, ins (g.growTable id) j = ins g j := by
    intro j
    rcases hins j with hsame | ⟨hnew, hnil⟩
    · rw [ins, hsame]
      rfl
    · rw [hnil, ins, hnew]
      rfl
  have houtOk : ∀ j, ((g.growTable id).out j).Ok := by
    intro j
    rcases houts j with hsame | ⟨hnew, -⟩
    · rw [hsame]
      exact h.topology.outOk j
    · rw [hnew]
      exact xgAdjNew_ok
  have hinOk : ∀ j, ((g.growTable id).inn j).Ok := by
    intro j
    rcases hins j with hsame | ⟨hnew, -⟩
    · rw [hsame]
      exact h.topology.inOk j
    · rw [hnew]
      exact xgAdjNew_ok
  have htop : Topology (g.growTable id) := h.topology.congr houtOk hinOk houtsEq hinsEq
    (fun j hj => by rw [hlive, hj]) (by rw [hrest]) (by rw [hrest])
  refine ⟨⟨?_, htop, ⟨⟨by have := h.table.capacity.1; omega, hmax⟩, ?_, ?_, ?_⟩, ⟨?_, ?_⟩, ?_⟩,
    hroom, ?_⟩
  · rw [hrest]
    exact h.usable
  · rw [hrest]
    exact h.table.next
  · intro j hj
    rw [hlive] at hj
    rw [hrest]
    exact h.table.below j hj
  · have hcount := h.table.live.congr (fun j => by rw [← hlive j])
    rw [hrest] at hcount ⊢
    exact hcount
  · rw [hrest]
    exact h.names.inverse
  · intro s j hs
    rw [hlive]
    rw [hrest] at hs
    exact h.names.live s j hs
  · rw [hrest]
    exact ⟨h.labels.reserved, h.labels.limit, h.labels.inverse⟩
  · have hfields : (g.growTable id).view = ⟨(g.growTable id).hasVertex, outs (g.growTable id),
        ins (g.growTable id), g.nextVertexId, g.vertexNamesById, g.vertexIdsByName, g.labelsById,
        g.labelIdsByName⟩ := by
      rw [hrest]
      rfl
    rw [hfields, funext hlive, funext houtsEq, funext hinsEq]
    rfl

theorem hasVertex_liven (g : Graph) (hpos : id ≠ 0)
    (hroom : id < g.vertexCapacity) (j : Nat) :
    (g.liven id).hasVertex j = true ↔ j = id ∨ g.hasVertex j = true := by
  by_cases hj : j = id
  · simp [hasVertex, liven, setVertex, hj, hpos, hroom]
  · have hsame : (g.liven id).vertices j = g.vertices j := by
      simp [liven, setVertex, hj]
    have heq : (g.liven id).hasVertex j = g.hasVertex j := by
      rw [hasVertex, hsame]
      rfl
    simp [heq, hj]

private theorem out_liven (g : Graph) (id j : Nat) : (g.liven id).out j = g.out j := by
  by_cases hj : j = id
  · simp [out, liven, setVertex, hj]
  · simp [out, liven, setVertex, hj]

private theorem inn_liven (g : Graph) (id j : Nat) : (g.liven id).inn j = g.inn j := by
  by_cases hj : j = id
  · simp [inn, liven, setVertex, hj]
  · simp [inn, liven, setVertex, hj]

theorem liven_wf (h : WF g) {next : Nat} (hpos : id ≠ 0) (hroom : id < g.vertexCapacity)
    (hdead : g.hasVertex id = false) (hnext : id < next) (hge : g.nextVertexId ≤ next)
    (hmax : next ≤ maxVertexId + 1) :
    WF (touchTopology { g.liven id with nextVertexId := next }) := by
  have hlive := hasVertex_liven g hpos hroom
  have hkeep : ∀ j, g.hasVertex j = true → (g.liven id).hasVertex j = true :=
    fun j hj => (hlive j).2 (Or.inr hj)
  have hone : 1 ≤ next := Nat.le_trans h.table.next.1 hge
  refine ⟨h.usable, ?_, ⟨h.table.capacity, ⟨hone, hmax⟩, ?_, ?_⟩,
    ⟨h.names.inverse, ?_⟩, ⟨h.labels.reserved, h.labels.limit, h.labels.inverse⟩⟩
  · apply h.topology.congr
    · intro j
      change ((g.liven id).out j).Ok
      rw [out_liven]
      exact h.topology.outOk j
    · intro j
      change ((g.liven id).inn j).Ok
      rw [inn_liven]
      exact h.topology.inOk j
    · intro j
      exact congrArg AdjList.entries (out_liven g id j)
    · intro j
      exact congrArg AdjList.entries (inn_liven g id j)
    · exact hkeep
    · exact Nat.le_refl _
    · rfl
  · intro j hj
    rcases (hlive j).1 hj with rfl | hj
    · exact hnext
    · exact Nat.lt_of_lt_of_le (h.table.below j hj) hge
  · exact h.table.live.insert (by rw [hdead]; exact Bool.false_ne_true) hlive
  · intro s j hs
    exact hkeep j (h.names.live s j hs)

theorem storeName_names (h : Names g) {s : Str} (hlive : g.hasVertex id = true)
    (hfree : g.vertexIdsByName s = none) (hunnamed : g.vertexNamesById id = none) :
    Names (g.storeName id s) where
  inverse := by
    intro t j
    simp only [storeName]
    by_cases ht : t = s
    · rw [ht, Function.update_self]
      by_cases hj : j = id
      · rw [hj, Function.update_self]
        simp
      · rw [Function.update_of_ne hj, ← h.inverse, hfree]
        simp [Ne.symm hj]
    · rw [Function.update_of_ne ht]
      by_cases hj : j = id
      · rw [hj, Function.update_self, h.inverse, hunnamed]
        simp [Ne.symm ht]
      · rw [Function.update_of_ne hj, h.inverse]
  live := by
    intro t j hs
    change g.hasVertex j = true
    by_cases ht : t = s
    · rw [ht] at hs
      simp only [storeName, Function.update_self] at hs
      rw [← Option.some.inj hs]
      exact hlive
    · simp only [storeName, Function.update_of_ne ht] at hs
      exact h.live t j hs

theorem deleteName_names (h : Names g) {s : Str} (hname : g.vertexNamesById id = some s) :
    Names (g.deleteName id s) where
  inverse := by
    intro t j
    simp only [deleteName]
    by_cases ht : t = s
    · rw [ht, Function.update_self]
      by_cases hj : j = id
      · rw [hj, Function.update_self]
        simp
      · rw [Function.update_of_ne hj]
        have hheld := (h.inverse s id).2 hname
        constructor
        · intro hfalse
          cases hfalse
        · intro hother
          have hsame := (h.inverse s j).2 hother
          rw [hheld] at hsame
          exact absurd (Option.some.inj hsame).symm hj
    · rw [Function.update_of_ne ht]
      by_cases hj : j = id
      · rw [hj, Function.update_self, h.inverse, hname]
        simp [Ne.symm ht]
      · rw [Function.update_of_ne hj, h.inverse]
  live := by
    intro t j hs
    change g.hasVertex j = true
    by_cases ht : t = s
    · rw [ht] at hs
      simp [deleteName] at hs
    · simp only [deleteName, Function.update_of_ne ht] at hs
      exact h.live t j hs

theorem Names.touch (h : Names g) : Names g.touchNames := ⟨h.inverse, h.live⟩

theorem WF.of_names {g' : Graph} (h : WF g) (hnames : Names g')
    (hrest : ∃ byId byName generation, g' = { g with
      vertexNamesById := byId, vertexIdsByName := byName, namingGeneration := generation }) :
    WF g' := by
  obtain ⟨byId, byName, generation, rfl⟩ := hrest
  exact ⟨h.usable,
    h.topology.congr h.topology.outOk h.topology.inOk (fun _ => rfl) (fun _ => rfl)
      (fun _ hid => hid) (Nat.le_refl _) rfl,
    ⟨h.table.capacity, h.table.next, h.table.below, h.table.live⟩, hnames,
    ⟨h.labels.reserved, h.labels.limit, h.labels.inverse⟩⟩

theorem WF.unnamed_of_dead (h : WF g) (hdead : g.hasVertex id = false) :
    g.vertexNamesById id = none := by
  cases hname : g.vertexNamesById id with
  | none => rfl
  | some s =>
    have hlive := h.names.live s id ((h.names.inverse s id).2 hname)
    rw [hdead] at hlive
    cases hlive

private theorem growTable_next (g : Graph) (id next : Nat) :
    growTable { g with nextVertexId := next } id =
      { g.growTable id with nextVertexId := next } := by
  by_cases hid : id < g.vertexCapacity
  · rw [growTable, growTable, if_pos hid, if_pos hid]
  · rw [growTable, growTable, if_neg hid, if_neg hid]

def Graph.withVertex (g : Graph) (id next : Nat) : Graph :=
  Graph.touchTopology { (g.growTable id).liven id with nextVertexId := next }

/-- The graph gained the vertex `id`. -/
structure VertexAdded (id : Nat) (g g' : Graph) : Prop where
  live : ∀ j, g'.hasVertex j = true ↔ j = id ∨ g.hasVertex j = true
  outs : ∀ u, outs g' u = outs g u
  ins : ∀ v, ins g' v = ins g v
  labelsById : g'.labelsById = g.labelsById
  flags : g'.acyclic = g.acyclic ∧ g'.strictLabels = g.strictLabels

theorem withVertex_spec (h : WF g) {next : Nat} (hpos : id ≠ 0) (hid : id ≤ maxVertexId)
    (hdead : g.hasVertex id = false) (hnext : id < next) (hge : g.nextVertexId ≤ next)
    (hmax : next ≤ maxVertexId + 1) :
    WF (g.withVertex id next) ∧ VertexAdded id g (g.withVertex id next) ∧
      (g.withVertex id next).vertexIdsByName = g.vertexIdsByName ∧
      (g.withVertex id next).vertexNamesById id = none := by
  obtain ⟨hgrown, hroom, hview⟩ := growTable_spec h hid
  have hlive : (g.growTable id).hasVertex = g.hasVertex := congrArg View.live hview
  have hdead' : (g.growTable id).hasVertex id = false := by rw [hlive, hdead]
  have hnextId : (g.growTable id).nextVertexId = g.nextVertexId := congrArg View.nextId hview
  have houts : XGraph.outs (g.growTable id) = XGraph.outs g := congrArg View.outgoing hview
  have hins : XGraph.ins (g.growTable id) = XGraph.ins g := congrArg View.incoming hview
  obtain ⟨vertices, capacity, hrest⟩ := growTable_rest g id
  have hflags : (g.growTable id).acyclic = g.acyclic ∧
      (g.growTable id).strictLabels = g.strictLabels := by
    rw [hrest]
    exact ⟨rfl, rfl⟩
  refine ⟨liven_wf hgrown hpos hroom hdead' hnext (by rw [hnextId]; exact hge) hmax,
    ⟨?_, ?_, ?_, congrArg View.labels hview, hflags⟩, congrArg View.idOf hview,
    hgrown.unnamed_of_dead hdead'⟩
  · intro j
    rw [← hlive]
    exact hasVertex_liven (g.growTable id) hpos hroom j
  · intro u
    rw [← houts]
    exact congrArg AdjList.entries (out_liven (g.growTable id) id u)
  · intro v
    rw [← hins]
    exact congrArg AdjList.entries (inn_liven (g.growTable id) id v)

theorem xgAddVertex_spec (h : WF g) (name : Value) :
    wp (xgAddVertex name) g
      (fun id g' => Kept g g' ∧ id = g.nextVertexId ∧ g'.nextVertexId = id + 1 ∧
        VertexAdded id g g')
      (fun _ g' => g' = g ∧ (name = .undef → maxVertexId < g.nextVertexId)) := by
  have hnextPos : g.nextVertexId ≠ 0 := by
    have hpos := h.table.next.1
    omega
  have hdead : g.hasVertex g.nextVertexId = false := by
    cases hlive : g.hasVertex g.nextVertexId with
    | false => rfl
    | true => exact absurd (h.table.below _ hlive) (Nat.lt_irrefl _)
  rw [xgAddVertex, wp_bind, wp_requireMutable h, wp_bind]
  apply wp_normalizeName name
  · intro normalized hname
    cases normalized with
    | none =>
      simp only [wp_bind, wp_get, wp_pure, wp_throwIf, xgVertexCapacity, wp_modify]
      refine ⟨fun hlimit => ⟨trivial, fun _ => by omega⟩, fun hlimit => ?_⟩
      have hmax : g.nextVertexId ≤ maxVertexId := by omega
      obtain ⟨hwf, hadded, -, -⟩ := withVertex_spec h hnextPos hmax hdead
        (Nat.lt_succ_self _) (Nat.le_succ _) (Nat.succ_le_succ hmax)
      rw [growTable_next]
      exact ⟨⟨hwf, Nat.le_succ _⟩, trivial, rfl, hadded⟩
    | some s =>
      have hnamed : name ≠ .undef := by
        rw [hname]
        exact Value.noConfusion
      simp only [wp_bind, wp_get, wp_pure, wp_throwIf, xgVertexCapacity, wp_modify]
      refine ⟨fun _ => ⟨trivial, fun hundef => absurd hundef hnamed⟩, fun hfree =>
        ⟨fun _ => ⟨trivial, fun hundef => absurd hundef hnamed⟩, fun hlimit => ?_⟩⟩
      have hmax : g.nextVertexId ≤ maxVertexId := by omega
      obtain ⟨hwf, hadded, hnames, hunnamed⟩ := withVertex_spec h hnextPos hmax hdead
        (Nat.lt_succ_self _) (Nat.le_succ _) (Nat.succ_le_succ hmax)
      have hlive := (hadded.live g.nextVertexId).2 (Or.inl rfl)
      have hfree' : (g.withVertex g.nextVertexId (g.nextVertexId + 1)).vertexIdsByName s = none := by
        rw [hnames]
        simpa using hfree
      have hstored := storeName_names hwf.names hlive hfree' hunnamed
      rw [growTable_next]
      refine ⟨⟨?_, Nat.le_succ _⟩, trivial, rfl, ?_⟩
      · exact hwf.of_names hstored.touch ⟨_, _, _, rfl⟩
      · exact ⟨hadded.live, hadded.outs, hadded.ins, hadded.labelsById, hadded.flags⟩
  · intro e hnamed
    exact ⟨rfl, fun hundef => absurd hundef hnamed⟩

theorem xgAddVertexId_spec (h : WF g) (id : Nat) :
    wp (xgAddVertexId id) g (fun _ g' => Kept g g') (fun _ g' => g' = g) := by
  rw [xgAddVertexId, wp_bind, wp_requireMutable h]
  simp only [wp_bind, wp_get, wp_throwIf, xgVertexCapacity, wp_modify]
  refine ⟨fun _ => trivial, fun hvalid => ⟨fun _ => trivial, fun hdup => ?_⟩⟩
  have hpos : id ≠ 0 := by omega
  have hmax : id ≤ maxVertexId := by omega
  have hdead : g.hasVertex id = false := by simpa using hdup
  obtain ⟨hgrown, -, hview⟩ := growTable_spec h hmax
  have hnextId : ((g.growTable id).liven id).nextVertexId = g.nextVertexId :=
    congrArg View.nextId hview
  by_cases hge : id ≥ g.nextVertexId
  · rw [if_pos (by rw [hnextId]; exact hge)]
    refine ⟨(withVertex_spec h hpos hmax hdead (Nat.lt_succ_self _) (by omega) (by omega)).1, ?_⟩
    exact Nat.le_succ_of_le hge
  · rw [if_neg (by rw [hnextId]; exact hge)]
    have hspec := withVertex_spec h hpos hmax hdead (show id < g.nextVertexId by omega)
      (Nat.le_refl _) h.table.next.2
    have heq : touchTopology ((g.growTable id).liven id) = g.withVertex id g.nextVertexId := by
      rw [withVertex, ← hnextId]
    rw [heq]
    exact ⟨hspec.1, Nat.le_refl _⟩

def Graph.unnamed (g : Graph) (id : Nat) : Graph :=
  match g.vertexNamesById id with
  | none => g
  | some old => g.deleteName id old

private theorem unnamed_spec (h : WF g) (id : Nat) :
    Names (g.unnamed id) ∧ (g.unnamed id).vertexNamesById id = none ∧
      (∃ byId byName, g.unnamed id = { g with vertexNamesById := byId, vertexIdsByName := byName }) ∧
      ∀ s, (∀ holder, g.vertexIdsByName s = some holder → holder = id) →
        (g.unnamed id).vertexIdsByName s = none := by
  cases hname : g.vertexNamesById id with
  | none =>
    have heq : g.unnamed id = g := by simp [unnamed, hname]
    rw [heq]
    refine ⟨h.names, hname, ⟨_, _, rfl⟩, ?_⟩
    intro s hholder
    cases hs : g.vertexIdsByName s with
    | none => rfl
    | some holder =>
      have hid := hholder holder hs
      rw [hid] at hs
      rw [(h.names.inverse s id).1 hs] at hname
      cases hname
  | some old =>
    have heq : g.unnamed id = g.deleteName id old := by simp [unnamed, hname]
    rw [heq]
    refine ⟨deleteName_names h.names hname, ?_, ⟨_, _, rfl⟩, ?_⟩
    · simp [deleteName]
    · intro s hholder
      simp only [deleteName]
      by_cases hs : s = old
      · rw [hs, Function.update_self]
      · rw [Function.update_of_ne hs]
        cases hheld : g.vertexIdsByName s with
        | none => rfl
        | some holder =>
          have hid := hholder holder hheld
          rw [hid] at hheld
          have hsame := (h.names.inverse s id).1 hheld
          rw [hname] at hsame
          exact absurd (Option.some.inj hsame).symm hs

def Graph.renamed (g : Graph) (id : Nat) : Option Str → Graph
  | none => (g.unnamed id).touchNames
  | some s => ((g.unnamed id).storeName id s).touchNames

private theorem renamed_spec (h : WF g) (hlive : g.hasVertex id = true)
    (normalized : Option Str)
    (hholder : ∀ s, normalized = some s → ∀ holder, g.vertexIdsByName s = some holder → holder = id) :
    WF (g.renamed id normalized) ∧ (g.renamed id normalized).nextVertexId = g.nextVertexId := by
  obtain ⟨hnames, hunnamed, ⟨byId, byName, heq⟩, hfree⟩ := unnamed_spec h id
  have hlive' : (g.unnamed id).hasVertex id = true := by
    rw [heq]
    exact hlive
  cases normalized with
  | none =>
    have hwf : WF (g.unnamed id).touchNames := by
      apply h.of_names hnames.touch
      rw [heq]
      exact ⟨_, _, _, rfl⟩
    refine ⟨hwf, ?_⟩
    rw [renamed, heq]
    rfl
  | some s =>
    have hstored := storeName_names hnames hlive' (hfree s (hholder s rfl)) hunnamed
    have hwf : WF ((g.unnamed id).storeName id s).touchNames := by
      apply h.of_names hstored.touch
      rw [heq]
      exact ⟨_, _, _, rfl⟩
    refine ⟨hwf, ?_⟩
    rw [renamed, heq]
    rfl

theorem wp_requireVertex (id : Nat) {Q : Unit → Graph → Prop} {E : XgError → Graph → Prop} :
    wp (xgRequireVertex id) g Q E ↔
      (g.hasVertex id = false → E .unknownVertex g) ∧ (¬ g.hasVertex id = false → Q () g) := by
  simp only [xgRequireVertex, wp_bind, wp_get, wp_throwIf]

theorem xgRenameVertex_spec (h : WF g) (id : Nat) (name : Value) :
    wp (xgRenameVertex id name) g (fun _ g' => Kept g g') (fun _ g' => g' = g) := by
  rw [xgRenameVertex, wp_bind, wp_requireMutable h, wp_bind, wp_requireVertex]
  refine ⟨fun _ => rfl, fun hlive => ?_⟩
  have hlive' : g.hasVertex id = true := by simpa using hlive
  rw [wp_bind]
  apply wp_normalizeName name
  · intro normalized _
    have hend (hholder : ∀ s, normalized = some s →
        ∀ holder, g.vertexIdsByName s = some holder → holder = id) : Kept g (g.renamed id normalized) := by
      obtain ⟨hwf, hnext⟩ := renamed_spec h hlive' normalized hholder
      exact ⟨hwf, Nat.le_of_eq hnext.symm⟩
    cases normalized with
    | none =>
      have hkept := hend (by simp)
      cases hname : g.vertexNamesById id with
      | none =>
        simp only [wp_bind, wp_get, hname, wp_modify]
        simpa [renamed, unnamed, hname] using hkept
      | some old =>
        simp only [wp_bind, wp_get, hname, wp_modify]
        simpa [renamed, unnamed, hname] using hkept
    | some s =>
      have hstore (hholder : ∀ holder, g.vertexIdsByName s = some holder → holder = id) :
          Kept g (g.renamed id (some s)) := by
        apply hend
        intro t ht
        rw [← Option.some.inj ht]
        exact hholder
      cases hheld : g.vertexIdsByName s with
      | none =>
        have hkept := hstore (by simp [hheld])
        cases hname : g.vertexNamesById id with
        | none =>
          simp only [wp_bind, wp_get, hheld, hname, wp_modify]
          simpa [renamed, unnamed, hname] using hkept
        | some old =>
          simp only [wp_bind, wp_get, hheld, hname, wp_modify]
          simpa [renamed, unnamed, hname] using hkept
      | some holder =>
        simp only [wp_bind, wp_get, hheld, wp_throwIf]
        refine ⟨fun _ => trivial, fun hsame => ?_⟩
        have hkept := hstore (by
          intro other hother
          rw [hheld] at hother
          rw [← Option.some.inj hother]
          exact Decidable.of_not_not hsame)
        cases hname : g.vertexNamesById id with
        | none =>
          simp only [wp_bind, wp_modify]
          simpa [renamed, unnamed, hname] using hkept
        | some old =>
          simp only [wp_bind, wp_modify]
          simpa [renamed, unnamed, hname] using hkept
  · intro e _
    rfl

end XPerl.XGraph
