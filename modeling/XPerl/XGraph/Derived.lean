import XPerl.XGraph.Condensation
import XPerl.XGraph.Run

/-! What the graphs made from a graph are: the condensation, and what becomes of the names. -/

namespace XPerl.XGraph

open XPerl.Framework Exec Relation

variable {g t : Graph} {cs : List (List Nat)}

/-- The `i`-th of the edges from vertex 2: one back to vertex 1, the others to fresh ends. -/
def spreadTarget (i : Nat) : Nat := if i = 0 then 1 else i + 2

/-- The full list of vertex 1, and `n` edges from vertex 2. -/
structure Spread (n : Nat) (g : Graph) : Prop where
  wf : WF g
  live : ∀ id, id ≠ 0 → id ≤ maxVertexId → g.hasVertex id = true
  acyclic : g.acyclic = false
  first : ∀ e, e ∈ outs g 1 ↔ ∃ j < 2 ^ 31, e = nthEntry j
  second : ∀ e, e ∈ outs g 2 ↔ ∃ i < n, e = xgPack (spreadTarget i) 1
  incoming : ∀ v, ∀ e ∈ ins g v, e < 768

theorem spreadTarget_fits {i : Nat} (hi : i < 260) : Fits (spreadTarget i) 1 := by
  have hmax : maxVertexId = 16777215 := rfl
  refine ⟨?_, by decide⟩
  rw [spreadTarget]
  split <;> omega

theorem Filled.spread (h : Filled (2 ^ 31) g) : Spread 0 g where
  wf := h.wf
  live := h.live
  acyclic := h.flags.1
  first := h.outs
  second := by
    intro e
    constructor
    · intro he
      exfalso
      have hword := h.wf.topology.outWord 2 e he
      have hfits := h.wf.topology.source_fits h.wf.table he
      have hmirror := h.wf.topology.mirror 2 (xgEntryVertex e) (xgEntryLabel e) hfits
        (fits_of_word hword)
      rw [xgPack_word hword] at hmirror
      have hlt := h.ins _ _ (hmirror.1 he)
      rw [xgPack_eq hfits] at hlt
      omega
    · intro he
      obtain ⟨i, hi, -⟩ := he
      omega
  incoming := by
    intro v e he
    have hlt := h.ins v e he
    omega

def spreadEdge (i : Nat) : Op := .addEdge 2 (spreadTarget i) .undef

theorem Spread.step {n : Nat} (h : Spread n g) (hn : n < 260) :
    Spread (n + 1) (stateAfter (spreadEdge n).call g) := by
  have hfits := spreadTarget_fits hn
  have hpos : spreadTarget n ≠ 0 := by
    rw [spreadTarget]
    split <;> omega
  have hu := h.live 2 (by decide) (by decide)
  have hv := h.live (spreadTarget n) hpos hfits.1
  have hlabels := h.wf.labels.reserved_lt
  have hundef : g.labelValue 1 = .undef := by
    obtain ⟨rest, hrest⟩ := h.wf.labels.reserved
    rw [Graph.labelValue, hrest]
    rfl
  have hnew : xgPack (spreadTarget n) 1 ∉ outs g 2 := by
    intro hold
    obtain ⟨i, hi, heq⟩ := (h.second _).1 hold
    have hsame := (xgPack_inj hfits (spreadTarget_fits (by omega)) heq).1
    rw [spreadTarget, spreadTarget] at hsame
    split at hsame <;> split at hsame <;> omega
  have hroomOut : (outs g 2).length ≤ n := by
    have hsub : outs g 2 ⊆ (List.range n).map fun i => xgPack (spreadTarget i) 1 := by
      intro e he
      obtain ⟨i, hi, rfl⟩ := (h.second e).1 he
      exact List.mem_map_of_mem (List.mem_range.2 hi)
    have hle := (List.Nodup.subperm ((h.wf.topology.outOk 2).sorted.imp Nat.ne_of_lt) hsub).length_le
    rwa [List.length_map, List.length_range] at hle
  have hroomIn : (ins g (spreadTarget n)).length ≤ 768 := by
    have hrange : Counted (fun e => e < 768) 768 :=
      ⟨List.range 768, List.nodup_range, fun _ => List.mem_range, List.length_range⟩
    exact hrange.length_le ((h.wf.topology.inOk _).sorted.imp Nat.ne_of_lt) (h.incoming _)
  have hcall : returns (spreadEdge n).call g fun _ g' => Spread (n + 1) g' := by
    rw [spreadEdge, Op.call, returns, wp_map, ← hundef]
    apply wp_mono (xgAddEdge_known_label h.wf hu hv (by simp [h.acyclic]) (Or.inl rfl) (by omega) hnew)
    · intro _ g' hadded
      refine ⟨hadded.wf h.wf hu hv (by omega) hnew, fun id hid hle => ?_, ?_, fun e => ?_, fun e => ?_,
        fun v e he => ?_⟩
      · rw [hadded.frame.live]
        exact h.live id hid hle
      · rw [hadded.frame.flags.1]
        exact h.acyclic
      · rw [hadded.outs, h.first]
        simp
      · rw [hadded.outs, h.second]
        constructor
        · intro he
          rcases he with ⟨-, rfl⟩ | ⟨i, hi, rfl⟩
          · exact ⟨n, Nat.lt_succ_self n, rfl⟩
          · exact ⟨i, by omega, rfl⟩
        · intro he
          obtain ⟨i, hi, rfl⟩ := he
          by_cases hin : i = n
          · exact Or.inl ⟨rfl, by rw [hin]⟩
          · exact Or.inr ⟨i, by omega, rfl⟩
      · rw [hadded.ins] at he
        rcases he with ⟨-, rfl⟩ | he
        · rw [xgPack_eq ⟨by decide, by decide⟩]
          omega
        · exact h.incoming v e he
    · intro _ _ hfull
      rcases hfull with hfull | hfull
      · omega
      · omega
  exact wp_stateAfter (wp_of_returns hcall fun _ _ hg' => hg')

def giantRun : List Op := fillingRun (2 ^ 31) ++ (List.range 260).map spreadEdge

def giantGraph : Graph := (run Op.call (xgNew false false) giantRun).withFrozen false

theorem giantGraph_intact : Intact giantGraph := run_intact false false false giantRun

theorem Spread.withFrozen {n : Nat} {frozen : Bool} (h : Spread n g)
    (hwf : WF (g.withFrozen frozen)) :
    Spread n (g.withFrozen frozen) :=
  ⟨hwf, h.live, h.acyclic, h.first, h.second, h.incoming⟩

theorem giantGraph_spread : Spread 260 giantGraph := by
  have hrun : Spread 260 (run Op.call (xgNew false false) giantRun) := by
    rw [giantRun, run_append]
    apply run_map_range (fun n g => Spread n g)
    · exact (filled_run (Nat.le_refl (2 ^ 31))).spread
    · intro i hi g hg
      exact hg.step hi
  exact hrun.withFrozen (giantGraph_intact.wf rfl)

theorem Spread.no_outs (h : Spread 260 g) {x : Nat} (hx : 3 ≤ x) (y : Nat) : ¬ g.Adjacent x y := by
  intro hedge
  obtain ⟨l, hout⟩ := hedge
  have hlive := h.wf.inStep.ends x y l hout
  have hfits := h.wf.table.fits hlive.1 ((outgoing_iff h.wf).1 hout).1.2
  obtain ⟨e, he, hv, hl⟩ := (h.wf.inStep.mirror x y l).1 hout
  have hlt := h.incoming y e he
  rw [xgEntryVertex_eq] at hv
  omega

theorem Spread.alone (h : Spread 260 g) {x y : Nat} (hx : 3 ≤ x)
    (hway : ReflTransGen g.Adjacent x y) : x = y := by
  rcases ReflTransGen.cases_head hway with heq | ⟨z, hedge, -⟩
  · exact heq
  · exact absurd hedge (h.no_outs hx z)

/-- The `j`-th of more edges than a list has room for: the last are those from vertex 2. -/
def giantEdge (j : Nat) : Nat × Nat × Nat :=
  if j < 259 then (2, j + 3, 1) else (1, (j - 1) / 129 + 1, (j - 1) % 129 + 3)

theorem Spread.giantEdge (h : Spread 260 g) {j : Nat} (hj : j < 2 ^ 31 + 1) :
    g.Outgoing (giantEdge j).1 (giantEdge j).2.1 (giantEdge j).2.2 := by
  rw [XGraph.giantEdge]
  by_cases hfew : j < 259
  · rw [if_pos hfew]
    have hfits := spreadTarget_fits (i := j + 1) (by omega)
    rw [spreadTarget, if_neg (Nat.succ_ne_zero j)] at hfits
    refine (outgoing_iff h.wf).2 ⟨hfits, (h.second _).2 ⟨j + 1, by omega, ?_⟩⟩
    rw [spreadTarget, if_neg (Nat.succ_ne_zero j)]
  · rw [if_neg hfew]
    exact (outgoing_iff h.wf).2 ⟨nthEntry_fits (by omega), (h.first _).2 ⟨j - 1, by omega, rfl⟩⟩

theorem Spread.overflows (h : Spread 260 g) (hcs : ComponentsOf g true cs) : ¬ ListsFit g cs := by
  intro hfit
  have hback : g.Outgoing 2 1 1 := (outgoing_iff h.wf).2
    ⟨⟨by decide, by decide⟩, (h.second _).2 ⟨0, by omega, rfl⟩⟩
  have hforth : g.Outgoing 1 2 3 := (outgoing_iff h.wf).2
    ⟨⟨by decide, by decide⟩, (h.first _).2 ⟨129, by omega, rfl⟩⟩
  have hone := (h.wf.inStep.ends _ _ _ hback).2
  have htwo := (h.wf.inStep.ends _ _ _ hback).1
  have hsame : numberOf cs 2 = numberOf cs 1 := (hcs.same_number htwo hone).2
    ⟨ReflTransGen.single ⟨1, hback⟩, ReflTransGen.single ⟨3, hforth⟩⟩
  have hlive {j : Nat} (hj : j < 2 ^ 31 + 1) := h.wf.inStep.ends _ _ _ (h.giantEdge hj)
  have htarget {j : Nat} (hj : j < 2 ^ 31 + 1) : 3 ≤ (XGraph.giantEdge j).2.1 := by
    rw [XGraph.giantEdge]
    split
    · exact Nat.le_add_left 3 j
    · change 3 ≤ (j - 1) / 129 + 1
      omega
  let pair : Nat → Nat × Nat := fun j => (numberOf cs (XGraph.giantEdge j).2.1, (XGraph.giantEdge j).2.2)
  have hcross : ∀ p ∈ (List.range (2 ^ 31 + 1)).map pair, CrossEdge g cs (numberOf cs 1) p.1 p.2 := by
    intro p hp
    obtain ⟨j, hj, rfl⟩ := List.mem_map.1 hp
    have hj' := List.mem_range.1 hj
    obtain ⟨hu, hv⟩ := hlive hj'
    have hnumber : numberOf cs (XGraph.giantEdge j).1 = numberOf cs 1 := by
      rw [XGraph.giantEdge]
      split
      · exact hsame
      · rfl
    refine ⟨fun heq => ?_, _, _, hnumber ▸ hcs.numbered hu, hcs.numbered hv, h.giantEdge hj'⟩
    have htogether := (hcs.same_number hone hv).1 heq
    have hfirst := h.alone (htarget hj') htogether.2
    have hthree := htarget hj'
    omega
  have hinj : ∀ i ∈ List.range (2 ^ 31 + 1), ∀ j ∈ List.range (2 ^ 31 + 1), pair i = pair j → i = j := by
    intro i hi j hj heq
    have hi' := List.mem_range.1 hi
    have hj' := List.mem_range.1 hj
    obtain ⟨hnumber, hlabel⟩ := Prod.mk.inj heq
    have hends := h.alone (htarget hi') ((hcs.same_number (hlive hi').2 (hlive hj').2).1 hnumber).1
    rw [XGraph.giantEdge, XGraph.giantEdge] at hends hlabel
    by_cases hfew : i < 259
    · by_cases hfew' : j < 259
      · rw [if_pos hfew, if_pos hfew'] at hends
        exact Nat.add_right_cancel hends
      · rw [if_pos hfew, if_neg hfew'] at hlabel
        change 1 = (j - 1) % 129 + 3 at hlabel
        omega
    · by_cases hfew' : j < 259
      · rw [if_neg hfew, if_pos hfew'] at hlabel
        change (i - 1) % 129 + 3 = 1 at hlabel
        omega
      · rw [if_neg hfew, if_neg hfew'] at hends hlabel
        change (i - 1) / 129 + 1 = (j - 1) / 129 + 1 at hends
        change (i - 1) % 129 + 3 = (j - 1) % 129 + 3 at hlabel
        omega
  have hle := (hfit (numberOf cs 1)).1 _ (List.nodup_range.map_on hinj) hcross
  rw [List.length_map, List.length_range] at hle
  omega

theorem Spread.condensation_throws (hspread : Spread 260 g) (h : Intact g) :
    ¬ ∃ result g', xgCondensation.run g = .ok result g' := by
  intro hreturns
  obtain ⟨result, g', hresult⟩ := hreturns
  obtain ⟨cs, hcs, hrun⟩ := xgComponents_run h true false
  rw [if_neg Bool.false_ne_true] at hrun
  have hspec := xgCondensation_spec h hcs hrun
  rw [wp_of_run hresult] at hspec
  obtain ⟨-, t, hwf, ht, -⟩ := hspec
  exact hspread.overflows hcs (ht.fits hwf)

/-- The condensation is the quotient wherever its lists fit, and the roots are the first members of
the components no edge enters. -/
theorem condensation_is_quotient (h : Intact g) :
    ∃ cs roots, ComponentsOf g true cs ∧
      ((∃ result, xgCondensation.run g = .ok result g) ↔ ListsFit g cs) ∧
      (∀ result g', xgCondensation.run g = .ok result g' → g' = g ∧ result.components = cs ∧
        (∀ i v, 0 < i → (result.componentOf v = i ↔ InComponent cs i v)) ∧
        Quotient g cs result.graph ∧ Reach.Acyclic result.graph.Adjacent) ∧
      xgReachabilityRoots.run g = .ok roots g ∧ RootsOf g cs roots := by
  obtain ⟨cs, hcs, hrun⟩ := xgComponents_run h true false
  rw [if_neg Bool.false_ne_true] at hrun
  obtain ⟨roots, hroots, hrootsOf⟩ := xgReachabilityRoots_run h hcs hrun
  have hspec := xgCondensation_spec h hcs hrun
  refine ⟨cs, roots, hcs, ⟨fun hreturns => ?_, fun hfit => ?_⟩, fun result g' hresult => ?_, hroots,
    hrootsOf⟩
  · obtain ⟨result, hresult⟩ := hreturns
    rw [wp_of_run hresult] at hspec
    obtain ⟨-, t, hwf, ht, -⟩ := hspec
    exact ht.fits hwf
  · have hreturns : returns xgCondensation g fun _ g' => g' = g ∧ True :=
      wp_mono hspec (fun _ _ hresult => ⟨hresult.1, trivial⟩) fun _ _ hno => hno hfit
    obtain ⟨result, hresult, -⟩ := exists_run hreturns
    exact ⟨result, hresult⟩
  · rw [wp_of_run hresult] at hspec
    obtain ⟨rfl, t, hwf, ht, rfl⟩ := hspec
    have hquotient : Quotient g' cs (t.withNames g'.vertexNamesById g'.vertexIdsByName) :=
      ⟨ht.live, ht.labelsById, ht.edges⟩
    exact ⟨rfl, rfl, fun i v hi => hcs.numberOf_eq hi, hquotient, hquotient.acyclic hcs⟩

theorem condensation_is_quotient_twoCycle :
    ∃ cs roots, ComponentsOf twoCycle true cs ∧
      ((∃ result, xgCondensation.run twoCycle = .ok result twoCycle) ↔ ListsFit twoCycle cs) ∧
      (∀ result g', xgCondensation.run twoCycle = .ok result g' → g' = twoCycle ∧
        result.components = cs ∧
        (∀ i v, 0 < i → (result.componentOf v = i ↔ InComponent cs i v)) ∧
        Quotient twoCycle cs result.graph ∧ Reach.Acyclic result.graph.Adjacent) ∧
      xgReachabilityRoots.run twoCycle = .ok roots twoCycle ∧ RootsOf twoCycle cs roots :=
  condensation_is_quotient twoCycle_intact

/-- Too many edges leave one component. -/
theorem condensation_overflows :
    Intact giantGraph ∧ ¬ ∃ result g', xgCondensation.run giantGraph = .ok result g' :=
  ⟨giantGraph_intact, giantGraph_spread.condensation_throws giantGraph_intact⟩

theorem ComponentsOf.unique {strong : Bool} {cs' : List (List Nat)} (h : ComponentsOf g strong cs)
    (h' : ComponentsOf g strong cs') : cs = cs' := by
  have hsub {ds ds' : List (List Nat)} (hd : ComponentsOf g strong ds)
      (hd' : ComponentsOf g strong ds') : ds ⊆ ds' := by
    intro c hc
    have hmem := hd.firstMember_mem hc
    have hmembers := hd.members c hc _ hmem
    obtain ⟨c', hc', hmem'⟩ := hd'.cover _ ((hmembers _).1 hmem).1
    have hsame : ∀ v, v ∈ c ↔ v ∈ c' := fun v => by
      rw [hmembers, hd'.members c' hc' _ hmem']
    rwa [(hd.ascending c hc).2.eq_of_mem_iff (hd'.ascending c' hc').2 hsame]
  have hperm : cs.Perm cs' := by
    rw [List.perm_ext_iff_of_nodup h.nodup h'.nodup]
    exact fun c => ⟨fun hc => hsub h h' hc, fun hc => hsub h' h hc⟩
  refine hperm.eq_of_pairwise (fun a b _ _ hab hba => ?_) h.sorted h'.sorted
  exact absurd hba (Nat.lt_asymm hab)

theorem withNames_intact_iff (h : Intact g) (hwf : WF t) (ht : Quotient g cs t) :
    Intact (t.withNames g.vertexNamesById g.vertexIdsByName) ↔
      ∀ s id, g.vertexIdsByName s = some id → id ≤ cs.length := by
  constructor
  · intro hintact s id hs
    exact ((ht.live id).1 (hintact.names.live s id hs)).2
  · intro hnames
    refine ⟨hwf.usable.1, ?_, ⟨hwf.table.capacity, hwf.table.next, hwf.table.below, hwf.table.live⟩,
      ⟨h.names.inverse, fun s id hs => ?_⟩,
      ⟨hwf.labels.reserved, hwf.labels.limit, hwf.labels.inverse⟩, fun i e he => ?_⟩
    · exact hwf.topology.congr hwf.topology.outOk hwf.topology.inOk (fun _ => rfl) (fun _ => rfl)
        (fun _ hid => hid) (Nat.le_refl _) rfl
    · have hpos := hasVertex_pos (h.names.live s id hs)
      exact (ht.live id).2 ⟨Nat.pos_of_ne_zero hpos, hnames s id hs⟩
    · obtain ⟨-, u, v, -, -, e', he', -, hl⟩ := (ht.edges _ _ _).1 ⟨e, he, rfl, rfl⟩
      have hnamed := h.known u e' he'
      change LabelNamed t _
      rw [LabelNamed, ht.labelsById, ← hl]
      exact hnamed

/-- The graphs made from a graph are intact, and in copies names denote what they did. -/
structure DerivedIntact (g : Graph) : Prop where
  clone : ∀ mutableCopy, ∃ c, (xgClone mutableCopy).run g = .ok c g ∧ Intact c ∧
    c.vertexIdsByName = g.vertexIdsByName
  induced : ∀ ids : List Nat, (∀ id ∈ ids, g.hasVertex id = true) →
    ∃ r, (xgInducedSubgraph (ids.map some)).run g = .ok r g ∧ Intact r ∧
      ∀ s id, r.vertexIdsByName s = some id ↔ g.vertexIdsByName s = some id ∧ id ∈ ids
  condensed : ∀ result g', xgCondensation.run g = .ok result g' → Intact result.graph

/-- No name is that of a vertex behind the number of strong components, if the lists fit at all. -/
def NamedWithin (g : Graph) : Prop :=
  ∀ cs, ComponentsOf g true cs → ListsFit g cs →
    ∀ s id, g.vertexIdsByName s = some id → id ≤ cs.length

theorem condensed_intact_iff (h : Intact g) :
    (∀ result g', xgCondensation.run g = .ok result g' → Intact result.graph) ↔ NamedWithin g := by
  obtain ⟨cs, hcs, hrun⟩ := xgComponents_run h true false
  rw [if_neg Bool.false_ne_true] at hrun
  have hspec := xgCondensation_spec h hcs hrun
  constructor
  · intro hintact cs' hcs' hfit
    obtain rfl := hcs.unique hcs'
    have hreturns : returns xgCondensation g fun result g' => g' = g ∧ ∃ t, WF t ∧
        Quotient g cs t ∧
        result = ⟨t.withNames g.vertexNamesById g.vertexIdsByName, cs, numberOf cs⟩ :=
      wp_mono hspec (fun _ _ hresult => hresult) fun _ _ hno => hno hfit
    obtain ⟨result, hresult, t, hwf, ht, rfl⟩ := exists_run hreturns
    exact (withNames_intact_iff h hwf ht).1 (hintact _ _ hresult)
  · intro hnamed result g' hresult
    rw [wp_of_run hresult] at hspec
    obtain ⟨rfl, t, hwf, ht, rfl⟩ := hspec
    exact (withNames_intact_iff h hwf ht).2 (hnamed cs hcs (ht.fits hwf))

/-- Clones and induced subgraphs are always intact; the condensation keeps the name maps of the
source, which fit it only when no name is out of its range. -/
theorem derived_intact_iff (h : Intact g) : DerivedIntact g ↔ NamedWithin g := by
  constructor
  · intro hderived
    exact (condensed_intact_iff h).1 hderived.condensed
  · intro hnamed
    refine ⟨fun mutableCopy => ?_, fun ids hids => ?_, (condensed_intact_iff h).2 hnamed⟩
    · obtain ⟨c, hclone, hcloned⟩ := xgClone_run h mutableCopy
      exact ⟨c, hclone, hcloned.intact, congrArg View.idOf hcloned.view⟩
    · obtain ⟨r, hinduced, hr⟩ := xgInducedSubgraph_run h ids hids
      exact ⟨r, hinduced, hr.wf.intact hr.known, hr.names⟩

/-- A cycle of two vertices, of which the second has a name. -/
def namedCycle : Graph :=
  (run Op.call (xgNew false false)
    [.addVertex .undef, .addVertex (.str [98]), .addEdge 1 2 .undef, .addEdge 2 1 .undef]).withFrozen
    false

theorem namedCycle_intact : Intact namedCycle := run_intact false false false _

theorem namedCycle_condensed :
    ∃ cs, ComponentsOf namedCycle true cs ∧ ListsFit namedCycle cs ∧ cs.length ≤ 1 := by
  obtain ⟨cs, hcs, -⟩ := xgComponents_run namedCycle_intact true false
  have hforth : namedCycle.Adjacent 1 2 := ⟨1, 513, List.mem_cons_self, rfl, rfl⟩
  have hback : namedCycle.Adjacent 2 1 := ⟨1, 257, List.mem_cons_self, rfl, rfl⟩
  have hfew : ∀ v, namedCycle.hasVertex v = true → v = 1 ∨ v = 2 := by
    intro v hv
    have hlt : v < 3 := namedCycle_intact.table.below v hv
    have hpos := hasVertex_pos hv
    omega
  have htogether : ∀ u v, namedCycle.hasVertex u = true → namedCycle.hasVertex v = true →
      namedCycle.Together true u v := by
    have hone : namedCycle.Together true 1 2 :=
      ⟨ReflTransGen.single hforth, ReflTransGen.single hback⟩
    intro u v hu hv
    rcases hfew u hu with rfl | rfl
    · rcases hfew v hv with rfl | rfl
      · exact Together.refl true 1
      · exact hone
    · rcases hfew v hv with rfl | rfl
      · exact Together.symm hone
      · exact Together.refl true 2
  have hone := hcs.length_le_one htogether
  have hnone : ∀ i j l, ¬ CrossEdge namedCycle cs i j l := by
    intro i j l hcross
    obtain ⟨hne, u, v, hu, hv, -⟩ := hcross
    have hi := hu.range
    have hj := hv.range
    omega
  exact ⟨cs, hcs, fun i => ⟨Few.of_none fun p => hnone i p.1 p.2,
    Few.of_none fun p => hnone p.1 i p.2⟩, hone⟩

theorem named_vertex_lost : Intact namedCycle ∧ ¬ DerivedIntact namedCycle := by
  refine ⟨namedCycle_intact, fun hderived => ?_⟩
  obtain ⟨cs, hcs, hfit, hone⟩ := namedCycle_condensed
  have hle := (condensed_intact_iff namedCycle_intact).1 hderived.condensed cs hcs hfit [98] 2 rfl
  omega

theorem derived_intact_iff_twoCycle : DerivedIntact twoCycle ↔ NamedWithin twoCycle :=
  derived_intact_iff twoCycle_intact

end XPerl.XGraph
