import XPerl.XGraph.Copies
import XPerl.XGraph.DeletePaths
import XPerl.XGraph.TopologicalSort

/-! The graph of the strong components, and the vertices everything can be reached from. -/

namespace XPerl.XGraph

open XPerl.Framework Exec Relation

def numberMembers (component : List Nat) (number : Nat) (mapping : Nat → Nat) : Nat → Nat :=
  component.foldl (fun mapping id => Function.update mapping id number) mapping

/-- `component_of`: the components are numbered from 1, and 0 stands for none. -/
def componentNumbers : List (List Nat) → Nat → (Nat → Nat) → Nat → Nat
  | [], _, mapping => mapping
  | component :: rest, i, mapping =>
    componentNumbers rest (i + 1) (numberMembers component (i + 1) mapping)

def Graph.outEntries (graph : Graph) : List (Nat × Nat) :=
  graph.liveIds.flatMap fun id => (graph.out id).entries.map fun entry => (id, entry)

def markIncoming (componentOf : Nat → Nat) : List (Nat × Nat) → (Nat → Bool) → Nat → Bool
  | [], hasIncoming => hasIncoming
  | (id, entry) :: entries, hasIncoming =>
    let target := xgEntryVertex entry
    if componentOf id ≠ componentOf target then
      markIncoming componentOf entries (Function.update hasIncoming (componentOf target) true)
    else markIncoming componentOf entries hasIncoming

def pickRoots (hasIncoming : Nat → Bool) : List (List Nat) → Nat → List Nat
  | [], _ => []
  | component :: rest, i =>
    match hasIncoming (i + 1), component.head? with
    | false, some member => member :: pickRoots hasIncoming rest (i + 1)
    | _, _ => pickRoots hasIncoming rest (i + 1)

def xgReachabilityRoots : XgM (List Nat) := do
  let components ← xgComponents true false
  let graph ← get
  let componentOf := componentNumbers components 0 fun _ => 0
  let hasIncoming := markIncoming componentOf graph.outEntries fun _ => false
  return pickRoots hasIncoming components 0

def addComponents : List (List Nat) → Nat → (Nat → Nat) → XgM (Nat → Nat)
  | [], _, mapping => return mapping
  | component :: rest, i, mapping => do
    let _ ← xgAddVertex .undef
    addComponents rest (i + 1) (numberMembers component (i + 1) mapping)

def addCrossEdges (source : Graph) (mapping : Nat → Nat) : List (Nat × Nat) → XgM Unit
  | [] => return ()
  | (id, entry) :: entries => do
    let target := xgEntryVertex entry
    if mapping id = mapping target then addCrossEdges source mapping entries
    else
      let (label, _) ← onGraph source (xgLabelValue (xgEntryLabel entry))
      let present ← xgHasEdge (mapping id) (mapping target) label
      if present = true then addCrossEdges source mapping entries
      else
        xgAddEdge (mapping id) (mapping target) label
        addCrossEdges source mapping entries

/-- The condensed graph with `components_out` and `component_of_out`. -/
structure Condensed where
  graph : Graph
  components : List (List Nat)
  componentOf : Nat → Nat

def xgCondensation : XgM Condensed := do
  let components ← xgComponents true false
  xgRequireUsable
  let graph ← get
  let (mapping, result) ← onGraph ((xgNew true graph.strictLabels).copyMaps graph) do
    let mapping ← addComponents components 0 fun _ => 0
    addCrossEdges graph mapping graph.outEntries
    return mapping
  return ⟨result, components, mapping⟩

variable {g t : Graph} {cs : List (List Nat)} {u v : Nat}

/-- A member of the component with the number. -/
def InComponent (cs : List (List Nat)) (i v : Nat) : Prop :=
  0 < i ∧ ∃ c, cs[i - 1]? = some c ∧ v ∈ c

theorem numberMembers_eq (c : List Nat) (n : Nat) (mapping : Nat → Nat) (v : Nat) :
    numberMembers c n mapping v = if v ∈ c then n else mapping v := by
  induction c generalizing mapping with
  | nil => rfl
  | cons x c ih =>
    have hstep : numberMembers (x :: c) n mapping = numberMembers c n (Function.update mapping x n) :=
      rfl
    rw [hstep, ih]
    by_cases hv : v ∈ c
    · rw [if_pos hv, if_pos (List.mem_cons_of_mem x hv)]
    · rw [if_neg hv]
      by_cases hx : v = x
      · rw [hx, Function.update_self, if_pos List.mem_cons_self]
      · rw [Function.update_of_ne hx, if_neg (by simp [hv, hx])]

theorem componentNumbers_eq (hapart : cs.Pairwise fun c d => ∀ v ∈ c, v ∉ d) (n : Nat)
    (mapping : Nat → Nat) (v : Nat) :
    (∀ i c, cs[i]? = some c → v ∈ c → componentNumbers cs n mapping v = n + i + 1) ∧
      ((∀ c ∈ cs, v ∉ c) → componentNumbers cs n mapping v = mapping v) := by
  induction cs generalizing n mapping with
  | nil =>
    refine ⟨fun i c hc => ?_, fun _ => rfl⟩
    simp at hc
  | cons d cs ih =>
    obtain ⟨hd, hapart⟩ := List.pairwise_cons.1 hapart
    obtain ⟨hin, hout⟩ := ih hapart (n + 1) (numberMembers d (n + 1) mapping)
    rw [componentNumbers]
    constructor
    · intro i c hc hv
      cases i with
      | zero =>
        obtain rfl : d = c := by simpa using hc
        rw [hout fun c hc => hd c hc v hv, numberMembers_eq, if_pos hv]
      | succ i =>
        rw [hin i c (by simpa using hc) hv]
        omega
    · intro hno
      rw [hout fun c hc => hno c (List.mem_cons_of_mem d hc), numberMembers_eq,
        if_neg (hno d List.mem_cons_self)]

theorem ComponentsOf.pairwise_apart (h : ComponentsOf g true cs) :
    cs.Pairwise fun c d => ∀ v ∈ c, v ∉ d := by
  refine h.sorted.imp_of_mem fun {c d} hc hd hlt v hvc hvd => ?_
  rw [h.apart hc hd hvc hvd] at hlt
  exact Nat.lt_irrefl _ hlt

theorem ComponentsOf.firstMember_mem {strong : Bool} (h : ComponentsOf g strong cs) {c : List Nat}
    (hc : c ∈ cs) : firstMember c ∈ c := by
  cases c with
  | nil => exact absurd rfl (h.ascending [] hc).1
  | cons v c => exact List.mem_cons_self

abbrev numberOf (cs : List (List Nat)) : Nat → Nat := componentNumbers cs 0 fun _ => 0

variable {i j l : Nat}

theorem ComponentsOf.numberOf_eq (h : ComponentsOf g true cs) (hi : 0 < i) :
    numberOf cs v = i ↔ InComponent cs i v := by
  obtain ⟨hin, hout⟩ := componentNumbers_eq h.pairwise_apart 0 (fun _ => 0) v
  constructor
  · intro hnumber
    by_cases hno : ∀ c ∈ cs, v ∉ c
    · have hzero : numberOf cs v = 0 := hout hno
      omega
    · push Not at hno
      obtain ⟨c, hc, hv⟩ := hno
      obtain ⟨j, hj⟩ := List.mem_iff_getElem?.1 hc
      have hji : numberOf cs v = 0 + j + 1 := hin j c hj hv
      have hpred : i - 1 = j := by omega
      exact ⟨hi, c, by rw [hpred, hj], hv⟩
  · intro hmember
    obtain ⟨-, c, hc, hv⟩ := hmember
    rw [numberOf, hin (i - 1) c hc hv]
    omega

theorem InComponent.range (h : InComponent cs i v) : 0 < i ∧ i ≤ cs.length := by
  obtain ⟨hpos, c, hc, -⟩ := h
  obtain ⟨hlt, -⟩ := List.getElem?_eq_some_iff.1 hc
  omega

theorem ComponentsOf.numbered (h : ComponentsOf g true cs) (hv : g.hasVertex v = true) :
    InComponent cs (numberOf cs v) v := by
  obtain ⟨c, hc, hvc⟩ := h.cover v hv
  obtain ⟨j, hj⟩ := List.mem_iff_getElem?.1 hc
  have hmember : InComponent cs (j + 1) v := ⟨Nat.succ_pos j, c, hj, hvc⟩
  rwa [(h.numberOf_eq (Nat.succ_pos j)).2 hmember]

theorem ComponentsOf.same_number (h : ComponentsOf g true cs) (hu : g.hasVertex u = true)
    (hv : g.hasVertex v = true) : numberOf cs u = numberOf cs v ↔ g.Together true u v := by
  obtain ⟨hpos, c, hc, huc⟩ := h.numbered hu
  have hcmem := List.mem_of_getElem? hc
  have hmembers := h.members c hcmem u huc v
  constructor
  · intro heq
    obtain ⟨-, d, hd, hvd⟩ := h.numbered hv
    rw [← heq, hc] at hd
    obtain rfl := Option.some.inj hd
    exact (hmembers.1 hvd).2
  · intro htogether
    exact ((h.numberOf_eq hpos).2 ⟨hpos, c, hc, hmembers.2 ⟨hv, htogether⟩⟩).symm

def CrossEdge (g : Graph) (cs : List (List Nat)) (i j l : Nat) : Prop :=
  i ≠ j ∧ ∃ u v, InComponent cs i u ∧ InComponent cs j v ∧ g.Outgoing u v l

def CrossAdjacent (g : Graph) (cs : List (List Nat)) (i j : Nat) : Prop := ∃ l, CrossEdge g cs i j l

theorem ComponentsOf.reaches (h : ComponentsOf g true cs)
    (hway : ReflTransGen (CrossAdjacent g cs) i j) (hu : InComponent cs i u)
    (hv : InComponent cs j v) : ReflTransGen g.Adjacent u v := by
  have hinside {i x y : Nat} (hx : InComponent cs i x) (hy : InComponent cs i y) :
      ReflTransGen g.Adjacent x y := by
    obtain ⟨-, c, hc, hxc⟩ := hx
    obtain ⟨-, d, hd, hyd⟩ := hy
    obtain rfl := Option.some.inj (hc.symm.trans hd)
    exact ((h.members c (List.mem_of_getElem? hc) x hxc y).1 hyd).2.1
  induction hway generalizing v with
  | refl => exact hinside hu hv
  | tail _ hstep ih =>
    obtain ⟨l, -, x, y, hx, hy, hedge⟩ := hstep
    exact ((ih hx).tail ⟨l, hedge⟩).trans (hinside hy hv)

theorem ComponentsOf.crossAdjacent_acyclic (h : ComponentsOf g true cs) :
    Reach.Acyclic (CrossAdjacent g cs) := by
  intro i hcycle
  obtain ⟨j, ⟨l, hne, u, v, hu, hv, hedge⟩, hback⟩ := TransGen.head'_iff.1 hcycle
  have hvu := h.reaches hback hv hu
  have hsame : InComponent cs i v := by
    obtain ⟨hi, c, hc, huc⟩ := hu
    obtain ⟨-, d, hd, hvd⟩ := hv
    have hlive := ((h.members d (List.mem_of_getElem? hd) v hvd v).1 hvd).1
    exact ⟨hi, c, hc, (h.members c (List.mem_of_getElem? hc) u huc v).2
      ⟨hlive, ReflTransGen.single ⟨l, hedge⟩, hvu⟩⟩
  exact hne (((h.numberOf_eq hsame.range.1).2 hsame).symm.trans ((h.numberOf_eq hv.range.1).2 hv))

def Few {α : Type} (P : α → Prop) : Prop :=
  ∀ xs : List α, xs.Nodup → (∀ x ∈ xs, P x) → xs.length ≤ 2 ^ 31

theorem Few.of_none {α : Type} {P : α → Prop} (hnone : ∀ x, ¬ P x) : Few P := by
  intro xs _ hall
  cases xs with
  | nil => exact Nat.zero_le _
  | cons x xs => exact absurd (hall x List.mem_cons_self) (hnone x)

/-- The edges of each component fit in the two lists of one vertex. -/
def ListsFit (g : Graph) (cs : List (List Nat)) : Prop :=
  ∀ i, Few (fun p : Nat × Nat => CrossEdge g cs i p.1 p.2) ∧
    Few fun p : Nat × Nat => CrossEdge g cs p.1 i p.2

/-- A graph of the components with the edges that come from those done. -/
structure Condensing (g : Graph) (cs : List (List Nat)) (done : List (Nat × Nat)) (t : Graph) :
    Prop where
  wf : WF t
  live : ∀ i, t.hasVertex i = true ↔ 0 < i ∧ i ≤ cs.length
  labelsById : t.labelsById = g.labelsById
  edges : ∀ i j l, t.Outgoing i j l ↔ i ≠ j ∧ ∃ p ∈ done, numberOf cs p.1 = i ∧
    numberOf cs (xgEntryVertex p.2) = j ∧ xgEntryLabel p.2 = l

theorem ComponentsOf.length_le (h : Intact g) (hcs : ComponentsOf g true cs) :
    cs.length ≤ g.liveVertices := by
  have hnodup : (cs.map firstMember).Nodup := by
    refine List.pairwise_map.2 (hcs.sorted.imp fun hlt => Nat.ne_of_lt hlt)
  have hlive : ∀ v ∈ cs.map firstMember, g.hasVertex v = true := by
    intro v hv
    obtain ⟨c, hc, rfl⟩ := List.mem_map.1 hv
    have hmem := hcs.firstMember_mem hc
    exact ((hcs.members c hc _ hmem _).1 hmem).1
  have hle := h.table.live.length_le hnodup hlive
  rwa [List.length_map] at hle

/-- The vertices of the first components, and no edge yet. -/
structure Rows (g : Graph) (n : Nat) (t : Graph) : Prop where
  wf : WF t
  next : t.nextVertexId = n + 1
  live : ∀ i, t.hasVertex i = true ↔ 0 < i ∧ i ≤ n
  labelsById : t.labelsById = g.labelsById
  outs : ∀ i, outs t i = []

theorem addComponents_spec (rest : List (List Nat)) {n : Nat} (mapping : Nat → Nat)
    (ht : Rows g n t) (hroom : n + rest.length ≤ maxVertexId) :
    returns (addComponents rest n mapping) t fun mapping' t' =>
      mapping' = componentNumbers rest n mapping ∧ Rows g (n + rest.length) t' := by
  induction rest generalizing n mapping t with
  | nil => exact ⟨rfl, ht⟩
  | cons c rest ih =>
    rw [List.length_cons] at hroom ⊢
    rw [addComponents, returns, wp_bind]
    apply wp_mono (xgAddVertex_spec ht.wf .undef)
    · intro id t₁ hadded
      obtain ⟨hkept, hid, hnext, hvertex⟩ := hadded
      rw [ht.next] at hid
      have hrow : Rows g (n + 1) t₁ := by
        refine ⟨hkept.1, by omega, fun i => ?_, hvertex.labelsById.trans ht.labelsById, fun i => ?_⟩
        · rw [hvertex.live, ht.live]
          omega
        · rw [hvertex.outs, ht.outs]
      apply wp_of_returns (ih _ hrow (by omega))
      intro mapping' t' hfinal
      have hlength : n + 1 + rest.length = n + (rest.length + 1) := by omega
      rw [hlength] at hfinal
      exact hfinal
    · intro e t₁ hfailed
      have hfull := hfailed.2 rfl
      rw [ht.next] at hfull
      omega

def Full (t : Graph) (i j : Nat) : Prop := 2 ^ 31 ≤ (outs t i).length ∨ 2 ^ 31 ≤ (ins t j).length

theorem xgAddEdge_known_label (ht : WF t) (hi : t.hasVertex i = true)
    (hj : t.hasVertex j = true) (hopen : ¬ (t.acyclic = true ∧ (i = j ∨ xgReaches t j i = true)))
    (hnamed : LabelNamed t l) (hl : l < t.labelsById.length) (hnew : xgPack j l ∉ outs t i) :
    wp (xgAddEdge i j (t.labelValue l)) t (fun _ t' => EdgeAdded i j l t t')
      (fun _ _ => Full t i j) := by
  have hlabel := xgLabelId_value ht.usable.1 ht.labels hnamed 0
  rw [xgAddEdge, wp_bind, wp_requireMutable ht, wp_bind, Graph.labelValue, wp_normalizeLabel_of,
    wp_bind, wp_requireVertex]
  refine ⟨fun hdead => absurd (hi.symm.trans hdead) Bool.noConfusion, fun _ => ?_⟩
  rw [wp_bind, wp_requireVertex]
  refine ⟨fun hdead => absurd (hj.symm.trans hdead) Bool.noConfusion, fun _ => ?_⟩
  rw [wp_bind, wp_get, wp_bind, wp_throwIf]
  refine ⟨fun hcycle => absurd hcycle hopen, fun _ => ?_⟩
  rw [wp_bind]
  change wp (xgLabelId (t.labelValue l) 0) t _ _
  rw [wp_of_run hlabel]
  apply wp_mono (installEdge_spec ht hi hj hl)
  · intro _ t' hadded
    exact hadded.1
  · intro _ t' hrefused
    exact hrefused.2.resolve_left hnew

theorem xgHasEdge_run (ht : WF t) (hi : t.hasVertex i = true)
    (hj : t.hasVertex j = true) (hnamed : LabelNamed t l) :
    ∃ present, (xgHasEdge i j (t.labelValue l)).run t = .ok present t ∧
      (present = true ↔ xgPack j l ∈ outs t i) := by
  have hlabel := xgLabelId_value ht.usable.1 ht.labels hnamed (-1)
  apply exists_run
  rw [xgHasEdge, returns, wp_bind, wp_requireVertex]
  refine ⟨fun hdead => absurd (hi.symm.trans hdead) Bool.noConfusion, fun _ => ?_⟩
  rw [wp_bind, wp_requireVertex]
  refine ⟨fun hdead => absurd (hj.symm.trans hdead) Bool.noConfusion, fun _ => ?_⟩
  rw [wp_bind, wp_of_run hlabel, if_neg (hnamed.ne_zero ht.labels), wp_bind, wp_get]
  cases hlist : (t.vertices i).outList with
  | none =>
    have hnil : outs t i = [] := by simp [outs, Graph.out, hlist, xgAdjNew]
    rw [hnil]
    exact ⟨rfl, fun hfalse => Bool.noConfusion hfalse, fun hmem => absurd hmem List.not_mem_nil⟩
  | some out =>
    have hout : t.out i = out := by rw [Graph.out, hlist]; rfl
    rw [outs, hout]
    exact ⟨rfl, AdjList.holds_iff (hout ▸ ht.topology.outOk i) _⟩

theorem Condensing.cross {done : List (Nat × Nat)} (ht : Condensing g cs done t)
    (h : Intact g) (hcs : ComponentsOf g true cs) (hdone : ∀ p ∈ done, p.2 ∈ outs g p.1)
    (hedge : t.Outgoing i j l) : CrossEdge g cs i j l := by
  obtain ⟨hne, p, hp, rfl, rfl, rfl⟩ := (ht.edges i j l).1 hedge
  have hends := h.topology.outEnds p.1 p.2 (hdone p hp)
  exact ⟨hne, p.1, _, hcs.numbered hends.1, hcs.numbered hends.2, p.2, hdone p hp, rfl, rfl⟩

theorem Condensing.overfull {done : List (Nat × Nat)} (ht : Condensing g cs done t)
    (h : Intact g) (hcs : ComponentsOf g true cs) (hdone : ∀ p ∈ done, p.2 ∈ outs g p.1)
    (hcross : CrossEdge g cs i j l) (hnew : ¬ t.Outgoing i j l) (hfull : Full t i j) :
    ¬ ListsFit g cs := by
  have hpairs {entries : List Nat} (hsorted : entries.Pairwise (· < ·)) :
      (entries.map fun e => (xgEntryVertex e, xgEntryLabel e)).Nodup := by
    have hnodup : entries.Nodup := hsorted.imp fun hlt => Nat.ne_of_lt hlt
    refine hnodup.map_on fun a _ b _ heq => ?_
    simp only [Prod.mk.injEq, xgEntryVertex_eq, xgEntryLabel_eq] at heq
    omega
  intro hfit
  rcases hfull with hout | hin
  · have hle := (hfit i).1 ((j, l) :: (outs t i).map fun e => (xgEntryVertex e, xgEntryLabel e))
      (List.nodup_cons.2 ⟨fun hmem => ?_, hpairs (ht.wf.inStep.sortedOut i)⟩) fun p hp => ?_
    · rw [List.length_cons, List.length_map] at hle
      omega
    · obtain ⟨e, he, heq⟩ := List.mem_map.1 hmem
      simp only [Prod.mk.injEq] at heq
      exact hnew ⟨e, he, heq⟩
    · rcases List.mem_cons.1 hp with rfl | hp
      · exact hcross
      · obtain ⟨e, he, rfl⟩ := List.mem_map.1 hp
        exact ht.cross h hcs hdone ⟨e, he, rfl, rfl⟩
  · have hle := (hfit j).2 ((i, l) :: (ins t j).map fun e => (xgEntryVertex e, xgEntryLabel e))
      (List.nodup_cons.2 ⟨fun hmem => ?_, hpairs (ht.wf.inStep.sortedIn j)⟩) fun p hp => ?_
    · rw [List.length_cons, List.length_map] at hle
      omega
    · obtain ⟨e, he, heq⟩ := List.mem_map.1 hmem
      simp only [Prod.mk.injEq] at heq
      exact hnew ((ht.wf.inStep.mirror i j l).2 ⟨e, he, heq⟩)
    · rcases List.mem_cons.1 hp with rfl | hp
      · exact hcross
      · obtain ⟨e, he, rfl⟩ := List.mem_map.1 hp
        exact ht.cross h hcs hdone ((ht.wf.inStep.mirror _ _ _).2 ⟨e, he, rfl, rfl⟩)

variable {p : Nat × Nat} {t' : Graph} {byId : Nat → Option Str} {byName : Str → Option Nat}

theorem Condensing.done {done : List (Nat × Nat)}
    (ht : Condensing g cs done t) (hwf : WF t') (hlive : ∀ i, t'.hasVertex i = t.hasVertex i)
    (hlabels : t'.labelsById = t.labelsById)
    (hedges : ∀ i j l, t'.Outgoing i j l ↔ t.Outgoing i j l ∨
      i ≠ j ∧ numberOf cs p.1 = i ∧ numberOf cs (xgEntryVertex p.2) = j ∧ xgEntryLabel p.2 = l) :
    Condensing g cs (done ++ [p]) t' := by
  refine ⟨hwf, fun i => ?_, hlabels.trans ht.labelsById, fun i j l => ?_⟩
  · rw [hlive, ht.live]
  · rw [hedges, ht.edges, ← and_or_left]
    refine and_congr_right fun _ => ⟨fun hold => ?_, fun hnew => ?_⟩
    · rcases hold with ⟨q, hq, hends⟩ | hends
      · exact ⟨q, List.mem_append_left _ hq, hends⟩
      · exact ⟨p, List.mem_append_right _ List.mem_cons_self, hends⟩
    · obtain ⟨q, hq, hends⟩ := hnew
      rcases List.mem_append.1 hq with hq | hq
      · exact Or.inl ⟨q, hq, hends⟩
      · rw [List.mem_singleton.1 hq] at hends
        exact Or.inr hends

theorem EdgeAdded.outgoing {x y k : Nat} (h : EdgeAdded i j l t t')
    (hfits : Fits j l) :
    t'.Outgoing x y k ↔ t.Outgoing x y k ∨ (i = x ∧ j = y ∧ l = k) := by
  constructor
  · intro hout
    obtain ⟨e, he, rfl, rfl⟩ := hout
    rcases (h.outs x e).1 he with ⟨rfl, rfl⟩ | hold
    · rw [xgEntryVertex_pack hfits, xgEntryLabel_pack hfits]
      exact Or.inr ⟨rfl, rfl, rfl⟩
    · exact Or.inl ⟨e, hold, rfl, rfl⟩
  · intro hout
    rcases hout with ⟨e, he, hends⟩ | ⟨rfl, rfl, rfl⟩
    · exact ⟨e, (h.outs x e).2 (Or.inr he), hends⟩
    · exact ⟨xgPack j l, (h.outs i _).2 (Or.inl ⟨rfl, rfl⟩), xgEntryVertex_pack hfits,
        xgEntryLabel_pack hfits⟩

theorem Condensing.open {done : List (Nat × Nat)} (ht : Condensing g cs done t) (h : Intact g)
    (hcs : ComponentsOf g true cs) (hdone : ∀ p ∈ done, p.2 ∈ outs g p.1)
    (hj : t.hasVertex j = true) (hcross : CrossAdjacent g cs i j) :
    ¬ (i = j ∨ xgReaches t j i = true) := by
  have hadjacent : ∀ x y, t.Adjacent x y → CrossAdjacent g cs x y := by
    intro x y hxy
    obtain ⟨l, hxy⟩ := hxy
    exact ⟨l, ht.cross h hcs hdone hxy⟩
  rw [closesCycle_iff ht.wf (hcs.crossAdjacent_acyclic.mono hadjacent) hj]
  intro hclose
  obtain ⟨x, hcycle⟩ := hclose
  refine hcs.crossAdjacent_acyclic x (TransGen.mono (fun a b hab => ?_) x x hcycle)
  rcases hab with hab | ⟨rfl, rfl⟩
  · exact hadjacent a b hab
  · exact hcross

theorem addCrossEdges_spec (h : Intact g) (hcs : ComponentsOf g true cs)
    (entries done : List (Nat × Nat)) (hentries : ∀ p ∈ entries, p.2 ∈ outs g p.1)
    (hdone : ∀ p ∈ done, p.2 ∈ outs g p.1) (ht : Condensing g cs done t) :
    wp (addCrossEdges g (numberOf cs) entries) t
      (fun _ t' => Condensing g cs (done ++ entries) t') fun _ _ => ¬ ListsFit g cs := by
  induction entries generalizing done t with
  | nil =>
    rw [List.append_nil]
    exact ht
  | cons p entries ih =>
    obtain ⟨u, entry⟩ := p
    have hentry : entry ∈ outs g u := hentries (u, entry) List.mem_cons_self
    have hdone' : ∀ p ∈ done ++ [(u, entry)], p.2 ∈ outs g p.1 := by
      intro p hp
      rcases List.mem_append.1 hp with hp | hp
      · exact hdone p hp
      · rw [List.mem_singleton.1 hp]
        exact hentry
    have hsplit : done ++ (u, entry) :: entries = (done ++ [(u, entry)]) ++ entries := by simp
    have hnext {t₁ : Graph} (ht₁ : Condensing g cs (done ++ [(u, entry)]) t₁) :=
      ih (done ++ [(u, entry)]) (fun p hp => hentries p (List.mem_cons_of_mem _ hp)) hdone' ht₁
    rw [hsplit, addCrossEdges]
    obtain ⟨hu, hv⟩ := h.topology.outEnds u entry hentry
    have hedge : g.Outgoing u (xgEntryVertex entry) (xgEntryLabel entry) := ⟨entry, hentry, rfl, rfl⟩
    have hi : t.hasVertex (numberOf cs u) = true := (ht.live _).2 (hcs.numbered hu).range
    have hj : t.hasVertex (numberOf cs (xgEntryVertex entry)) = true :=
      (ht.live _).2 (hcs.numbered hv).range
    rw [wp_ite]
    constructor
    · intro hsame
      refine hnext (ht.done ht.wf (fun _ => rfl) rfl fun i j l => (or_iff_left fun hnew => ?_).symm)
      exact hnew.1 (hnew.2.1.symm.trans (hsame.trans hnew.2.2.1))
    · intro hne
      have hvalue : g.labelValue (xgEntryLabel entry) = t.labelValue (xgEntryLabel entry) := by
        rw [Graph.labelValue, Graph.labelValue, ht.labelsById]
      have hnamed : LabelNamed t (xgEntryLabel entry) := by
        rw [LabelNamed, ht.labelsById]
        exact h.known u entry hentry
      have hlt : xgEntryLabel entry < t.labelsById.length := by
        rw [ht.labelsById]
        exact h.topology.labels u entry hentry
      have hfits := ht.wf.table.fits hj
        (Nat.le_of_lt_succ (Nat.lt_of_lt_of_le hlt ht.wf.labels.limit))
      obtain ⟨present, hpresent, hmem⟩ := xgHasEdge_run ht.wf hi hj hnamed
      rw [wp_bind, wp_onGraph, wp_of_run (xgLabelValue_run h hedge), hvalue, wp_bind,
        wp_of_run hpresent, wp_ite]
      constructor
      · intro hthere
        refine hnext (ht.done ht.wf (fun _ => rfl) rfl fun i j l => (or_iff_left_of_imp ?_).symm)
        intro hnew
        obtain ⟨-, rfl, rfl, rfl⟩ := hnew
        exact (outgoing_iff ht.wf).2 ⟨hfits, hmem.1 hthere⟩
      · intro hnew
        have hcross : CrossEdge g cs (numberOf cs u) (numberOf cs (xgEntryVertex entry))
            (xgEntryLabel entry) := ⟨hne, u, _, hcs.numbered hu, hcs.numbered hv, hedge⟩
        rw [wp_bind]
        apply wp_mono (xgAddEdge_known_label ht.wf hi hj (fun hcycle => ht.open h hcs hdone hj
          ⟨_, hcross⟩ hcycle.2) hnamed hlt fun hin => hnew (hmem.2 hin))
        · intro _ t₁ hadded
          refine hnext (ht.done (hadded.wf ht.wf hi hj hlt fun hin => hnew (hmem.2 hin))
            hadded.frame.live hadded.frame.labelsById fun i j l => ?_)
          rw [hadded.outgoing hfits]
          refine or_congr_right ⟨fun hends => ⟨?_, hends⟩, fun hends => hends.2⟩
          rw [← hends.1, ← hends.2.1]
          exact hne
        · intro _ t₁ hfull
          refine ht.overfull h hcs hdone hcross (fun hthere => hnew (hmem.2 ?_)) hfull
          exact ((outgoing_iff ht.wf).1 hthere).2

theorem mem_outEntries (h : Intact g) : p ∈ g.outEntries ↔ p.2 ∈ outs g p.1 := by
  rw [Graph.outEntries, List.mem_flatMap]
  constructor
  · intro hp
    obtain ⟨u, -, hp⟩ := hp
    obtain ⟨e, he, rfl⟩ := List.mem_map.1 hp
    exact he
  · intro hp
    exact ⟨p.1, h.mem_liveIds.2 (h.topology.outEnds p.1 p.2 hp).1, List.mem_map_of_mem hp⟩

/-- The components as vertices, and every edge between two of them once for each label. -/
structure Quotient (g : Graph) (cs : List (List Nat)) (t : Graph) : Prop where
  live : ∀ i, t.hasVertex i = true ↔ 0 < i ∧ i ≤ cs.length
  labelsById : t.labelsById = g.labelsById
  edges : ∀ i j l, t.Outgoing i j l ↔ CrossEdge g cs i j l

theorem Condensing.quotient (h : Intact g) (hcs : ComponentsOf g true cs)
    (ht : Condensing g cs g.outEntries t) : Quotient g cs t := by
  refine ⟨ht.live, ht.labelsById, fun i j l => ⟨ht.cross h hcs fun p => (mem_outEntries h).1,
    fun hcross => (ht.edges i j l).2 ?_⟩⟩
  obtain ⟨hne, u, v, hu, hv, e, he, rfl, rfl⟩ := hcross
  exact ⟨hne, (u, e), (mem_outEntries h).2 he, (hcs.numberOf_eq hu.range.1).2 hu,
    (hcs.numberOf_eq hv.range.1).2 hv, rfl⟩

theorem Quotient.acyclic (hcs : ComponentsOf g true cs) (ht : Quotient g cs t) :
    Reach.Acyclic t.Adjacent := by
  refine hcs.crossAdjacent_acyclic.mono fun i j hij => ?_
  obtain ⟨l, hij⟩ := hij
  exact ⟨l, (ht.edges i j l).1 hij⟩

theorem Quotient.fits (hwf : WF t) (ht : Quotient g cs t) : ListsFit g cs := by
  intro i
  constructor
  · intro xs hnodup hxs
    have hsub : xs ⊆ (outs t i).map fun e => (xgEntryVertex e, xgEntryLabel e) := by
      intro p hp
      obtain ⟨e, he, hv, hl⟩ := (ht.edges i p.1 p.2).2 (hxs p hp)
      exact List.mem_map.2 ⟨e, he, by rw [hv, hl]⟩
    have hle := (hnodup.subperm hsub).length_le
    rw [List.length_map] at hle
    exact Nat.le_trans hle (hwf.topology.outOk i).length_le
  · intro xs hnodup hxs
    have hsub : xs ⊆ (ins t i).map fun e => (xgEntryVertex e, xgEntryLabel e) := by
      intro p hp
      obtain ⟨e, he, hv, hl⟩ := (hwf.inStep.mirror _ _ _).1 ((ht.edges p.1 i p.2).2 (hxs p hp))
      exact List.mem_map.2 ⟨e, he, by rw [hv, hl]⟩
    have hle := (hnodup.subperm hsub).length_le
    rw [List.length_map] at hle
    exact Nat.le_trans hle (hwf.topology.inOk i).length_le

def Graph.relabelled (g : Graph) : Graph :=
  { xgNew true g.strictLabels with
    labelsById := g.labelsById
    labelIdsByName := g.labelIdsByName }

theorem relabelled_rows (h : Intact g) : Rows g 0 g.relabelled := by
  have hnew := xgNew_wf true g.strictLabels
  have hlabels : Labels g.relabelled := ⟨h.labels.reserved, h.labels.limit, h.labels.inverse⟩
  refine ⟨⟨⟨rfl, rfl⟩, ?_, ?_, ?_, hlabels⟩, rfl, fun i => ?_, rfl, fun _ => rfl⟩
  · refine hnew.topology.congr hnew.topology.outOk hnew.topology.inOk (fun _ => rfl) (fun _ => rfl)
      (fun _ hid => hid) ?_ rfl
    have hlt := h.labels.reserved_lt
    exact hlt
  · exact ⟨hnew.table.capacity, hnew.table.next, hnew.table.below, hnew.table.live⟩
  · exact ⟨hnew.names.inverse, hnew.names.live⟩
  · have hdead : g.relabelled.hasVertex i = false := by
      simp [Graph.hasVertex, Graph.relabelled, xgNew]
    rw [hdead]
    simp only [Bool.false_eq_true, false_iff]
    omega

theorem nameFree_addComponents
    (rest : List (List Nat)) (n : Nat) (mapping : Nat → Nat) :
    NameFree byId byName (addComponents rest n mapping) := by
  induction rest generalizing n mapping with
  | nil => exact Commutes.pure _
  | cons c rest ih => exact nameFree_addVertex.bind fun _ => ih _ _

theorem nameFree_addCrossEdges
    (mapping : Nat → Nat) (entries : List (Nat × Nat)) :
    NameFree byId byName (addCrossEdges g mapping entries) := by
  induction entries with
  | nil => exact Commutes.pure _
  | cons p entries ih =>
    obtain ⟨id, entry⟩ := p
    have hlabel : NameFree byId byName (onGraph g (xgLabelValue (xgEntryLabel entry))) := by
      intro t Q E
      rw [wp_onGraph, wp_onGraph]
    refine Commutes.ite ih (hlabel.bind fun label => (nameFree_hasEdge _ _ _).bind fun present =>
      Commutes.ite ih ((nameFree_addEdge _ _ _).bind fun _ => ih))

theorem xgCondensation_spec (h : Intact g) (hcs : ComponentsOf g true cs)
    (hrun : (xgComponents true false).run g = .ok cs g) :
    wp xgCondensation g
      (fun result g' => g' = g ∧ ∃ t, WF t ∧ Quotient g cs t ∧
        result = ⟨t.withNames g.vertexNamesById g.vertexIdsByName, cs, numberOf cs⟩)
      fun _ _ => ¬ ListsFit g cs := by
  have hcopy : (xgNew true g.strictLabels).copyMaps g =
      g.relabelled.withNames g.vertexNamesById g.vertexIdsByName := by
    rw [Graph.copyMaps, copyNames_eq h]
    rfl
  have hroom : 0 + cs.length ≤ maxVertexId := by
    have hle := hcs.length_le h
    have hlive : g.liveIds.length ≤ g.allIds.length := List.length_filter_le _ _
    have hall : g.allIds.length = g.nextVertexId - 1 := List.length_range'
    have hnext := h.table.next.2
    rw [h.length_liveIds] at hlive
    omega
  rw [xgCondensation, wp_bind, wp_of_run hrun, wp_bind, h.requireUsable, wp_bind, wp_get, wp_bind,
    wp_onGraph, hcopy]
  rw [((nameFree_addComponents cs 0 fun _ => 0).bind fun mapping =>
    (nameFree_addCrossEdges mapping g.outEntries).bind fun _ => Commutes.pure mapping)]
  rw [wp_bind]
  apply wp_of_returns (addComponents_spec cs (fun _ => 0) (relabelled_rows h) hroom)
  intro mapping t ht
  obtain ⟨rfl, hrows⟩ := ht
  rw [Nat.zero_add] at hrows
  have hstart : Condensing g cs [] t := by
    refine ⟨hrows.wf, hrows.live, hrows.labelsById, fun i j l => ⟨fun hout => ?_, fun hdone => ?_⟩⟩
    · obtain ⟨e, he, -⟩ := hout
      rw [hrows.outs] at he
      cases he
    · obtain ⟨-, p, hp, -⟩ := hdone
      cases hp
  rw [wp_bind]
  apply wp_mono (addCrossEdges_spec h hcs g.outEntries [] (fun p => (mem_outEntries h).1)
    (fun p hp => absurd hp List.not_mem_nil) hstart)
  · intro _ t' ht'
    exact ⟨rfl, t', ht'.wf, ht'.quotient h hcs, rfl⟩
  · intro _ _ hno
    exact hno

section Roots

variable {hasIncoming : Nat → Bool}

theorem markIncoming_iff (componentOf : Nat → Nat) (entries : List (Nat × Nat)) (i : Nat) :
    markIncoming componentOf entries hasIncoming i = true ↔ hasIncoming i = true ∨
      ∃ p ∈ entries, componentOf p.1 ≠ componentOf (xgEntryVertex p.2) ∧
        componentOf (xgEntryVertex p.2) = i := by
  induction entries generalizing hasIncoming with
  | nil => simp [markIncoming]
  | cons p entries ih =>
    obtain ⟨u, e⟩ := p
    rw [markIncoming]
    simp only [List.exists_mem_cons_iff]
    by_cases hne : componentOf u ≠ componentOf (xgEntryVertex e)
    · rw [if_pos hne, ih]
      by_cases hi : i = componentOf (xgEntryVertex e)
      · simp [hi, hne]
      · rw [Function.update_of_ne hi]
        simp [Ne.symm hi]
    · rw [if_neg hne, ih]
      simp [hne]

theorem mem_pickRoots (n : Nat) (v : Nat) :
    v ∈ pickRoots hasIncoming cs n ↔
      ∃ i c, cs[i]? = some c ∧ hasIncoming (n + i + 1) = false ∧ c.head? = some v := by
  induction cs generalizing n with
  | nil => simp [pickRoots]
  | cons d cs ih =>
    have hrest : v ∈ pickRoots hasIncoming cs (n + 1) ↔ ∃ i c, (d :: cs)[i + 1]? = some c ∧
        hasIncoming (n + (i + 1) + 1) = false ∧ c.head? = some v := by
      rw [ih]
      simp only [List.getElem?_cons_succ, Nat.add_assoc, Nat.add_comm 1]
    have hfirst : v ∈ pickRoots hasIncoming (d :: cs) n ↔
        (hasIncoming (n + 1) = false ∧ d.head? = some v) ∨ v ∈ pickRoots hasIncoming cs (n + 1) := by
      rw [pickRoots]
      cases hin : hasIncoming (n + 1) with
      | true => simp
      | false =>
        cases d.head? with
        | none => simp
        | some member => simp [eq_comm]
    rw [hfirst, hrest]
    constructor
    · intro hv
      rcases hv with hv | ⟨i, c, hc⟩
      · exact ⟨0, d, rfl, hv⟩
      · exact ⟨i + 1, c, hc⟩
    · intro hv
      obtain ⟨i, c, hc, hv⟩ := hv
      cases i with
      | zero =>
        obtain rfl : d = c := by simpa using hc
        exact Or.inl hv
      | succ i => exact Or.inr ⟨i, c, hc, hv⟩

theorem pickRoots_sublist (n : Nat) :
    (pickRoots hasIncoming cs n).Sublist (cs.map firstMember) := by
  induction cs generalizing n with
  | nil => exact List.Sublist.refl []
  | cons c cs ih =>
    rw [pickRoots, List.map_cons]
    split
    · rename_i member _ hhead
      have hfirst : firstMember c = member := by rw [firstMember, hhead]; rfl
      rw [hfirst]
      exact (ih (n + 1)).cons_cons member
    · exact (ih (n + 1)).cons _

/-- A component no edge enters from another one. -/
def Closed (g : Graph) (c : List Nat) : Prop := ∀ u v, v ∈ c → g.Adjacent u v → u ∈ c

variable {c : List Nat}

theorem ComponentsOf.closed_iff (h : Intact g) (hcs : ComponentsOf g true cs) {i : Nat}
    (hc : cs[i]? = some c) :
    markIncoming (numberOf cs) g.outEntries (fun _ => false) (i + 1) = false ↔ Closed g c := by
  have hnumber {v : Nat} : numberOf cs v = i + 1 ↔ v ∈ c := by
    rw [hcs.numberOf_eq (Nat.succ_pos i)]
    constructor
    · intro hv
      obtain ⟨-, d, hd, hvd⟩ := hv
      exact Option.some.inj (hd.symm.trans hc) ▸ hvd
    · intro hv
      exact ⟨Nat.succ_pos i, c, hc, hv⟩
  rw [← Bool.not_eq_true, markIncoming_iff]
  simp only [Bool.false_eq_true, false_or]
  constructor
  · intro hnone u v hv hedge
    obtain ⟨l, e, he, rfl, -⟩ := hedge
    apply Classical.byContradiction
    intro hu
    refine hnone ⟨(u, e), (mem_outEntries h).2 he, fun heq => hu ?_, hnumber.2 hv⟩
    exact hnumber.1 (heq.trans (hnumber.2 hv))
  · intro hclosed hsome
    obtain ⟨p, hp, hne, hi⟩ := hsome
    have hedge : g.Adjacent p.1 (xgEntryVertex p.2) :=
      ⟨xgEntryLabel p.2, p.2, (mem_outEntries h).1 hp, rfl, rfl⟩
    exact hne ((hnumber.2 (hclosed _ _ (hnumber.1 hi) hedge)).trans hi.symm)

theorem Closed.of_reaches (hc : Closed g c) (hway : ReflTransGen g.Adjacent u v)
    (hv : v ∈ c) : u ∈ c := by
  induction hway using ReflTransGen.head_induction_on with
  | refl => exact hv
  | head hstep _ ih => exact hc _ _ ih hstep

theorem ComponentsOf.exists_closed (h : Intact g) (hcs : ComponentsOf g true cs)
    (hv : g.hasVertex v = true) :
    ∃ c ∈ cs, Closed g c ∧ ReflTransGen g.Adjacent (firstMember c) v := by
  classical
  let above : Nat → Nat → Prop := fun a b =>
    ReflTransGen g.Adjacent a b ∧ ¬ ReflTransGen g.Adjacent b a
  have hacyclic : Reach.Acyclic above := by
    intro x hcycle
    have htrans : ∀ {a b : Nat}, TransGen above a b → above a b := by
      intro a b hab
      induction hab with
      | single hstep => exact hstep
      | tail _ hstep ih =>
        exact ⟨ih.1.trans hstep.1, fun hback => ih.2 (hstep.1.trans hback)⟩
    exact (htrans hcycle).2 ReflTransGen.refl
  have hmem : v ∈ g.liveIds.filter fun u => ReflTransGen g.Adjacent u v := by
    rw [List.mem_filter, decide_eq_true_eq]
    exact ⟨h.mem_liveIds.2 hv, ReflTransGen.refl⟩
  obtain ⟨u, hu, hsource⟩ := Kahn.exists_source hacyclic _ (List.ne_nil_of_mem hmem)
  rw [List.mem_filter, decide_eq_true_eq, h.mem_liveIds] at hu
  obtain ⟨c, hc, huc⟩ := hcs.cover u hu.1
  have hmembers := hcs.members c hc u huc
  refine ⟨c, hc, fun x y hy hedge => ?_, ?_⟩
  · -- otherwise `x` would be above the source
    have hxu : ReflTransGen g.Adjacent x u := (((hmembers y).1 hy).2.2).head hedge
    have hx := (h.adjacent_live hedge).1
    rw [hmembers]
    refine ⟨hx, ?_, hxu⟩
    apply Classical.byContradiction
    intro hno
    refine hsource x ?_ (TransGen.single ⟨hxu, hno⟩)
    rw [List.mem_filter, decide_eq_true_eq, h.mem_liveIds]
    exact ⟨hx, hxu.trans hu.2⟩
  · exact ((hmembers _).1 (hcs.firstMember_mem hc)).2.2.trans hu.2

theorem ComponentsOf.least (hcs : ComponentsOf g true cs) {roots others : List Nat}
    (hnodup : roots.Nodup) (hroots : ∀ r ∈ roots, ∃ c ∈ cs, r = firstMember c ∧ Closed g c)
    (hothers : ∀ v, g.hasVertex v = true → ∃ u ∈ others, ReflTransGen g.Adjacent u v) :
    roots.length ≤ others.length := by
  have hchoice : ∀ r ∈ roots, ∃ u ∈ others, ∃ c ∈ cs, r = firstMember c ∧ u ∈ c := by
    intro r hr
    obtain ⟨c, hc, rfl, hclosed⟩ := hroots r hr
    have hmem := hcs.firstMember_mem hc
    obtain ⟨u, hu, hway⟩ := hothers _ ((hcs.members c hc _ hmem _).1 hmem).1
    exact ⟨u, hu, c, hc, rfl, hclosed.of_reaches hway hmem⟩
  choose! start hstart using hchoice
  have hinj : ∀ r ∈ roots, ∀ r' ∈ roots, start r = start r' → r = r' := by
    intro r hr r' hr' heq
    obtain ⟨-, c, hc, rfl, hmem⟩ := hstart r hr
    obtain ⟨-, c', hc', rfl, hmem'⟩ := hstart r' hr'
    rw [hcs.apart hc hc' hmem (heq ▸ hmem')]
  have hsub : roots.map start ⊆ others := by
    intro u hu
    obtain ⟨r, hr, rfl⟩ := List.mem_map.1 hu
    exact (hstart r hr).1
  have hle := ((hnodup.map_on hinj).subperm hsub).length_le
  rwa [List.length_map] at hle

/-- The first members of the closed components, in order. -/
structure RootsOf (g : Graph) (cs : List (List Nat)) (roots : List Nat) : Prop where
  ascending : roots.Pairwise (· < ·)
  members : ∀ v, v ∈ roots ↔ ∃ c ∈ cs, v = firstMember c ∧ Closed g c
  reach : ∀ v, g.hasVertex v = true → ∃ r ∈ roots, ReflTransGen g.Adjacent r v
  least : ∀ others : List Nat,
    (∀ v, g.hasVertex v = true → ∃ u ∈ others, ReflTransGen g.Adjacent u v) →
    roots.length ≤ others.length

theorem xgReachabilityRoots_run (h : Intact g) (hcs : ComponentsOf g true cs)
    (hrun : (xgComponents true false).run g = .ok cs g) :
    ∃ roots, xgReachabilityRoots.run g = .ok roots g ∧ RootsOf g cs roots := by
  apply exists_run
  rw [xgReachabilityRoots, returns, wp_bind, wp_of_run hrun, wp_bind, wp_get, wp_pure]
  generalize hhas : markIncoming (componentNumbers cs 0 fun _ => 0) g.outEntries (fun _ => false) = has
  have hmembers (v : Nat) :
      v ∈ pickRoots has cs 0 ↔ ∃ c ∈ cs, v = firstMember c ∧ Closed g c := by
    rw [mem_pickRoots]
    constructor
    · intro hv
      obtain ⟨i, c, hc, hfalse, hhead⟩ := hv
      refine ⟨c, List.mem_of_getElem? hc, by rw [firstMember, hhead]; rfl, ?_⟩
      rw [← hcs.closed_iff h hc, hhas, ← hfalse, Nat.zero_add]
    · intro hv
      obtain ⟨c, hc, rfl, hclosed⟩ := hv
      obtain ⟨i, hi⟩ := List.mem_iff_getElem?.1 hc
      refine ⟨i, c, hi, ?_, ?_⟩
      · rw [← hhas, Nat.zero_add]
        exact (hcs.closed_iff h hi).2 hclosed
      · cases c with
        | nil => exact absurd rfl (hcs.ascending [] hc).1
        | cons v c => rfl
  have hascending : (pickRoots has cs 0).Pairwise (· < ·) :=
    (List.pairwise_map.2 hcs.sorted).sublist (pickRoots_sublist 0)
  refine ⟨rfl, hascending, hmembers, fun v hv => ?_, fun others hothers => ?_⟩
  · obtain ⟨c, hc, hclosed, hway⟩ := hcs.exists_closed h hv
    exact ⟨_, (hmembers _).2 ⟨c, hc, rfl, hclosed⟩, hway⟩
  · exact hcs.least (hascending.imp fun hlt => Nat.ne_of_lt hlt) (fun r hr => (hmembers r).1 hr)
      hothers

end Roots

end XPerl.XGraph
