import Mathlib.Data.Nat.Bitwise
import XPerl.Framework.Counted
import XPerl.XGraph.Graph

/-! Packed entries and sorted lists, and what holds between the mutations of a graph. -/

namespace XPerl.XGraph

open XPerl.Framework XGraph.Graph

def Fits (vertex label : Nat) : Prop := vertex ≤ maxVertexId ∧ label ≤ maxLabelId

variable {v l needed entry : Nat} {list : AdjList}

theorem xgPack_eq (h : Fits v l) : xgPack v l = v * 256 + l := by
  obtain ⟨hv, hl⟩ := h
  simp only [maxVertexId, maxLabelId] at hv hl
  have hand : l &&& maxLabelId = l := by
    have hmod := Nat.and_two_pow_sub_one_eq_mod l 8
    have hlt : l % 2 ^ 8 = l := Nat.mod_eq_of_lt (by omega)
    rw [hlt] at hmod
    exact hmod
  have hor : v <<< entryLabelBits ||| l = v <<< entryLabelBits + l :=
    (Nat.shiftLeft_add_eq_or_of_lt (by simp only [entryLabelBits]; omega) v).symm
  rw [xgPack, hand, hor, Nat.shiftLeft_eq]
  simp only [entryLabelBits, uint32Max]
  omega

theorem xgEntryVertex_eq (e : Nat) : xgEntryVertex e = e / 256 := by
  rw [xgEntryVertex, Nat.shiftRight_eq_div_pow]
  rfl

theorem xgEntryLabel_eq (e : Nat) : xgEntryLabel e = e % 256 :=
  Nat.and_two_pow_sub_one_eq_mod e 8

@[simp] theorem xgEntryVertex_pack {v l : Nat} (h : Fits v l) : xgEntryVertex (xgPack v l) = v := by
  have hl := h.2
  simp only [maxLabelId] at hl
  rw [xgEntryVertex_eq, xgPack_eq h]
  omega

@[simp] theorem xgEntryLabel_pack {v l : Nat} (h : Fits v l) : xgEntryLabel (xgPack v l) = l := by
  have hl := h.2
  simp only [maxLabelId] at hl
  rw [xgEntryLabel_eq, xgPack_eq h]
  omega

theorem fits_of_word {e : Nat} (h : e < 2 ^ 32) : Fits (xgEntryVertex e) (xgEntryLabel e) := by
  rw [xgEntryVertex_eq, xgEntryLabel_eq]
  constructor
  · simp only [maxVertexId]
    omega
  · simp only [maxLabelId]
    omega

theorem xgPack_word {e : Nat} (h : e < 2 ^ 32) :
    xgPack (xgEntryVertex e) (xgEntryLabel e) = e := by
  rw [xgPack_eq (fits_of_word h), xgEntryVertex_eq, xgEntryLabel_eq]
  omega

theorem xgPack_lt (h : Fits v l) : xgPack v l < 2 ^ 32 := by
  obtain ⟨hv, hl⟩ := h
  rw [xgPack_eq ⟨hv, hl⟩]
  simp only [maxVertexId, maxLabelId] at hv hl
  omega

theorem xgPack_inj {v' l' : Nat} (h : Fits v l) (h' : Fits v' l')
    (heq : xgPack v l = xgPack v' l') : v = v' ∧ l = l' := by
  have hv := congrArg xgEntryVertex heq
  have hl := congrArg xgEntryLabel heq
  rw [xgEntryVertex_pack h, xgEntryVertex_pack h'] at hv
  rw [xgEntryLabel_pack h, xgEntryLabel_pack h'] at hl
  exact ⟨hv, hl⟩

/-- A list that fits its allocation, whose capacity was doubled from eight. -/
structure AdjList.Ok (list : AdjList) : Prop where
  sorted : list.entries.Pairwise (· < ·)
  room : list.entries.length ≤ list.capacity
  capacity : list.capacity = 0 ∨ ∃ k ≤ 28, list.capacity = 8 * 2 ^ k

theorem xgAdjNew_ok : xgAdjNew.Ok := ⟨List.Pairwise.nil, Nat.le_refl _, Or.inl rfl⟩

private theorem pow_le_pow {k m : Nat} (h : k ≤ m) : 2 ^ k ≤ 2 ^ m :=
  Nat.pow_le_pow_right (by omega) h

theorem AdjList.Ok.length_le (h : list.Ok) : list.entries.length ≤ 2 ^ 31 := by
  have hroom := h.room
  rcases h.capacity with hzero | ⟨k, hk, hcap⟩
  · omega
  · have hpow := pow_le_pow hk
    omega

private theorem growCapacity_spec (hneeded : needed ≤ 2 ^ 31) (rounds k : Nat)
    (hk : k ≤ 28) (hrounds : 28 < k + rounds) :
    ∃ k' ≤ 28, growCapacity needed rounds (8 * 2 ^ k) = some (8 * 2 ^ k') ∧
      needed ≤ 8 * 2 ^ k' := by
  induction rounds generalizing k with
  | zero => omega
  | succ rounds ih =>
    rw [growCapacity]
    by_cases hlt : 8 * 2 ^ k < needed
    · have hk' : k < 28 := by
        apply Nat.lt_of_not_le
        intro hge
        have hpow := pow_le_pow hge
        omega
      have hpow := pow_le_pow (show k + 1 ≤ 28 by omega)
      have hdouble : 8 * 2 ^ k * 2 = 8 * 2 ^ (k + 1) := by
        rw [Nat.pow_succ, Nat.mul_assoc]
      have hmax : ¬ 8 * 2 ^ (k + 1) > uint32Max := by
        simp only [uint32Max]
        omega
      rw [if_pos hlt, hdouble, if_neg hmax]
      exact ih (k + 1) (by omega) (by omega)
    · rw [if_neg hlt]
      exact ⟨k, hk, rfl, by omega⟩

private theorem growCapacity_none (hneeded : 2 ^ 31 < needed) (rounds k : Nat)
    (hk : k ≤ 28) : growCapacity needed rounds (8 * 2 ^ k) = none := by
  induction rounds generalizing k with
  | zero => rfl
  | succ rounds ih =>
    have hpow := pow_le_pow hk
    have hdouble : 8 * 2 ^ k * 2 = 8 * 2 ^ (k + 1) := by
      rw [Nat.pow_succ, Nat.mul_assoc]
    rw [growCapacity, if_pos (by omega), hdouble]
    by_cases hmax : 8 * 2 ^ (k + 1) > uint32Max
    · rw [if_pos hmax]
    · rw [if_neg hmax]
      apply ih
      apply Nat.le_of_not_lt
      intro hgt
      have hpow' := pow_le_pow (show 29 ≤ k + 1 by omega)
      simp only [uint32Max] at hmax
      omega

private theorem start_capacity (h : list.Ok) :
    ∃ k ≤ 28, (if list.capacity ≠ 0 then list.capacity else 8) = 8 * 2 ^ k := by
  rcases h.capacity with hzero | ⟨k, hk, hcap⟩
  · exact ⟨0, by omega, by simp [hzero]⟩
  · refine ⟨k, hk, ?_⟩
    have hpos : list.capacity ≠ 0 := by
      have hp := Nat.two_pow_pos k
      omega
    rw [if_pos hpos, hcap]

theorem AdjList.reserve_spec (h : list.Ok)
    (hneeded : needed ≤ 2 ^ 31) :
    ∃ list', list.reserve needed = some list' ∧ list'.Ok ∧ list'.entries = list.entries ∧
      needed ≤ list'.capacity := by
  by_cases hle : needed ≤ list.capacity
  · exact ⟨list, by rw [AdjList.reserve, if_pos hle], h, rfl, hle⟩
  · obtain ⟨k, hk, hcap⟩ := start_capacity h
    obtain ⟨k', hk', hgrow, hroom⟩ := growCapacity_spec hneeded 30 k hk (by omega)
    refine ⟨{ list with capacity := 8 * 2 ^ k' }, ?_, ⟨h.sorted, ?_, Or.inr ⟨k', hk', rfl⟩⟩, rfl, hroom⟩
    · rw [AdjList.reserve, if_neg hle, hcap, hgrow]
      rfl
    · have hfull := h.room
      change list.entries.length ≤ 8 * 2 ^ k'
      omega

theorem AdjList.reserve_none (h : list.Ok)
    (hnone : list.reserve needed = none) : 2 ^ 31 < needed := by
  apply Nat.lt_of_not_le
  intro hle
  obtain ⟨list', hsome, -⟩ := AdjList.reserve_spec h hle
  rw [hnone] at hsome
  cases hsome

theorem AdjList.reserve_some {list' : AdjList} (h : list.Ok)
    (hsome : list.reserve needed = some list') :
    list'.Ok ∧ list'.entries = list.entries ∧ needed ≤ list'.capacity ∧ needed ≤ 2 ^ 31 := by
  by_cases hle : needed ≤ 2 ^ 31
  · obtain ⟨list'', heq, hok, hentries, hroom⟩ := AdjList.reserve_spec h hle
    rw [hsome] at heq
    rw [Option.some.inj heq]
    exact ⟨hok, hentries, hroom, hle⟩
  · obtain ⟨k, hk, hcap⟩ := start_capacity h
    have hsmall : ¬ needed ≤ list.capacity := by
      have hpow := pow_le_pow hk
      by_cases hzero : list.capacity ≠ 0
      · rw [if_pos hzero] at hcap
        omega
      · omega
    rw [AdjList.reserve, if_neg hsmall, hcap, growCapacity_none (by omega) 30 k hk] at hsome
    cases hsome

theorem AdjList.holds_iff (h : list.Ok) (entry : Nat) :
    list.holds entry = true ↔ entry ∈ list.entries := by
  rw [AdjList.holds, beq_iff_eq]
  exact SortedList.getElem?_lowerBound h.sorted entry

theorem AdjList.insert_spec (h : list.Ok)
    (hnew : entry ∉ list.entries) (hroom : list.entries.length + 1 ≤ list.capacity) :
    ∃ list', list.insert entry = some list' ∧ list'.Ok ∧
      (∀ e, e ∈ list'.entries ↔ e = entry ∨ e ∈ list.entries) ∧
      list'.entries.length = list.entries.length + 1 := by
  have hlen := SortedList.length_insert h.sorted entry
  refine ⟨{ list with entries := SortedList.insert list.entries entry }, ?_,
    ⟨SortedList.pairwise_insert h.sorted hnew, ?_, h.capacity⟩, fun e => SortedList.mem_insert, hlen⟩
  · rw [AdjList.insert, AdjList.reserve, if_pos hroom]
    rfl
  · change (SortedList.insert list.entries entry).length ≤ list.capacity
    omega

theorem AdjList.remove_spec (h : list.Ok)
    (hmem : entry ∈ list.entries) :
    ∃ list', list.remove entry = some list' ∧ list'.Ok ∧
      (∀ e, e ∈ list'.entries ↔ e ∈ list.entries ∧ e ≠ entry) ∧
      list'.entries.length + 1 = list.entries.length := by
  have hholds := (AdjList.holds_iff h entry).2 hmem
  have herase := SortedList.eraseIdx_lowerBound h.sorted hmem
  have hnodup : list.entries.Nodup := h.sorted.imp (fun hlt => Nat.ne_of_lt hlt)
  have hlen := List.length_erase_of_mem hmem
  have hpos := List.length_pos_of_mem hmem
  refine ⟨{ list with entries := list.entries.erase entry }, ?_, ⟨?_, ?_, h.capacity⟩, ?_, ?_⟩
  · rw [AdjList.remove, if_pos hholds, AdjList.lowerBound, herase]
  · exact h.sorted.sublist List.erase_sublist
  · have hroom := h.room
    change (list.entries.erase entry).length ≤ list.capacity
    omega
  · intro e
    change e ∈ list.entries.erase entry ↔ _
    rw [hnodup.mem_erase_iff]
    exact And.comm
  · change (list.entries.erase entry).length + 1 = list.entries.length
    omega

theorem AdjList.remove_none (h : list.Ok)
    (hmem : entry ∉ list.entries) : list.remove entry = none := by
  have hholds : ¬ list.holds entry = true := fun hh => hmem ((AdjList.holds_iff h entry).1 hh)
  rw [AdjList.remove, if_neg hholds]

def outs (g : Graph) (u : Nat) : List Nat := (g.out u).entries

def ins (g : Graph) (v : Nat) : List Nat := (g.inn v).entries

/-- The two directions of the adjacency, and the number of edges. -/
structure Topology (g : Graph) : Prop where
  outOk : ∀ u, (g.out u).Ok
  inOk : ∀ v, (g.inn v).Ok
  outWord : ∀ u, ∀ e ∈ outs g u, e < 2 ^ 32
  inWord : ∀ v, ∀ e ∈ ins g v, e < 2 ^ 32
  mirror : ∀ u v l, Fits u l → Fits v l → (xgPack v l ∈ outs g u ↔ xgPack u l ∈ ins g v)
  outEnds : ∀ u, ∀ e ∈ outs g u, g.hasVertex u = true ∧ g.hasVertex (xgEntryVertex e) = true
  inEnds : ∀ v, ∀ e ∈ ins g v, g.hasVertex v = true ∧ g.hasVertex (xgEntryVertex e) = true
  labels : ∀ u, ∀ e ∈ outs g u, xgEntryLabel e < g.labelsById.length
  edges : Counted (fun p : Nat × Nat => p.2 ∈ outs g p.1) g.liveEdges

/-- The table of vertices and the IDs it gives out. -/
structure Table (g : Graph) : Prop where
  capacity : 16 ≤ g.vertexCapacity ∧ g.vertexCapacity ≤ maxVertexId + 1
  next : 1 ≤ g.nextVertexId ∧ g.nextVertexId ≤ maxVertexId + 1
  below : ∀ id, g.hasVertex id = true → id < g.nextVertexId
  live : Counted (fun id => g.hasVertex id = true) g.liveVertices

/-- The two name maps are inverse to each other, on live vertices. -/
structure Names (g : Graph) : Prop where
  inverse : ∀ s id, g.vertexIdsByName s = some id ↔ g.vertexNamesById id = some s
  live : ∀ s id, g.vertexIdsByName s = some id → g.hasVertex id = true

/-- The two label registries are inverse to each other, behind the reserved labels. -/
structure Labels (g : Graph) : Prop where
  reserved : ∃ rest, g.labelsById = none :: none :: some [] :: rest
  limit : g.labelsById.length ≤ maxLabelId + 1
  inverse : ∀ s i, g.labelIdsByName s = some i ↔ g.labelsById[i]? = some (some s)

def Usable (g : Graph) : Prop := g.unavailableThreadClone = false ∧ g.frozen = false

structure WF (g : Graph) : Prop where
  usable : Usable g
  topology : Topology g
  table : Table g
  names : Names g
  labels : Labels g

/-- What a caller can see of a graph. -/
structure View where
  live : Nat → Bool
  outgoing : Nat → List Nat
  incoming : Nat → List Nat
  nextId : Nat
  nameOf : Nat → Option Str
  idOf : Str → Option Nat
  labels : List (Option Str)
  labelOf : Str → Option Nat

def Graph.view (g : Graph) : View where
  live := g.hasVertex
  outgoing := outs g
  incoming := ins g
  nextId := g.nextVertexId
  nameOf := g.vertexNamesById
  idOf := g.vertexIdsByName
  labels := g.labelsById
  labelOf := g.labelIdsByName

theorem Topology.source_fits {g : Graph} (ht : Table g) (h : Topology g) {u e : Nat}
    (he : e ∈ outs g u) : Fits u (xgEntryLabel e) := by
  have hlive := (h.outEnds u e he).1
  have hlt := ht.below u hlive
  have hmax := ht.next.2
  exact ⟨by omega, (fits_of_word (h.outWord u e he)).2⟩

theorem Topology.target_fits {g : Graph} (ht : Table g) (h : Topology g) {v e : Nat}
    (he : e ∈ ins g v) : Fits v (xgEntryLabel e) := by
  have hlive := (h.inEnds v e he).1
  have hlt := ht.below v hlive
  have hmax := ht.next.2
  exact ⟨by omega, (fits_of_word (h.inWord v e he)).2⟩

theorem Table.fits {g : Graph} (h : Table g) {id l : Nat} (hid : g.hasVertex id = true)
    (hl : l ≤ maxLabelId) : Fits id l := by
  have hlt := h.below id hid
  have hmax := h.next.2
  exact ⟨by omega, hl⟩

theorem hasVertex_pos {g : Graph} {id : Nat} (h : g.hasVertex id = true) : id ≠ 0 := by
  simp only [hasVertex, Bool.and_eq_true, bne_iff_ne] at h
  exact h.1

section Lists

variable (g : Graph) (i j : Nat) (list : AdjList)

@[simp] theorem out_setOut : (g.setOut i list).out j = if j = i then list else g.out j := by
  by_cases h : j = i
  · simp [Graph.out, setOut, setVertex, h]
  · simp [Graph.out, setOut, setVertex, h]

@[simp] theorem inn_setOut : (g.setOut i list).inn j = g.inn j := by
  by_cases h : j = i
  · simp [inn, setOut, setVertex, h]
  · simp [inn, setOut, setVertex, h]

@[simp] theorem out_setIn : (g.setIn i list).out j = g.out j := by
  by_cases h : j = i
  · simp [Graph.out, setIn, setVertex, h]
  · simp [Graph.out, setIn, setVertex, h]

@[simp] theorem inn_setIn : (g.setIn i list).inn j = if j = i then list else g.inn j := by
  by_cases h : j = i
  · simp [inn, setIn, setVertex, h]
  · simp [inn, setIn, setVertex, h]

@[simp] theorem hasVertex_setOut : (g.setOut i list).hasVertex j = g.hasVertex j := by
  have hlive : ((g.setOut i list).vertices j).live = (g.vertices j).live := by
    by_cases h : j = i
    · simp [setOut, setVertex, h]
    · simp [setOut, setVertex, h]
  rw [hasVertex, hlive]
  rfl

@[simp] theorem hasVertex_setIn : (g.setIn i list).hasVertex j = g.hasVertex j := by
  have hlive : ((g.setIn i list).vertices j).live = (g.vertices j).live := by
    by_cases h : j = i
    · simp [setIn, setVertex, h]
    · simp [setIn, setVertex, h]
  rw [hasVertex, hlive]
  rfl

end Lists

/-- Two graphs that differ at most in their adjacency lists and edge counts. -/
structure SameFrame (g g' : Graph) : Prop where
  live : ∀ id, g'.hasVertex id = g.hasVertex id
  capacity : g'.vertexCapacity = g.vertexCapacity
  next : g'.nextVertexId = g.nextVertexId
  liveVertices : g'.liveVertices = g.liveVertices
  flags : g'.acyclic = g.acyclic ∧ g'.strictLabels = g.strictLabels ∧ g'.frozen = g.frozen ∧
    g'.unavailableThreadClone = g.unavailableThreadClone
  labelsById : g'.labelsById = g.labelsById
  labelIdsByName : g'.labelIdsByName = g.labelIdsByName
  vertexNamesById : g'.vertexNamesById = g.vertexNamesById
  vertexIdsByName : g'.vertexIdsByName = g.vertexIdsByName

theorem SameFrame.refl (g : Graph) : SameFrame g g :=
  ⟨fun _ => rfl, rfl, rfl, rfl, ⟨rfl, rfl, rfl, rfl⟩, rfl, rfl, rfl, rfl⟩

theorem SameFrame.trans {g g' g'' : Graph} (h : SameFrame g g') (h' : SameFrame g' g'') :
    SameFrame g g'' where
  live := fun id => (h'.live id).trans (h.live id)
  capacity := h'.capacity.trans h.capacity
  next := h'.next.trans h.next
  liveVertices := h'.liveVertices.trans h.liveVertices
  flags := ⟨h'.flags.1.trans h.flags.1, h'.flags.2.1.trans h.flags.2.1,
    h'.flags.2.2.1.trans h.flags.2.2.1, h'.flags.2.2.2.trans h.flags.2.2.2⟩
  labelsById := h'.labelsById.trans h.labelsById
  labelIdsByName := h'.labelIdsByName.trans h.labelIdsByName
  vertexNamesById := h'.vertexNamesById.trans h.vertexNamesById
  vertexIdsByName := h'.vertexIdsByName.trans h.vertexIdsByName

theorem SameFrame.setOut (g : Graph) (i : Nat) (list : AdjList) : SameFrame g (g.setOut i list) :=
  ⟨fun j => hasVertex_setOut g i j list, rfl, rfl, rfl, ⟨rfl, rfl, rfl, rfl⟩, rfl, rfl, rfl, rfl⟩

theorem SameFrame.setIn (g : Graph) (i : Nat) (list : AdjList) : SameFrame g (g.setIn i list) :=
  ⟨fun j => hasVertex_setIn g i j list, rfl, rfl, rfl, ⟨rfl, rfl, rfl, rfl⟩, rfl, rfl, rfl, rfl⟩

theorem SameFrame.withEdges {g g' : Graph} (h : SameFrame g g') (n : Nat) :
    SameFrame g { g' with liveEdges := n } :=
  ⟨h.live, h.capacity, h.next, h.liveVertices, h.flags, h.labelsById, h.labelIdsByName,
    h.vertexNamesById, h.vertexIdsByName⟩

theorem SameFrame.touched {g g' : Graph} (h : SameFrame g g') : SameFrame g g'.touchTopology :=
  ⟨h.live, h.capacity, h.next, h.liveVertices, h.flags, h.labelsById, h.labelIdsByName,
    h.vertexNamesById, h.vertexIdsByName⟩

theorem WF.of_frame {g g' : Graph} (h : WF g) (hframe : SameFrame g g') (htop : Topology g') :
    WF g' := by
  refine ⟨⟨?_, ?_⟩, htop, ⟨?_, ?_, ?_, ?_⟩, ⟨?_, ?_⟩, ⟨?_, ?_, ?_⟩⟩
  · rw [hframe.flags.2.2.2]
    exact h.usable.1
  · rw [hframe.flags.2.2.1]
    exact h.usable.2
  · rw [hframe.capacity]
    exact h.table.capacity
  · rw [hframe.next]
    exact h.table.next
  · intro id hid
    rw [hframe.live] at hid
    rw [hframe.next]
    exact h.table.below id hid
  · rw [hframe.liveVertices]
    exact h.table.live.congr (fun id => by rw [hframe.live])
  · intro s id
    rw [hframe.vertexIdsByName, hframe.vertexNamesById]
    exact h.names.inverse s id
  · intro s id hs
    rw [hframe.live]
    rw [hframe.vertexIdsByName] at hs
    exact h.names.live s id hs
  · rw [hframe.labelsById]
    exact h.labels.reserved
  · rw [hframe.labelsById]
    exact h.labels.limit
  · intro s i
    rw [hframe.labelsById, hframe.labelIdsByName]
    exact h.labels.inverse s i

theorem Topology.congr {g g' : Graph} (h : Topology g) (houtOk : ∀ u, (g'.out u).Ok)
    (hinOk : ∀ v, (g'.inn v).Ok) (houts : ∀ u, outs g' u = outs g u)
    (hins : ∀ v, ins g' v = ins g v)
    (hlive : ∀ id, g.hasVertex id = true → g'.hasVertex id = true)
    (hlabels : g.labelsById.length ≤ g'.labelsById.length) (hedges : g'.liveEdges = g.liveEdges) :
    Topology g' where
  outOk := houtOk
  inOk := hinOk
  outWord := by
    intro u e he
    rw [houts] at he
    exact h.outWord u e he
  inWord := by
    intro v e he
    rw [hins] at he
    exact h.inWord v e he
  mirror := by
    intro u v l hu hv
    rw [houts, hins]
    exact h.mirror u v l hu hv
  outEnds := by
    intro u e he
    rw [houts] at he
    obtain ⟨hu, hv⟩ := h.outEnds u e he
    exact ⟨hlive u hu, hlive _ hv⟩
  inEnds := by
    intro v e he
    rw [hins] at he
    obtain ⟨hv, hu⟩ := h.inEnds v e he
    exact ⟨hlive v hv, hlive _ hu⟩
  labels := by
    intro u e he
    rw [houts] at he
    exact Nat.lt_of_lt_of_le (h.labels u e he) hlabels
  edges := by
    rw [hedges]
    exact h.edges.congr (fun p => by rw [houts])

theorem xgNew_wf (acyclic strictLabels : Bool) : WF (xgNew acyclic strictLabels) := by
  have hdead : ∀ id, (xgNew acyclic strictLabels).hasVertex id = false := by
    intro id
    simp [hasVertex, xgNew]
  have houts : ∀ u, outs (xgNew acyclic strictLabels) u = [] := fun _ => rfl
  have hins : ∀ v, ins (xgNew acyclic strictLabels) v = [] := fun _ => rfl
  refine ⟨⟨rfl, rfl⟩, ?_, ?_, ?_, ?_⟩
  · refine ⟨fun _ => xgAdjNew_ok, fun _ => xgAdjNew_ok, ?_, ?_, ?_, ?_, ?_, ?_, ?_⟩
    all_goals simp [houts, hins]
    exact Counted.zero (by simp)
  · refine ⟨⟨Nat.le_refl 16, (by decide : 16 ≤ maxVertexId + 1)⟩,
      ⟨Nat.le_refl 1, (by decide : 1 ≤ maxVertexId + 1)⟩, ?_, ?_⟩
    · intro id hid
      rw [hdead] at hid
      cases hid
    · exact Counted.zero (fun id => by rw [hdead]; exact Bool.false_ne_true)
  · refine ⟨?_, ?_⟩
    · intro s id
      simp [xgNew]
    · intro s id hs
      cases hs
  · refine ⟨⟨[], rfl⟩, (by decide : 3 ≤ maxLabelId + 1), ?_⟩
    intro s i
    match i with
    | 0 => simp [xgNew]
    | 1 => simp [xgNew]
    | 2 => simp [xgNew, eq_comm]
    | n + 3 => simp [xgNew]

end XPerl.XGraph
