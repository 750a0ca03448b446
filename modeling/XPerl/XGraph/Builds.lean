import XPerl.XGraph.Run

/-! The IDs of the compact and of the wide build. -/

namespace XPerl.XGraph

open XPerl.Framework Exec

/-- The two builds of `xgraph.h`; the wide one is that of `XGRAPH_WIDE`. -/
inductive Build where
  | compact
  | wide
  deriving DecidableEq, Repr

def Build.maxVertexId : Build → Nat
  | .compact => 0x00ffffff
  | .wide => 0xffffffff

def Build.maxLabelId : Build → Nat
  | .compact => 0xff
  | .wide => 0xffffffff

def Build.entryLabelBits : Build → Nat
  | .compact => 8
  | .wide => 32

def Build.entryRange : Build → Nat
  | .compact => 2 ^ 32
  | .wide => 2 ^ 64

def Build.xgPack (b : Build) (vertex label : Nat) : Nat :=
  ((vertex <<< b.entryLabelBits) ||| (label &&& b.maxLabelId)) % b.entryRange

def Build.xgEntryVertex (b : Build) (entry : Nat) : Nat :=
  (entry >>> b.entryLabelBits) % (uint32Max + 1)

def Build.xgEntryLabel (b : Build) (entry : Nat) : Nat :=
  (entry &&& b.maxLabelId) % (uint32Max + 1)

/-- The loop of `xg_vertex_capacity`, on 64 bits; none when it is not over. -/
def Build.tableCapacity (b : Build) (id : Nat) : Nat → Nat → Option Nat
  | 0, _ => none
  | rounds + 1, capacity =>
    if capacity ≤ id then
      b.tableCapacity id rounds
        (if capacity > (b.maxVertexId + 1) / 2 then b.maxVertexId + 1 else capacity * 2)
    else some capacity

/-- `xg_vertex_capacity`: what is stored has 32 bits; none when it never returns. -/
def Build.growTable (b : Build) (graph : Graph) (id : Nat) : Option Graph :=
  if id < graph.vertexCapacity then some graph
  else
    (b.tableCapacity id 33 graph.vertexCapacity).map fun capacity =>
      { graph with
        vertices := fun i =>
          if i < graph.vertexCapacity then graph.vertices i else ⟨none, none, false⟩
        vertexCapacity := capacity % (uint32Max + 1) }

def Graph.nameNew (graph : Graph) (id : Nat) : Option Str → Graph
  | none => graph
  | some s => (graph.storeName id s).touchNames

def Graph.countId (graph : Graph) : Graph :=
  { graph with nextVertexId := (graph.nextVertexId + 1) % (uint32Max + 1) }

def Build.xgAddVertex (b : Build) (name : Value) (graph : Graph) :
    Option (Except XgError Nat × Graph) :=
  match (xgRequireMutable >>= fun _ => xgNormalizeName name).run graph with
  | .error e graph => some (.error e, graph)
  | .ok normalized graph =>
    if (normalized.bind graph.vertexIdsByName).isSome then
      some (.error .duplicateVertexName, graph)
    else if graph.nextVertexId = 0 ∨ graph.nextVertexId > b.maxVertexId then
      some (.error .vertexIdExhausted, graph)
    else
      let id := graph.nextVertexId
      (b.growTable graph.countId id).map fun graph =>
        (.ok id, ((graph.liven id).nameNew id normalized).touchTopology)

def Graph.bringToLife (graph : Graph) (id : Nat) : Graph :=
  if id ≥ graph.nextVertexId then
    { graph.liven id with nextVertexId := (id + 1) % (uint32Max + 1) }.touchTopology
  else (graph.liven id).touchTopology

/-- `xg_add_vertex_id`, which answers nothing but the ID it got; none when it never returns. -/
def Build.xgAddVertexId (b : Build) (id : Nat) (graph : Graph) :
    Option (Except XgError Nat × Graph) :=
  match xgRequireMutable.run graph with
  | .error e graph => some (.error e, graph)
  | .ok _ graph =>
    if id = 0 ∨ id > b.maxVertexId then some (.error .invalidVertexId, graph)
    else if graph.hasVertex id then some (.error .duplicateVertexId, graph)
    else
      (b.growTable graph id).map fun graph => (.ok id, graph.bringToLife id)

def Graph.vertexIds (graph : Graph) : List Nat :=
  (List.range' 1 (graph.nextVertexId - 1)).filter graph.hasVertex

inductive IdCall where
  | addVertex (name : Value)
  | addVertexId (id : Nat)

def Build.call (b : Build) : IdCall → Graph → Option (Except XgError Nat × Graph)
  | .addVertex name => b.xgAddVertex name
  | .addVertexId id => b.xgAddVertexId id

def addedBy (added : List Nat) : Except XgError Nat → List Nat
  | .ok id => id :: added
  | .error _ => added

/-- The graph behind some calls, and the IDs that they have made live; none when a call never
returns. -/
def Build.runCalls (b : Build) : Graph × List Nat → List IdCall → Option (Graph × List Nat)
  | s, [] => some s
  | s, c :: calls => (b.call c s.1).bind fun r => b.runCalls (r.2, addedBy s.2 r.1) calls

theorem entry_pack (b : Build) {vertex label : Nat} (hvertex : vertex ≤ b.maxVertexId)
    (hlabel : label ≤ b.maxLabelId) :
    b.xgEntryVertex (b.xgPack vertex label) = vertex ∧
      b.xgEntryLabel (b.xgPack vertex label) = label := by
  have hmask : b.maxLabelId = 2 ^ b.entryLabelBits - 1 := by cases b <;> rfl
  have hlt : label < 2 ^ b.entryLabelBits := by
    have hpos : 0 < 2 ^ b.entryLabelBits := Nat.two_pow_pos _
    omega
  have hand : label &&& b.maxLabelId = label := by
    rw [hmask, Nat.and_two_pow_sub_one_eq_mod, Nat.mod_eq_of_lt hlt]
  have hpack : b.xgPack vertex label = vertex * 2 ^ b.entryLabelBits + label := by
    rw [Build.xgPack, hand, ← Nat.shiftLeft_add_eq_or_of_lt hlt, Nat.shiftLeft_eq]
    cases b with
    | compact =>
      simp only [Build.maxVertexId, Build.maxLabelId, Build.entryLabelBits, Build.entryRange]
        at hvertex hlabel ⊢
      omega
    | wide =>
      simp only [Build.maxVertexId, Build.maxLabelId, Build.entryLabelBits, Build.entryRange]
        at hvertex hlabel ⊢
      omega
  constructor
  · rw [Build.xgEntryVertex, hpack, Nat.shiftRight_eq_div_pow, Nat.mul_comm,
      Nat.mul_add_div (Nat.two_pow_pos _), Nat.div_eq_of_lt hlt, Nat.add_zero]
    cases b with
    | compact =>
      simp only [Build.maxVertexId, uint32Max] at hvertex ⊢
      omega
    | wide =>
      simp only [Build.maxVertexId, uint32Max] at hvertex ⊢
      omega
  · rw [Build.xgEntryLabel, hpack, hmask, Nat.and_two_pow_sub_one_eq_mod, Nat.mul_comm,
      Nat.mul_add_mod, Nat.mod_eq_of_lt hlt]
    cases b with
    | compact =>
      simp only [Build.maxLabelId, uint32Max] at hlabel ⊢
      omega
    | wide =>
      simp only [Build.maxLabelId, uint32Max] at hlabel ⊢
      omega

def Build.idBits : Build → Nat
  | .compact => 24
  | .wide => 32

theorem maxVertexId_succ (b : Build) : b.maxVertexId + 1 = 2 ^ b.idBits := by cases b <;> rfl

theorem tableCapacity_spec (b : Build) {id : Nat} (hid : id ≤ b.maxVertexId) (rounds k : Nat)
    (hk : k ≤ b.idBits) (hrounds : b.idBits < k + rounds) :
    ∃ k', k ≤ k' ∧ k' ≤ b.idBits ∧ b.tableCapacity id rounds (2 ^ k) = some (2 ^ k') ∧
      id < 2 ^ k' ∧ (k' = k ∨ 2 ^ (k' - 1) ≤ id) := by
  have hmax := maxVertexId_succ b
  induction rounds generalizing k with
  | zero => omega
  | succ rounds ih =>
    rw [Build.tableCapacity]
    by_cases hle : 2 ^ k ≤ id
    · have hlt : k < b.idBits := by
        have hpow : 2 ^ k < 2 ^ b.idBits := by omega
        exact (Nat.pow_lt_pow_iff_right (by decide)).1 hpow
      have hhalf : ¬ 2 ^ k > (b.maxVertexId + 1) / 2 := by
        have hpow : 2 ^ (k + 1) ≤ 2 ^ b.idBits := Nat.pow_le_pow_right (by decide) hlt
        rw [Nat.pow_succ] at hpow
        omega
      obtain ⟨k', hge, hbits, hrun, hroom, hbelow⟩ := ih (k + 1) hlt (by omega)
      rw [if_pos hle, if_neg hhalf, ← Nat.pow_succ]
      refine ⟨k', by omega, hbits, hrun, hroom, Or.inr ?_⟩
      rcases hbelow with rfl | hbelow
      · exact hle
      · exact hbelow
    · rw [if_neg hle]
      exact ⟨k, Nat.le_refl k, hk, rfl, by omega, Or.inl rfl⟩

theorem tableCapacity_zero (b : Build) (id rounds : Nat) : b.tableCapacity id rounds 0 = none := by
  induction rounds with
  | zero => rfl
  | succ rounds ih =>
    rw [Build.tableCapacity, if_pos (Nat.zero_le id), if_neg (Nat.not_lt_zero _), Nat.zero_mul, ih]

section Compact

variable {g : Graph}

theorem run_requireMutable (h : Usable g) : xgRequireMutable.run g = .ok () g := by
  simp only [xgRequireMutable, xgRequireUsable, run_bind, throwIf]
  simp [h.1, h.2]

def answerOf {α : Type} (idOf : α → Nat) :
    EStateM.Result XgError Graph α → Except XgError Nat × Graph
  | .ok a g => (.ok (idOf a), g)
  | .error e g => (.error e, g)

end Compact

section Growing

variable {b : Build} {g : Graph}

def StoredCapacity (b : Build) (g : Graph) : Prop :=
  ∃ k, k ≤ 31 ∧ k ≤ b.idBits ∧ g.vertexCapacity = 2 ^ k

theorem growTable_ids (hcapacity : StoredCapacity b g) {id : Nat} (hid : id ≤ b.maxVertexId) :
    ∃ vertices capacity, b.growTable g id =
        some { g with vertices := vertices, vertexCapacity := capacity } ∧
      (2 ^ 31 ≤ id → capacity = 0) ∧
      (id < 2 ^ 31 →
        StoredCapacity b { g with vertices := vertices, vertexCapacity := capacity } ∧
          id < capacity ∧
          ∀ j, ({ g with vertices := vertices, vertexCapacity := capacity } : Graph).hasVertex j =
            g.hasVertex j) := by
  obtain ⟨k, hk, hbits, hcap⟩ := hcapacity
  rw [Build.growTable]
  by_cases hlt : id < g.vertexCapacity
  · have hpow : 2 ^ k ≤ 2 ^ 31 := Nat.pow_le_pow_right (by decide) hk
    rw [if_pos hlt]
    refine ⟨g.vertices, g.vertexCapacity, rfl, fun hle => ?_, fun _ => ?_⟩
    · omega
    · exact ⟨⟨k, hk, hbits, hcap⟩, hlt, fun _ => rfl⟩
  · obtain ⟨k', hge, hbits', hrun, hroom, hbelow⟩ :=
      tableCapacity_spec b hid 33 k hbits (by cases b <;> simp only [Build.idBits] <;> omega)
    rw [if_neg hlt, hcap, hrun]
    refine ⟨_, _, rfl, fun hle => ?_, fun hsmall => ?_⟩
    · -- the capacity is `2 ^ 32`, which is stored as nothing
      have hgreater : 31 < k' := by
        have hpow : 2 ^ 31 < 2 ^ k' := by omega
        exact (Nat.pow_lt_pow_iff_right (by decide)).1 hpow
      have htop : k' = 32 := by
        have hmost : b.idBits ≤ 32 := by cases b <;> decide
        omega
      rw [htop]
      rfl
    · have hk' : k' ≤ 31 := by
        rcases hbelow with rfl | hbelow
        · exact hk
        · have hpow : 2 ^ (k' - 1) < 2 ^ 31 := by omega
          have hlt' := (Nat.pow_lt_pow_iff_right (by decide)).1 hpow
          omega
      have hmod : 2 ^ k' % (uint32Max + 1) = 2 ^ k' := by
        have hpow : 2 ^ k' ≤ 2 ^ 31 := Nat.pow_le_pow_right (by decide) hk'
        apply Nat.mod_eq_of_lt
        simp only [uint32Max]
        omega
      rw [hmod]
      refine ⟨⟨k', hk', hbits', rfl⟩, hroom, fun j => ?_⟩
      have hgrown : 2 ^ k ≤ 2 ^ k' := Nat.pow_le_pow_right (by decide) hge
      by_cases hj : j < 2 ^ k
      · simp [Graph.hasVertex, hcap, hj, Nat.lt_of_lt_of_le hj hgrown]
      · simp [Graph.hasVertex, hcap, hj]

end Growing

section Runs

variable {b : Build} {g : Graph} {added : List Nat}

/-- What the table promises about the IDs that calls have made live. -/
structure Sound (g : Graph) (added : List Nat) : Prop where
  capacity : ∀ id ∈ added, id < g.vertexCapacity
  next : ∀ id ∈ added, id < g.nextVertexId
  ids : ∀ id, id ∈ g.vertexIds ↔ id ∈ added

/-- The table as it stays while no ID has 32 bits. -/
structure IdsOk (b : Build) (g : Graph) (added : List Nat) : Prop where
  usable : Usable g
  capacity : StoredCapacity b g
  next : 1 ≤ g.nextVertexId ∧ g.nextVertexId ≤ 2 ^ 31
  live : ∀ id, g.hasVertex id = true ↔ id ∈ added
  below : ∀ id ∈ added, id < g.nextVertexId

theorem IdsOk.sound (h : IdsOk b g added) : Sound g added where
  capacity := fun id hid => hasVertex_lt ((h.live id).2 hid)
  next := h.below
  ids := by
    intro id
    rw [Graph.vertexIds, List.mem_filter, List.mem_range'_1, h.live]
    constructor
    · exact fun hid => hid.2
    · intro hid
      have hpos := hasVertex_pos ((h.live id).2 hid)
      have hlt := h.below id hid
      exact ⟨⟨by omega, by omega⟩, hid⟩

theorem idsOk_new (b : Build) (acyclic strictLabels : Bool) :
    IdsOk b (xgNew acyclic strictLabels) [] where
  usable := ⟨rfl, rfl⟩
  capacity := ⟨4, by decide, by cases b <;> decide, rfl⟩
  next := ⟨Nat.le_refl 1, (by decide : 1 ≤ 2 ^ 31)⟩
  live := by
    intro id
    simp [Graph.hasVertex, xgNew]
  below := fun id hid => absurd hid List.not_mem_nil

def IdCall.wanted (g : Graph) : IdCall → Nat
  | .addVertex _ => g.nextVertexId
  | .addVertexId id => id

/-- The checks that a call does not pass. -/
def IdCall.Refused (b : Build) (g : Graph) : IdCall → Prop
  | .addVertex name =>
    name = .ref ∨ name = .dies ∨ (∃ s, name = .str s ∧ (g.vertexIdsByName s).isSome = true) ∨
      g.nextVertexId = 0 ∨ g.nextVertexId > b.maxVertexId
  | .addVertexId id => id = 0 ∨ id > b.maxVertexId ∨ g.hasVertex id = true

theorem nameNew_rest (g : Graph) (id : Nat) (normalized : Option Str) :
    ∃ byId byName names, g.nameNew id normalized =
      { g with vertexNamesById := byId, vertexIdsByName := byName, namingGeneration := names } := by
  cases normalized with
  | none => exact ⟨_, _, _, rfl⟩
  | some s => exact ⟨_, _, _, rfl⟩

theorem IdsOk.add (h : IdsOk b g added) {g' : Graph} {id : Nat} (hsmall : id < 2 ^ 31)
    (husable : Usable g') (hcapacity : StoredCapacity b g')
    (hlive : ∀ j, g'.hasVertex j = true ↔ j = id ∨ g.hasVertex j = true)
    (hnext : g'.nextVertexId = if id ≥ g.nextVertexId then id + 1 else g.nextVertexId) :
    IdsOk b g' (id :: added) where
  usable := husable
  capacity := hcapacity
  next := by
    have hbounds := h.next
    rw [hnext]
    by_cases hge : id ≥ g.nextVertexId
    · rw [if_pos hge]
      exact ⟨by omega, hsmall⟩
    · rw [if_neg hge]
      exact hbounds
  live := fun j => by rw [hlive, h.live, List.mem_cons]
  below := by
    intro j hj
    rw [hnext]
    rcases List.mem_cons.1 hj with rfl | hj
    · by_cases hge : j ≥ g.nextVertexId
      · rw [if_pos hge]
        exact Nat.lt_succ_self j
      · rw [if_neg hge]
        omega
    · have hlt := h.below j hj
      by_cases hge : id ≥ g.nextVertexId
      · rw [if_pos hge]
        omega
      · rw [if_neg hge]
        exact hlt

theorem call_never_returns (husable : Usable g) (hcapacity : g.vertexCapacity = 0) {id : Nat}
    (hpos : id ≠ 0) (hid : id ≤ b.maxVertexId) : b.call (.addVertexId id) g = none := by
  have hvalid : ¬ (id = 0 ∨ id > b.maxVertexId) := not_or.2 ⟨hpos, Nat.not_lt.2 hid⟩
  have hdead : ¬ g.hasVertex id = true := by simp [Graph.hasVertex, hcapacity]
  have hroom : ¬ id < g.vertexCapacity := by omega
  rw [Build.call, Build.xgAddVertexId, run_requireMutable husable]
  dsimp only
  rw [if_neg hvalid, if_neg hdead, Build.growTable, if_neg hroom, hcapacity, tableCapacity_zero]
  rfl

theorem hasVertex_bringToLife (g : Graph) {id : Nat} (hpos : id ≠ 0)
    (hroom : id < g.vertexCapacity) (j : Nat) :
    (g.bringToLife id).hasVertex j = true ↔ j = id ∨ g.hasVertex j = true := by
  have hsame : (g.bringToLife id).hasVertex j = (g.liven id).hasVertex j := by
    rw [Graph.bringToLife]
    by_cases hge : id ≥ g.nextVertexId
    · rw [if_pos hge]
      rfl
    · rw [if_neg hge]
      rfl
  rw [hsame, hasVertex_liven g hpos hroom]

theorem bringToLife_rest (g : Graph) (id : Nat) :
    (g.bringToLife id).vertexCapacity = g.vertexCapacity ∧
      (g.bringToLife id).frozen = g.frozen ∧
      (g.bringToLife id).unavailableThreadClone = g.unavailableThreadClone ∧
      (g.bringToLife id).nextVertexId =
        if id ≥ g.nextVertexId then (id + 1) % (uint32Max + 1) else g.nextVertexId := by
  rw [Graph.bringToLife]
  by_cases hge : id ≥ g.nextVertexId
  · rw [if_pos hge, if_pos hge]
    exact ⟨rfl, rfl, rfl, rfl⟩
  · rw [if_neg hge, if_neg hge]
    exact ⟨rfl, rfl, rfl, rfl⟩

theorem refused_normalized (g : Graph) (normalized : Option Str) :
    (IdCall.addVertex (Value.ofNormalized normalized)).Refused b g ↔
      (normalized.bind g.vertexIdsByName).isSome = true ∨
        (g.nextVertexId = 0 ∨ g.nextVertexId > b.maxVertexId) := by
  cases normalized with
  | none => simp [IdCall.Refused, Value.ofNormalized]
  | some s => simp [IdCall.Refused, Value.ofNormalized]

theorem addVertex_cases (h : IdsOk b g added) (hmutable : xgRequireMutable.run g = .ok () g)
    (name : Value) :
    (IdCall.addVertex name).Refused b g ∧
        (∃ e, b.call (.addVertex name) g = some (.error e, g)) ∨
      ¬ (IdCall.addVertex name).Refused b g ∧ ∃ g',
        b.call (.addVertex name) g = some (.ok ((IdCall.addVertex name).wanted g), g') ∧
        ((IdCall.addVertex name).wanted g < 2 ^ 31 →
          IdsOk b g' ((IdCall.addVertex name).wanted g :: added)) ∧
        (2 ^ 31 ≤ (IdCall.addVertex name).wanted g → g'.vertexCapacity = 0 ∧ Usable g') := by
  have hrun : b.call (.addVertex name) g = b.xgAddVertex name g := rfl
  have hnormalize : (xgRequireMutable >>= fun _ => xgNormalizeName name).run g =
      (xgNormalizeName name).run g := by rw [run_bind, hmutable]
  rw [hrun, Build.xgAddVertex, hnormalize]
  by_cases hname : ∃ normalized, name = Value.ofNormalized normalized
  · obtain ⟨normalized, rfl⟩ := hname
    have hok : (xgNormalizeName (Value.ofNormalized normalized)).run g = .ok normalized g := by
      cases normalized with
      | none => rfl
      | some s => rfl
    rw [refused_normalized, hok]
    dsimp only
    by_cases htaken : (normalized.bind g.vertexIdsByName).isSome = true
    · rw [if_pos htaken]
      exact Or.inl ⟨Or.inl htaken, _, rfl⟩
    rw [if_neg htaken]
    by_cases hexhausted : g.nextVertexId = 0 ∨ g.nextVertexId > b.maxVertexId
    · rw [if_pos hexhausted]
      exact Or.inl ⟨Or.inr hexhausted, _, rfl⟩
    rw [if_neg hexhausted]
    right
    refine ⟨not_or.2 ⟨htaken, hexhausted⟩, ?_⟩
    push Not at hexhausted
    obtain ⟨hpos, hid⟩ := hexhausted
    obtain ⟨vertices, capacity, hgrow, hlarge, hgrown⟩ :=
      growTable_ids (g := g.countId) h.capacity hid
    obtain ⟨byId, byName, names, hrest⟩ := nameNew_rest
      (Graph.liven { g.countId with vertices := vertices, vertexCapacity := capacity }
        g.nextVertexId) g.nextVertexId normalized
    rw [hgrow]
    refine ⟨_, rfl, fun hsmall => ?_, fun hle => ?_⟩
    · obtain ⟨hstored, hroom, hsame⟩ := hgrown hsmall
      have hmod : (g.nextVertexId + 1) % (uint32Max + 1) = g.nextVertexId + 1 := by
        have hbounds := h.next
        simp only [uint32Max]
        omega
      rw [hrest]
      refine h.add hsmall h.usable hstored (fun j => ?_) ?_
      · have hliven := hasVertex_liven
          { g.countId with vertices := vertices, vertexCapacity := capacity } hpos hroom j
        rw [hsame] at hliven
        exact hliven
      · rw [IdCall.wanted, if_pos (Nat.le_refl _)]
        exact hmod
    · rw [hrest]
      exact ⟨hlarge hle, h.usable⟩
  · left
    cases name with
    | undef => exact absurd ⟨none, rfl⟩ hname
    | str s => exact absurd ⟨some s, rfl⟩ hname
    | ref => exact ⟨Or.inl rfl, _, rfl⟩
    | dies => exact ⟨Or.inr (Or.inl rfl), _, rfl⟩

theorem call_cases (h : IdsOk b g added) (c : IdCall) :
    c.Refused b g ∧ (∃ e, b.call c g = some (.error e, g)) ∨
      ¬ c.Refused b g ∧ ∃ g', b.call c g = some (.ok (c.wanted g), g') ∧
        (c.wanted g < 2 ^ 31 → IdsOk b g' (c.wanted g :: added)) ∧
        (2 ^ 31 ≤ c.wanted g → g'.vertexCapacity = 0 ∧ Usable g') := by
  have hmutable := run_requireMutable h.usable
  cases c with
  | addVertexId id =>
    rw [Build.call, Build.xgAddVertexId, hmutable]
    dsimp only
    by_cases hinvalid : id = 0 ∨ id > b.maxVertexId
    · rw [if_pos hinvalid]
      left
      refine ⟨?_, _, rfl⟩
      rcases hinvalid with hzero | hlarge
      · exact Or.inl hzero
      · exact Or.inr (Or.inl hlarge)
    rw [if_neg hinvalid]
    push Not at hinvalid
    obtain ⟨hpos, hid⟩ := hinvalid
    by_cases hlive : g.hasVertex id = true
    · rw [if_pos hlive]
      exact Or.inl ⟨Or.inr (Or.inr hlive), _, rfl⟩
    rw [if_neg hlive]
    right
    refine ⟨?_, ?_⟩
    · intro hrefused
      rcases hrefused with hzero | hlarge | hdup
      · exact hpos hzero
      · exact absurd hlarge (Nat.not_lt.2 hid)
      · exact hlive hdup
    obtain ⟨vertices, capacity, hgrow, hlarge, hgrown⟩ := growTable_ids h.capacity hid
    rw [hgrow]
    refine ⟨_, rfl, fun hsmall => ?_, fun hle => ?_⟩
    · obtain ⟨hstored, hroom, hsame⟩ := hgrown hsmall
      obtain ⟨hcap, hfrozen, hthread, hnext⟩ :=
        bringToLife_rest { g with vertices := vertices, vertexCapacity := capacity } id
      have hmod : (id + 1) % (uint32Max + 1) = id + 1 := by
        simp only [uint32Max]
        omega
      rw [hmod] at hnext
      obtain ⟨k, hk, hbits, hpower⟩ := hstored
      refine h.add hsmall ⟨hthread.trans h.usable.1, hfrozen.trans h.usable.2⟩
        ⟨k, hk, hbits, hcap.trans hpower⟩ (fun j => ?_) hnext
      rw [hasVertex_bringToLife _ hpos hroom, hsame]
      exact Iff.rfl
    · obtain ⟨hcap, hfrozen, hthread, -⟩ :=
        bringToLife_rest { g with vertices := vertices, vertexCapacity := capacity } id
      exact ⟨hcap.trans (hlarge hle), hthread.trans h.usable.1, hfrozen.trans h.usable.2⟩
  | addVertex name => exact addVertex_cases h hmutable name

theorem runCalls_sound (h : IdsOk b g added) (calls : List IdCall) :
    (∀ before after, calls = before ++ after →
      ∃ g' added', b.runCalls (g, added) before = some (g', added') ∧ Sound g' added') ↔
    ∀ before c after, calls = before ++ c :: after → ∀ g' added',
      b.runCalls (g, added) before = some (g', added') →
        c.Refused b g' ∨ c.wanted g' < 2 ^ 31 := by
  induction calls generalizing g added with
  | nil =>
    constructor
    · intro _ before c after hsplit
      exact absurd (congrArg List.length hsplit) (by simp)
    · intro _ before after hsplit
      obtain ⟨rfl, rfl⟩ := List.append_eq_nil_iff.1 hsplit.symm
      exact ⟨g, added, rfl, h.sound⟩
  | cons c calls ih =>
    -- a call that returns hands the rest of the run on to the induction
    have hrest {r : Except XgError Nat} {g' : Graph} (hcall : b.call c g = some (r, g'))
        (hgood : c.Refused b g ∨ c.wanted g < 2 ^ 31) (h' : IdsOk b g' (addedBy added r)) :
        (∀ before after, c :: calls = before ++ after →
          ∃ g' added', b.runCalls (g, added) before = some (g', added') ∧ Sound g' added') ↔
        ∀ before c' after, c :: calls = before ++ c' :: after → ∀ g' added',
          b.runCalls (g, added) before = some (g', added') →
            c'.Refused b g' ∨ c'.wanted g' < 2 ^ 31 := by
      have hstep (before : List IdCall) : b.runCalls (g, added) (c :: before) =
          b.runCalls (g', addedBy added r) before := by
        rw [Build.runCalls, hcall]
        rfl
      constructor
      · intro hsound before c' after hsplit g'' added'' hrun
        cases before with
        | nil =>
          obtain ⟨rfl, rfl⟩ := List.cons.inj hsplit
          rw [Build.runCalls] at hrun
          obtain ⟨rfl, -⟩ := Prod.mk.inj (Option.some.inj hrun)
          exact hgood
        | cons c'' before =>
          obtain ⟨rfl, htail⟩ := List.cons.inj hsplit
          rw [hstep] at hrun
          refine (ih h').1 (fun before after hparts => ?_) before c' after htail g'' added'' hrun
          have hfirst := hsound (c :: before) after (by rw [hparts, List.cons_append])
          rw [hstep] at hfirst
          exact hfirst
      · intro hsmall before after hsplit
        cases before with
        | nil => exact ⟨g, added, rfl, h.sound⟩
        | cons c'' before =>
          obtain ⟨rfl, htail⟩ := List.cons.inj hsplit
          rw [hstep]
          refine (ih h').2 (fun before c' after hparts g'' added'' hrun => ?_) before after htail
          have hfirst := hsmall (c :: before) c' after (by rw [hparts, List.cons_append])
          rw [hstep] at hfirst
          exact hfirst g'' added'' hrun
    rcases call_cases h c with ⟨hrefused, e, hcall⟩ | ⟨hpassed, g', hcall, hadd, hlost⟩
    · exact hrest hcall (Or.inl hrefused) h
    · rcases Nat.lt_or_ge (c.wanted g) (2 ^ 31) with hsmall | hlarge
      · exact hrest hcall (Or.inr hsmall) (hadd hsmall)
      · constructor
        · intro hsound
          obtain ⟨g'', added'', hrun, hcapacity, -, -⟩ := hsound [c] calls rfl
          rw [Build.runCalls, hcall] at hrun
          obtain ⟨rfl, rfl⟩ := Prod.mk.inj (Option.some.inj hrun)
          have hlt := hcapacity (c.wanted g) List.mem_cons_self
          rw [(hlost hlarge).1] at hlt
          exact absurd hlt (Nat.not_lt_zero _)
        · intro hall
          rcases hall [] c calls rfl g added rfl with hrefused | hsmall
          · exact absurd hrefused hpassed
          · exact absurd hsmall (Nat.not_lt.2 hlarge)

/-- In every state of a run the stored capacity and the next ID are above every live ID, and the
listing is of the live IDs, just where no ID from `2 ^ 31` on comes to life; entries give back what
they were packed from. -/
theorem vertex_ids_along_run (b : Build) (acyclic strictLabels : Bool) (calls : List IdCall) :
    ((∀ before after, calls = before ++ after → ∃ g added,
        b.runCalls (xgNew acyclic strictLabels, []) before = some (g, added) ∧ Sound g added) ↔
      ∀ before c after, calls = before ++ c :: after → ∀ g added,
        b.runCalls (xgNew acyclic strictLabels, []) before = some (g, added) →
          c.Refused b g ∨ c.wanted g < 2 ^ 31) ∧
    ∀ vertex label, vertex ≤ b.maxVertexId → label ≤ b.maxLabelId →
      b.xgEntryVertex (b.xgPack vertex label) = vertex ∧
        b.xgEntryLabel (b.xgPack vertex label) = label :=
  ⟨runCalls_sound (idsOk_new b acyclic strictLabels) calls, fun _ _ => entry_pack b⟩

/-- The wide build loses its table at the ID `2 ^ 31`: the capacity is stored as nothing, no vertex
is listed, and the next call with an ID never returns. -/
theorem wide_capacity_lost :
    ∃ g, Build.wide.runCalls (xgNew false false, []) [.addVertexId 0x80000000] =
        some (g, [0x80000000]) ∧
      ¬ Sound g [0x80000000] ∧ g.vertexCapacity = 0 ∧ (∀ id, id ∉ g.vertexIds) ∧
      Build.wide.call (.addVertexId 1) g = none := by
  have hcases := call_cases (idsOk_new .wide false false) (.addVertexId 0x80000000)
  rcases hcases with ⟨hrefused, -⟩ | ⟨-, g, hcall, -, hlost⟩
  · rcases hrefused with hzero | hlarge | hdup
    · cases hzero
    · exact absurd hlarge (by decide)
    · simp [Graph.hasVertex, xgNew] at hdup
  · obtain ⟨hcapacity, husable⟩ := hlost (Nat.le_refl _)
    have hdead (id : Nat) : g.hasVertex id = false := by simp [Graph.hasVertex, hcapacity]
    refine ⟨g, ?_, fun hsound => ?_, hcapacity, fun id hid => ?_,
      call_never_returns husable hcapacity (by decide) (by decide)⟩
    · rw [Build.runCalls, hcall]
      rfl
    · have hlt := hsound.capacity 0x80000000 List.mem_cons_self
      rw [hcapacity] at hlt
      exact absurd hlt (Nat.not_lt_zero _)
    · rw [Graph.vertexIds, List.mem_filter, hdead] at hid
      cases hid.2

end Runs

end XPerl.XGraph
