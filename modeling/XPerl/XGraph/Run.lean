import XPerl.XGraph.Deletion

/-! Runs of mutations: what holds in every state, and the run on which a label leaks. -/

namespace XPerl.XGraph

open XPerl.Framework Exec

variable {g : Graph} {ops : List Op}

/-- A call that registers a label for an edge that it cannot store. -/
def Op.Leaks (g : Graph) : Op → Prop
  | .addEdge source target label => LeaksLabel g source target label
  | _ => False

theorem call_spec (h : WF g) (op : Op) :
    wp op.call g (fun _ g' => Kept g g' ∧ ¬ op.Leaks g)
      (fun _ g' => Kept g g' ∧ (g'.view = g.view ↔ ¬ op.Leaks g)) := by
  have hkept (hno : ¬ op.Leaks g) (g' : Graph) (hg' : Kept g g') : Kept g g' ∧ ¬ op.Leaks g :=
    ⟨hg', hno⟩
  have hsame (hno : ¬ op.Leaks g) (g' : Graph) (hg' : g' = g) :
      Kept g g' ∧ (g'.view = g.view ↔ ¬ op.Leaks g) := by
    rw [hg']
    exact ⟨⟨h, Nat.le_refl _⟩, fun _ => hno, fun _ => rfl⟩
  cases op with
  | addVertex name =>
    rw [Op.call, wp_map]
    exact wp_mono (xgAddVertex_spec h name) (fun _ g' hg' => hkept not_false g' hg'.1)
      (fun _ g' hg' => hsame not_false g' hg'.1)
  | addVertexId id =>
    rw [Op.call, wp_map]
    exact wp_mono (xgAddVertexId_spec h id) (fun _ => hkept not_false) (fun _ => hsame not_false)
  | renameVertex id name =>
    rw [Op.call, wp_map]
    exact wp_mono (xgRenameVertex_spec h id name) (fun _ => hkept not_false)
      (fun _ => hsame not_false)
  | deleteVertex id =>
    rw [Op.call, wp_map]
    exact wp_mono (xgDeleteVertex_spec h id) (fun _ => hkept not_false) (fun _ => hsame not_false)
  | labelId label declare =>
    rw [Op.call, wp_map]
    apply wp_mono (xgLabelId_spec h label declare)
    · intro lid g' hinterned
      exact hkept not_false g' ⟨hinterned.wf h, Nat.le_of_eq hinterned.next.symm⟩
    · intro _ g' hg'
      exact hsame not_false g' hg'.1
  | declareLabels labels =>
    rw [Op.call, wp_map]
    exact wp_mono (xgDeclareLabels_spec h labels) (fun _ => hkept not_false)
      (fun _ => hsame not_false)
  | addEdge source target label =>
    rw [Op.call, wp_map]
    exact xgAddEdge_spec h source target label
  | deleteEdge source target label =>
    rw [Op.call, wp_map]
    exact wp_mono (xgDeleteEdge_spec h source target label) (fun _ => hkept not_false)
      (fun _ => hsame not_false)

theorem call_kept (h : WF g) (op : Op) : Kept g (stateAfter op.call g) :=
  wp_stateAfter (wp_mono (call_spec h op) (fun _ _ hg' => hg'.1) (fun _ _ hg' => hg'.1))

theorem run_kept (h : WF g) (ops : List Op) : Kept g (run Op.call g ops) := by
  induction ops generalizing g with
  | nil => exact ⟨h, Nat.le_refl _⟩
  | cons op ops ih =>
    obtain ⟨hwf, hnext⟩ := call_kept h op
    obtain ⟨hwf', hnext'⟩ := ih hwf
    exact ⟨hwf', hnext.trans hnext'⟩

/-- A call that throws and leaves the graph as it was. -/
def Unchanged (g : Graph) (op : Op) : Prop :=
  ∀ e, outcome op.call g = .error e → (stateAfter op.call g).view = g.view

theorem unchanged_iff (h : WF g) (op : Op) : Unchanged g op ↔ ¬ op.Leaks g := by
  obtain ⟨hreturn, hthrow⟩ := wp_iff.1 (call_spec h op)
  cases hout : outcome op.call g with
  | ok answer =>
    constructor
    · intro _
      exact (hreturn answer hout).2
    · intro _ e he
      rw [hout] at he
      cases he
  | error e =>
    rw [← (hthrow e hout).2]
    constructor
    · intro hsame
      exact hsame e hout
    · intro hsame _ _
      exact hsame

/-- An edge as the list of its source shows it. -/
def Graph.Outgoing (g : Graph) (source target label : Nat) : Prop :=
  ∃ e ∈ outs g source, xgEntryVertex e = target ∧ xgEntryLabel e = label

def Graph.Incoming (g : Graph) (source target label : Nat) : Prop :=
  ∃ e ∈ ins g target, xgEntryVertex e = source ∧ xgEntryLabel e = label

/-- Both directions and the registries are in step. -/
structure InStep (g : Graph) : Prop where
  sortedOut : ∀ u, (outs g u).Pairwise (· < ·)
  sortedIn : ∀ v, (ins g v).Pairwise (· < ·)
  mirror : ∀ u v l, g.Outgoing u v l ↔ g.Incoming u v l
  ends : ∀ u v l, g.Outgoing u v l → g.hasVertex u = true ∧ g.hasVertex v = true
  edges : Counted (fun t : Nat × Nat × Nat => g.Outgoing t.1 t.2.1 t.2.2) g.liveEdges
  vertices : Counted (fun id => g.hasVertex id = true) g.liveVertices
  below : ∀ id, g.hasVertex id = true → id < g.nextVertexId
  names : ∀ s id, g.vertexIdsByName s = some id ↔ g.vertexNamesById id = some s
  named : ∀ s id, g.vertexIdsByName s = some id → g.hasVertex id = true
  labels : ∀ s id, g.labelIdsByName s = some id ↔ g.labelsById[id]? = some (some s)

theorem outgoing_iff (h : WF g) {u v l : Nat} :
    g.Outgoing u v l ↔ Fits v l ∧ xgPack v l ∈ outs g u := by
  constructor
  · intro hout
    obtain ⟨e, he, rfl, rfl⟩ := hout
    have hword := h.topology.outWord u e he
    rw [xgPack_word hword]
    exact ⟨fits_of_word hword, he⟩
  · intro hmem
    obtain ⟨hfits, hmem⟩ := hmem
    exact ⟨_, hmem, xgEntryVertex_pack hfits, xgEntryLabel_pack hfits⟩

theorem incoming_iff (h : WF g) {u v l : Nat} :
    g.Incoming u v l ↔ Fits u l ∧ xgPack u l ∈ ins g v := by
  constructor
  · intro hin
    obtain ⟨e, he, rfl, rfl⟩ := hin
    have hword := h.topology.inWord v e he
    rw [xgPack_word hword]
    exact ⟨fits_of_word hword, he⟩
  · intro hmem
    obtain ⟨hfits, hmem⟩ := hmem
    exact ⟨_, hmem, xgEntryVertex_pack hfits, xgEntryLabel_pack hfits⟩

theorem WF.inStep (h : WF g) : InStep g where
  sortedOut := fun u => (h.topology.outOk u).sorted
  sortedIn := fun v => (h.topology.inOk v).sorted
  mirror := by
    intro u v l
    rw [outgoing_iff h, incoming_iff h]
    constructor
    · intro hout
      obtain ⟨hfv, hout⟩ := hout
      have hfu := h.table.fits (h.topology.outEnds u _ hout).1 hfv.2
      exact ⟨hfu, (h.topology.mirror u v l hfu hfv).1 hout⟩
    · intro hin
      obtain ⟨hfu, hin⟩ := hin
      have hfv := h.table.fits (h.topology.inEnds v _ hin).1 hfu.2
      exact ⟨hfv, (h.topology.mirror u v l hfu hfv).2 hin⟩
  ends := by
    intro u v l hout
    obtain ⟨e, he, rfl, rfl⟩ := hout
    exact h.topology.outEnds u e he
  edges := by
    apply h.topology.edges.map (fun p => (p.1, xgEntryVertex p.2, xgEntryLabel p.2))
    · intro p q hp hq heq
      obtain ⟨u, e⟩ := p
      obtain ⟨u', e'⟩ := q
      simp only [Prod.mk.injEq] at heq hp hq ⊢
      obtain ⟨hu, hv, hl⟩ := heq
      refine ⟨hu, ?_⟩
      rw [← xgPack_word (h.topology.outWord u e hp), hv, hl,
        xgPack_word (h.topology.outWord u' e' hq)]
    · intro t
      obtain ⟨u, v, l⟩ := t
      constructor
      · intro hout
        obtain ⟨e, he, hv, hl⟩ := hout
        exact ⟨(u, e), he, by rw [hv, hl]⟩
      · intro himage
        obtain ⟨⟨u', e⟩, he, heq⟩ := himage
        simp only [Prod.mk.injEq] at heq
        obtain ⟨rfl, hv, hl⟩ := heq
        exact ⟨e, he, hv, hl⟩
  vertices := h.table.live
  below := h.table.below
  names := h.names.inverse
  named := h.names.live
  labels := h.labels.inverse

/-- The call hands out an ID that no vertex had before. -/
def HandsOutNew (g₀ : Graph) (before : List Op) (op : Op) : Prop :=
  ∀ name id, op = .addVertex name → outcome op.call (run Op.call g₀ before) = .ok (.id id) →
    (run Op.call g₀ (before ++ [op])).hasVertex id = true ∧
      ∀ earlier later, before = earlier ++ later → (run Op.call g₀ earlier).hasVertex id = false

theorem handsOutNew (h : WF g) (before : List Op) (op : Op) : HandsOutNew g before op := by
  intro name id hop hout
  subst hop
  obtain ⟨hwf, -⟩ := run_kept h before
  have hspec := xgAddVertex_spec hwf name
  have hcall : wp (Op.addVertex name).call (run Op.call g before)
      (fun answer g' => ∃ id, answer = .id id ∧ id = (run Op.call g before).nextVertexId ∧
        g'.hasVertex id = true) (fun _ _ => True) := by
    rw [Op.call, wp_map]
    apply wp_mono hspec
    · intro id g' hg'
      obtain ⟨-, hid, -, hadded⟩ := hg'
      exact ⟨id, rfl, hid, (hadded.live id).2 (Or.inl rfl)⟩
    · intro _ _ _
      trivial
  obtain ⟨id', hanswer, hnext, hlive⟩ := (wp_iff.1 hcall).1 _ hout
  obtain rfl : id = id' := Answer.id.inj hanswer
  constructor
  · rw [run_append]
    exact hlive
  · intro earlier later hsplit
    subst hsplit
    -- the next ID only grows, and every live vertex is below it
    obtain ⟨hearlier, -⟩ := run_kept h earlier
    have hle := (run_kept hearlier later).2
    rw [← run_append, ← hnext] at hle
    cases hdead : (run Op.call g earlier).hasVertex id with
    | false => rfl
    | true => exact absurd (hearlier.table.below id hdead) (Nat.not_lt.2 hle)

/-- In every state of a run both directions and the registries are in step, no ID is handed out
twice, and what throws changes nothing: exactly where no call leaks a label. -/
theorem inStep_along_run (acyclic strictLabels : Bool) (ops : List Op) :
    (∀ before after, ops = before ++ after →
      InStep (run Op.call (xgNew acyclic strictLabels) before) ∧
      ∀ op rest, after = op :: rest →
        HandsOutNew (xgNew acyclic strictLabels) before op ∧
        Unchanged (run Op.call (xgNew acyclic strictLabels) before) op) ↔
      Along Op.call (fun g op => ¬ op.Leaks g) (xgNew acyclic strictLabels) ops := by
  have h := xgNew_wf acyclic strictLabels
  generalize xgNew acyclic strictLabels = g₀ at h ⊢
  have hreached (before : List Op) : WF (run Op.call g₀ before) := (run_kept h before).1
  rw [along_iff]
  constructor
  · intro hall before op after hsplit
    have hstep := ((hall before (op :: after) hsplit).2 op after rfl).2
    exact (unchanged_iff (hreached before) op).1 hstep
  · intro hall before after hsplit
    refine ⟨(hreached before).inStep, ?_⟩
    intro op rest hrest
    subst hrest
    exact ⟨handsOutNew h before op,
      (unchanged_iff (hreached before) op).2 (hall before op rest hsplit)⟩

variable {g₁ : Graph} {c lid : Nat} {s : Str}

theorem xgLabelId_known (h : WF g) (hid : g.labelIdsByName (c :: s) = some lid) (declare : Int) :
    returns (xgLabelId (.str (c :: s)) declare) g fun l g' => l = lid ∧ g' = g := by
  simp only [returns, xgLabelId, xgRequireUsable, wp_bind, wp_get, wp_throwIf, h.usable.1,
    wp_normalizeLabel_str, hid, wp_pure]
  simp

theorem xgLabelId_new (h : WF g) (hnone : g.labelIdsByName (c :: s) = none)
    (hlenient : g.strictLabels = false) (hroom : g.labelsById.length ≤ maxLabelId) :
    returns (xgLabelId (.str (c :: s)) 0) g fun l g' =>
      l = g.labelsById.length ∧ g' = (g.internLabel (c :: s)).touchNames := by
  have hdeclare : ¬ ((0 : Int) < 0) := by decide
  simp only [returns, xgLabelId, xgRequireUsable, wp_bind, wp_get, wp_throwIf, h.usable.1,
    wp_normalizeLabel_str, hnone, hdeclare, if_false, hlenient, wp_modify, wp_pure]
  simpa using hroom

theorem xgAddEdge_returns {u v : Nat} (h : WF g) (hu : g.hasVertex u = true)
    (hv : g.hasVertex v = true) (hacyclic : g.acyclic = false)
    (hlabel : returns (xgLabelId (.str s) 0) g fun l g' => l = lid ∧ g' = g₁) (h₁ : WF g₁)
    (hlive : g₁.hasVertex = g.hasVertex) (hlid : lid < g₁.labelsById.length)
    (hfree : ¬ Refused g₁ u v lid) :
    returns (xgAddEdge u v (.str s)) g fun _ g' => EdgeAdded u v lid g₁ g' := by
  rw [xgAddEdge, returns, wp_bind, wp_requireMutable h, wp_bind, wp_normalizeLabel_str, wp_bind,
    wp_requireVertex]
  refine ⟨fun hdead => absurd hdead (by simp [hu]), fun _ => ?_⟩
  rw [wp_bind, wp_requireVertex]
  refine ⟨fun hdead => absurd hdead (by simp [hv]), fun _ => ?_⟩
  rw [wp_bind, wp_get, wp_bind, wp_throwIf]
  refine ⟨fun hcycle => absurd hcycle.1 (by simp [hacyclic]), fun _ => ?_⟩
  rw [wp_bind]
  apply wp_of_returns hlabel
  intro l g' hl
  obtain ⟨rfl, rfl⟩ := hl
  apply wp_mono (installEdge_spec h₁ (by rw [hlive]; exact hu) (by rw [hlive]; exact hv) hlid)
  · intro _ g' hadded
    exact hadded.1
  · intro _ g' hrefused
    exact hfree hrefused.2

/-- The vertices 1 to `n`, and nothing else. -/
structure Populated (n : Nat) (g : Graph) : Prop where
  wf : WF g
  next : g.nextVertexId = n + 1
  live : ∀ id, g.hasVertex id = true ↔ id ≠ 0 ∧ id ≤ n
  flags : g.acyclic = false ∧ g.strictLabels = false
  labels : g.labelsById = [none, none, some []]
  outs : ∀ u, outs g u = []
  ins : ∀ v, ins g v = []

theorem Populated.step {n : Nat} (hn : n < maxVertexId) (h : Populated n g) :
    Populated (n + 1) (stateAfter (Op.addVertex .undef).call g) := by
  have hcall : returns (Op.addVertex .undef).call g fun _ g' => Populated (n + 1) g' := by
    rw [Op.call, returns, wp_map]
    apply wp_mono (xgAddVertex_spec h.wf .undef)
    · intro id g' hg'
      obtain ⟨⟨hwf, -⟩, hid, hnext, hadded⟩ := hg'
      rw [h.next] at hid
      refine ⟨hwf, by omega, ?_, ?_, ?_, ?_, ?_⟩
      · intro j
        rw [hadded.live, h.live]
        omega
      · rw [hadded.flags.1, hadded.flags.2]
        exact h.flags
      · rw [hadded.labelsById]
        exact h.labels
      · intro u
        rw [hadded.outs]
        exact h.outs u
      · intro v
        rw [hadded.ins]
        exact h.ins v
    · intro e g' hg'
      have hfull := hg'.2 rfl
      rw [h.next] at hfull
      omega
  exact wp_stateAfter (wp_of_returns hcall fun _ _ hg' => hg')

/-- The `k`-th entry of the full list: 129 labels for each target. -/
def nthEntry (k : Nat) : Nat := xgPack (k / 129 + 1) (k % 129 + 3)

theorem nthEntry_fits {k : Nat} (hk : k < 2 ^ 31) : Fits (k / 129 + 1) (k % 129 + 3) := by
  constructor
  · simp only [maxVertexId]
    omega
  · simp only [maxLabelId]
    omega

theorem nthEntry_eq {k : Nat} (hk : k < 2 ^ 31) :
    nthEntry k = (k / 129 + 1) * 256 + (k % 129 + 3) := xgPack_eq (nthEntry_fits hk)

/-- The first `k` edges from vertex 1, over all vertices as targets. -/
structure Filled (k : Nat) (g : Graph) : Prop where
  wf : WF g
  live : ∀ id, id ≠ 0 → id ≤ maxVertexId → g.hasVertex id = true
  flags : g.acyclic = false ∧ g.strictLabels = false
  labels : g.labelsById =
    [none, none, some []] ++ (List.range (min k 129)).map fun i => some [i]
  outs : ∀ e, e ∈ outs g 1 ↔ ∃ j < k, e = nthEntry j
  ins : ∀ v, ∀ e ∈ ins g v, e < 512

theorem Populated.filled (h : Populated maxVertexId g) : Filled 0 g where
  wf := h.wf
  live := fun id hpos hle => (h.live id).2 ⟨hpos, hle⟩
  flags := h.flags
  labels := h.labels
  outs := by
    intro e
    rw [h.outs]
    simp
  ins := by
    intro v e he
    rw [h.ins] at he
    cases he

namespace Filled

variable {k : Nat}

theorem length_labels (h : Filled k g) : g.labelsById.length = min k 129 + 3 := by
  rw [h.labels]
  simp

theorem labels_get (h : Filled k g) (i j : Nat) :
    g.labelsById[j]? = some (some [i]) ↔ j = i + 3 ∧ i < min k 129 := by
  rw [h.labels]
  match j with
  | 0 => simp
  | 1 => simp
  | 2 => simp
  | j + 3 =>
    change ((List.range (min k 129)).map fun i => some [i])[j]? = _ ↔ _
    rw [List.getElem?_map, Option.map_eq_some_iff]
    constructor
    · intro hget
      obtain ⟨j', hj', heq⟩ := hget
      obtain ⟨hlt, rfl⟩ := List.getElem?_eq_some_iff.1 hj'
      rw [List.getElem_range] at heq
      rw [List.length_range] at hlt
      obtain rfl : j = i := by simpa using heq
      exact ⟨rfl, hlt⟩
    · intro hj
      obtain ⟨hj, hlt⟩ := hj
      obtain rfl : j = i := by omega
      exact ⟨j, List.getElem?_range hlt, rfl⟩

theorem labelId (h : Filled k g) {i : Nat} (hi : i < min k 129) :
    g.labelIdsByName [i] = some (i + 3) :=
  (h.wf.labels.inverse [i] (i + 3)).2 ((h.labels_get i (i + 3)).2 ⟨rfl, hi⟩)

theorem labelId_none (h : Filled k g) {i : Nat} (hi : min k 129 ≤ i) :
    g.labelIdsByName [i] = none := by
  cases hid : g.labelIdsByName [i] with
  | none => rfl
  | some j =>
    have hget := (h.labels_get i j).1 ((h.wf.labels.inverse [i] j).1 hid)
    omega

theorem length_outs (h : Filled k g) (hk : k ≤ 2 ^ 31) : (XGraph.outs g 1).length = k := by
  have hsorted := (h.wf.topology.outOk 1).sorted
  have hcount : Counted (fun e => e ∈ XGraph.outs g 1) (XGraph.outs g 1).length :=
    ⟨_, hsorted.imp Nat.ne_of_lt, fun _ => Iff.rfl, rfl⟩
  have hrange : Counted (fun j => j < k) k :=
    ⟨List.range k, List.nodup_range, fun _ => List.mem_range, List.length_range⟩
  apply hcount.unique
  apply hrange.map nthEntry
  · intro i j hi hj heq
    rw [nthEntry_eq (by omega), nthEntry_eq (by omega)] at heq
    omega
  · intro e
    rw [h.outs]
    simp only [eq_comm]

theorem length_ins (h : Filled k g) (v : Nat) : (XGraph.ins g v).length ≤ 512 := by
  have hsorted := (h.wf.topology.inOk v).sorted
  have hrange : Counted (fun e => e < 512) 512 :=
    ⟨List.range 512, List.nodup_range, fun _ => List.mem_range, List.length_range⟩
  exact hrange.length_le (hsorted.imp Nat.ne_of_lt) (h.ins v)

theorem not_refused (h : Filled k g) (hk : k < 2 ^ 31) :
    ¬ Refused g 1 (k / 129 + 1) (k % 129 + 3) := by
  intro hrefused
  rcases hrefused with hdup | hfull | hfull
  · obtain ⟨j, hj, heq⟩ := (h.outs _).1 hdup
    change nthEntry k = nthEntry j at heq
    rw [nthEntry_eq hk, nthEntry_eq (by omega)] at heq
    omega
  · rw [h.length_outs (by omega)] at hfull
    omega
  · have hle := h.length_ins (k / 129 + 1)
    omega

theorem add {g' : Graph} (h : Filled k g) (hk : k < 2 ^ 31)
    (hlabels : g₁.labelsById =
      [none, none, some []] ++ (List.range (min (k + 1) 129)).map fun i => some [i])
    (hlive : g₁.hasVertex = g.hasVertex) (houts : XGraph.outs g₁ = XGraph.outs g)
    (hins : XGraph.ins g₁ = XGraph.ins g)
    (hflags : g₁.acyclic = g.acyclic ∧ g₁.strictLabels = g.strictLabels) (h₁ : WF g₁)
    (hadded : EdgeAdded 1 (k / 129 + 1) (k % 129 + 3) g₁ g') : Filled (k + 1) g' where
  wf := by
    have hfits := nthEntry_fits hk
    have hfree : ¬ Refused g₁ 1 (k / 129 + 1) (k % 129 + 3) := by
      rw [Refused, houts, hins]
      exact h.not_refused hk
    have hu : g₁.hasVertex 1 = true := by
      rw [hlive]
      exact h.live 1 (by omega) (by decide)
    have hv : g₁.hasVertex (k / 129 + 1) = true := by
      rw [hlive]
      exact h.live _ (by omega) hfits.1
    have hlen : k % 129 + 3 < g₁.labelsById.length := by
      rw [hlabels]
      simp only [List.length_append, List.length_map, List.length_range, List.length_cons,
        List.length_nil]
      omega
    exact hadded.wf h₁ hu hv hlen (fun hdup => hfree (Or.inl hdup))
  live := by
    intro id hpos hle
    rw [hadded.frame.live, hlive]
    exact h.live id hpos hle
  flags := by
    rw [hadded.frame.flags.1, hadded.frame.flags.2.1, hflags.1, hflags.2]
    exact h.flags
  labels := by
    rw [hadded.frame.labelsById]
    exact hlabels
  outs := by
    intro e
    rw [hadded.outs, houts, h.outs]
    constructor
    · intro he
      rcases he with ⟨-, rfl⟩ | ⟨j, hj, rfl⟩
      · exact ⟨k, Nat.lt_succ_self k, rfl⟩
      · exact ⟨j, by omega, rfl⟩
    · intro he
      obtain ⟨j, hj, rfl⟩ := he
      by_cases hjk : j = k
      · rw [hjk]
        exact Or.inl ⟨rfl, rfl⟩
      · exact Or.inr ⟨j, by omega, rfl⟩
  ins := by
    intro v e he
    rw [hadded.ins, hins] at he
    rcases he with ⟨-, rfl⟩ | he
    · rw [xgPack_eq ⟨by decide, (nthEntry_fits hk).2⟩]
      omega
    · exact h.ins v e he


end Filled

/-- The `k`-th edge that fills the list of vertex 1. -/
def fillingEdge (k : Nat) : Op := .addEdge 1 (k / 129 + 1) (.str [k % 129])

theorem Filled.step {k : Nat} (h : Filled k g) (hk : k < 2 ^ 31) :
    Filled (k + 1) (stateAfter (fillingEdge k).call g) := by
  have hu := h.live 1 (by omega) (by decide)
  have hv := h.live (k / 129 + 1) (by omega) (nthEntry_fits hk).1
  have hcall : returns (fillingEdge k).call g fun _ g' => Filled (k + 1) g' := by
    rw [fillingEdge, Op.call, returns, wp_map]
    by_cases hfirst : k < 129
    · have hmod : k % 129 = k := Nat.mod_eq_of_lt hfirst
      have hnone : g.labelIdsByName [k % 129] = none := h.labelId_none (by omega)
      have hlen := h.length_labels
      have hroom : g.labelsById.length ≤ maxLabelId := by
        simp only [maxLabelId]
        omega
      have h₁ := internLabel_wf h.wf hnone hroom
      have hlid : g.labelsById.length = k % 129 + 3 := by omega
      have hlabel := xgLabelId_new h.wf hnone h.flags.2 hroom
      rw [hlid] at hlabel
      have hlabels : (g.internLabel [k % 129]).touchNames.labelsById = [none, none, some []] ++
          (List.range (min (k + 1) 129)).map fun i => some [i] := by
        have hmin : min (k + 1) 129 = min k 129 + 1 := by omega
        have hk' : min k 129 = k % 129 := by omega
        rw [hmin, List.range_succ, List.map_append, ← List.append_assoc, ← h.labels, hk']
        rfl
      apply wp_of_returns (xgAddEdge_returns h.wf hu hv h.flags.1 hlabel h₁ rfl
        (by rw [hlabels]; simp; omega) (h.not_refused hk))
      intro _ g' hadded
      exact h.add hk hlabels rfl rfl rfl ⟨rfl, rfl⟩ h₁ hadded
    · have hknown := h.labelId (i := k % 129) (by omega)
      have hmin : min (k + 1) 129 = min k 129 := by omega
      apply wp_of_returns (xgAddEdge_returns h.wf hu hv h.flags.1
        (xgLabelId_known h.wf hknown 0) h.wf rfl (by rw [h.length_labels]; omega)
        (h.not_refused hk))
      intro _ g' hadded
      exact h.add hk (by rw [hmin]; exact h.labels) rfl rfl rfl ⟨rfl, rfl⟩ h.wf hadded
  exact wp_stateAfter (wp_of_returns hcall fun _ _ hg' => hg')

/-- All vertices there can be, and `k` edges from the first of them. -/
def fillingRun (k : Nat) : List Op :=
  (List.range maxVertexId).map (fun _ => .addVertex .undef) ++ (List.range k).map fillingEdge

theorem filled_run {k : Nat} (hk : k ≤ 2 ^ 31) :
    Filled k (run Op.call (xgNew false false) (fillingRun k)) := by
  have hempty : Populated 0 (xgNew false false) := by
    refine ⟨xgNew_wf false false, rfl, ?_, ⟨rfl, rfl⟩, rfl, fun _ => rfl, fun _ => rfl⟩
    intro id
    simp [Graph.hasVertex, xgNew]
  rw [fillingRun, run_append]
  apply run_map_range (fun k g => Filled k g)
  · apply Populated.filled
    apply run_map_range (fun n g => Populated n g) hempty
    intro n hn g hg
    exact hg.step hn
  · intro i hi g hg
    exact hg.step (by omega)

/-- On a full list the next edge throws, and its label stays in the registry. -/
theorem label_leaks_from_full_list :
    ∃ e, outcome (Op.addEdge 1 1 (.str [129])).call
        (run Op.call (xgNew false false) (fillingRun (2 ^ 31))) = .error e ∧
      (stateAfter (Op.addEdge 1 1 (.str [129])).call
        (run Op.call (xgNew false false) (fillingRun (2 ^ 31)))).view ≠
        (run Op.call (xgNew false false) (fillingRun (2 ^ 31))).view := by
  have h := filled_run (Nat.le_refl (2 ^ 31))
  generalize run Op.call (xgNew false false) (fillingRun (2 ^ 31)) = g at h ⊢
  have hlen := h.length_labels
  have hleak : (Op.addEdge 1 1 (.str [129])).Leaks g := by
    refine ⟨h.live 1 (by omega) (by decide), h.live 1 (by omega) (by decide), ?_, h.flags.2, ?_,
      ⟨[129], rfl, List.cons_ne_nil _ _, h.labelId_none (by omega)⟩, Or.inl ?_⟩
    · rw [h.flags.1]
      simp
    · simp only [maxLabelId]
      omega
    · rw [h.length_outs (Nat.le_refl _)]
  have hchanged : ¬ Unchanged g (Op.addEdge 1 1 (.str [129])) :=
    fun hsame => (unchanged_iff h.wf _).1 hsame hleak
  simpa [Unchanged] using hchanged

end XPerl.XGraph
