import XPerl.Framework.BreadthFirst
import XPerl.XGraph.Intact

/-! Shortest paths and cycles: the two searches of `xg_path`, and `xg_cycle` over them. -/

namespace XPerl.XGraph

open XPerl.Framework Exec BreadthFirst Relation

/-- `xg_walk_list`; a list that is NULL has no entries. -/
def walkList (graph : Graph) (id : Nat) (incoming : Bool) : List Nat :=
  if incoming then (graph.inn id).entries else (graph.out id).entries

/-- The inner loop of the search for another vertex, up to its `break`. -/
def pathScan (target id : Nat) : List Nat → Frontier Nat → Bool × Frontier Nat
  | [], s => (false, s)
  | entry :: entries, s =>
    let next := xgEntryVertex entry
    if next ∈ s.seen then pathScan target id entries s
    else if next = target then (true, s.mark next id)
    else pathScan target id entries ((s.mark next id).enqueue next)

/-- `while (head < tail && !found)`; the answer are the predecessors. -/
def pathLoop (graph : Graph) (target : Nat) (incoming : Bool) : Nat → Frontier Nat →
    Option (Nat → Nat)
  | 0, _ => none
  | rounds + 1, s =>
    match s.queue with
    | [] => none
    | id :: queue =>
      match pathScan target id (walkList graph id incoming) { s with queue := queue } with
      | (true, s) => some s.previous
      | (false, s) => pathLoop graph target incoming rounds s

/-- `while (current)`, with its `break` at the source. -/
def followBack (previous : Nat → Nat) (source : Nat) : Nat → Nat → List Nat
  | 0, _ => []
  | rounds + 1, current =>
    if current = 0 then []
    else if current = source then [current]
    else current :: followBack previous source rounds (previous current)

def openPath (graph : Graph) (source target : Nat) (incoming : Bool) : Option (List Nat) :=
  (pathLoop graph target incoming (graph.vertexCapacity + 1) ⟨[source], fun _ => 0, [source]⟩).map
    fun previous => (followBack previous source (graph.vertexCapacity + 1) target).reverse

def cycleScan (source id : Nat) : List Nat → Frontier Nat → Bool × Frontier Nat
  | [], s => (false, s)
  | entry :: entries, s =>
    let next := xgEntryVertex entry
    if next = source then (true, s)
    else if next ∈ s.seen then cycleScan source id entries s
    else cycleScan source id entries ((s.mark next id).enqueue next)

/-- `while (cycle_head < cycle_tail)`; the answer has an edge to the source. -/
def cycleLoop (graph : Graph) (source : Nat) (incoming : Bool) : Nat → Frontier Nat →
    Option (Nat × (Nat → Nat))
  | 0, _ => none
  | rounds + 1, s =>
    match s.queue with
    | [] => none
    | id :: queue =>
      match cycleScan source id (walkList graph id incoming) { s with queue := queue } with
      | (true, s) => some (id, s.previous)
      | (false, s) => cycleLoop graph source incoming rounds s

def walkBack (previous : Nat → Nat) (source : Nat) : Nat → Nat → List Nat
  | 0, _ => []
  | rounds + 1, walk =>
    if walk = source then [] else walk :: walkBack previous source rounds (previous walk)

def closedPath (graph : Graph) (source : Nat) (incoming : Bool) : Option (List Nat) :=
  match cycleScan source source (walkList graph source incoming) ⟨[source], fun _ => 0, []⟩ with
  | (true, _) => some [source, source]
  | (false, s) =>
    (cycleLoop graph source incoming graph.vertexCapacity s).map fun found =>
      (source :: walkBack found.2 source graph.vertexCapacity found.1 ++ [source]).reverse

def xgPath (source target : Nat) (incoming : Bool) : XgM (Option (List Nat)) := do
  xgRequireUsable
  xgRequireVertex source
  xgRequireVertex target
  let graph ← get
  if source = target then return closedPath graph source incoming
  else return openPath graph source target incoming

def xgHasPath (source target : Nat) (incoming : Bool) : XgM Bool :=
  Option.isSome <$> xgPath source target incoming

def better (shortest : Bool) (candidate : List Nat) : Option (List Nat) → List Nat
  | none => candidate
  | some best => if shortest = true ∧ candidate.length < best.length then candidate else best

/-- The entries of one vertex; `true` is the early return at a loop. -/
def cycleEntries (shortest : Bool) (source : Nat) : List Nat → Option (List Nat) →
    XgM (Bool × Option (List Nat))
  | [], best => return (false, best)
  | entry :: entries, best => do
    let target := xgEntryVertex entry
    if source = target then
      if shortest = true then return (true, some [source, source])
      else cycleEntries shortest source entries (some [source, source])
    else
      let tail ← xgPath target source false
      match tail with
      | none => cycleEntries shortest source entries best
      | some tail =>
        cycleEntries shortest source entries (some (better shortest (source :: tail) best))

def cycleVertices (shortest : Bool) : List Nat → Option (List Nat) → XgM (Option (List Nat))
  | [], best => return best
  | source :: ids, best => do
    let graph ← get
    if graph.hasVertex source = false then cycleVertices shortest ids best
    else
      let found ← cycleEntries shortest source (graph.out source).entries best
      if found.1 = true then return found.2 else cycleVertices shortest ids found.2

def Graph.allIds (graph : Graph) : List Nat := List.range' 1 (graph.nextVertexId - 1)

def xgCycle (shortest : Bool) : XgM (Option (List Nat)) := do
  xgRequireUsable
  let graph ← get
  cycleVertices shortest graph.allIds none

variable {g : Graph}

/-- An edge in the direction of a search. -/
def Graph.Follows (g : Graph) (incoming : Bool) (u v : Nat) : Prop :=
  if incoming then g.Adjacent v u else g.Adjacent u v

/-- The vertices the entries of a list name. -/
def neighbours (g : Graph) (incoming : Bool) (u : Nat) : List Nat :=
  (walkList g u incoming).map xgEntryVertex

variable {v source target : Nat}

theorem mem_neighbours (h : Intact g) {incoming : Bool} {u : Nat} :
    v ∈ neighbours g incoming u ↔ g.Follows incoming u v := by
  cases incoming with
  | false => exact adjacent_iff.symm
  | true =>
    rw [neighbours, walkList, if_pos rfl, Graph.Follows, if_pos rfl, List.mem_map]
    constructor
    · intro hmem
      obtain ⟨e, he, hv⟩ := hmem
      exact ⟨xgEntryLabel e, (h.inStep.mirror v u _).2 ⟨e, he, hv, rfl⟩⟩
    · intro hedge
      obtain ⟨l, hout⟩ := hedge
      obtain ⟨e, he, hv, -⟩ := (h.inStep.mirror v u l).1 hout
      exact ⟨e, he, hv⟩

theorem follows_eq (h : Intact g) (incoming : Bool) :
    (fun u v => v ∈ neighbours g incoming u) = g.Follows incoming := by
  funext u v
  exact propext (mem_neighbours h)

theorem Intact.follows_live (h : Intact g) {incoming : Bool} {u : Nat}
    (hedge : g.Follows incoming u v) : g.hasVertex u = true ∧ g.hasVertex v = true := by
  cases incoming with
  | false => exact h.adjacent_live hedge
  | true => exact (h.adjacent_live hedge).symm

theorem neighbours_closed (h : Intact g) (incoming : Bool) :
    ∀ u ∈ List.range g.vertexCapacity,
      neighbours g incoming u ⊆ List.range g.vertexCapacity := by
  intro u _ v hv
  exact List.mem_range.2 (hasVertex_lt (h.follows_live ((mem_neighbours h).1 hv)).2)

theorem cycleScan_eq (source id : Nat) (entries : List Nat) (s : Frontier Nat) :
    cycleScan source id entries s =
      scan (fun v => v == source) id (entries.map xgEntryVertex) s := by
  induction entries generalizing s with
  | nil => rfl
  | cons entry entries ih =>
    rw [cycleScan, List.map_cons, scan]
    by_cases hhit : xgEntryVertex entry = source
    · simp [hhit]
    · by_cases hseen : xgEntryVertex entry ∈ s.seen
      · simp [hhit, hseen, ih]
      · simp [hhit, hseen, ih]

theorem cycleLoop_eq (source : Nat) (incoming : Bool) (rounds : Nat) (s : Frontier Nat) :
    cycleLoop g source incoming rounds s =
      (search (neighbours g incoming) (fun v => v == source) rounds s).1.map fun id =>
        (id, (search (neighbours g incoming) (fun v => v == source) rounds s).2.previous) := by
  induction rounds generalizing s with
  | zero => rfl
  | succ rounds ih =>
    rw [cycleLoop, search]
    cases s.queue with
    | nil => rfl
    | cons id queue =>
      simp only [cycleScan_eq]
      rw [← neighbours]
      generalize scan (fun v => v == source) id (neighbours g incoming id) _ = result
      obtain ⟨found, s'⟩ := result
      cases found with
      | true => rfl
      | false => exact ih s'

theorem walkBack_eq (previous : Nat → Nat) (source rounds walk : Nat) :
    walkBack previous source rounds walk = trail previous source rounds walk := by
  induction rounds generalizing walk with
  | zero => rfl
  | succ rounds ih => rw [walkBack, trail, ih]

theorem closedPath_eq (hcap : g.vertexCapacity ≠ 0) (source : Nat) (incoming : Bool) :
    closedPath g source incoming = answer source source g.vertexCapacity
      (search (neighbours g incoming) (fun v => v == source) (g.vertexCapacity + 1)
        ⟨[source], fun _ => 0, [source]⟩) := by
  rw [closedPath, search, cycleScan_eq, ← neighbours]
  simp only [cycleLoop_eq, walkBack_eq]
  generalize scan (fun v => v == source) source (neighbours g incoming source) _ = result
  obtain ⟨found, s⟩ := result
  cases found with
  | true =>
    obtain ⟨n, hn⟩ := Nat.exists_eq_succ_of_ne_zero hcap
    simp [answer, hn, trail]
  | false =>
    simp only
    generalize search (neighbours g incoming) (fun v => v == source) _ s = ended
    obtain ⟨found, s'⟩ := ended
    cases found with
    | none => rfl
    | some id => simp [answer]

theorem pathScan_eq (target id : Nat) (entries : List Nat) (s : Frontier Nat)
    (hnew : target ∉ s.seen) :
    let result := scan (fun v => v == target) id (entries.map xgEntryVertex) s
    target ∉ result.2.seen ∧ pathScan target id entries s =
      (result.1, if result.1 = true then result.2.mark target id else result.2) := by
  induction entries generalizing s with
  | nil => exact ⟨hnew, rfl⟩
  | cons entry entries ih =>
    rw [pathScan, List.map_cons, scan]
    by_cases hhit : xgEntryVertex entry = target
    · simp [hhit, hnew]
    · by_cases hseen : xgEntryVertex entry ∈ s.seen
      · simpa [hhit, hseen] using ih s hnew
      · have hnew' : target ∉ ((s.mark (xgEntryVertex entry) id).enqueue
            (xgEntryVertex entry)).seen := by
          simp only [Frontier.enqueue, Frontier.mark, List.mem_cons, not_or]
          exact ⟨fun heq => hhit heq.symm, hnew⟩
        simpa [hhit, hseen] using ih _ hnew'

theorem pathLoop_eq (target : Nat) (incoming : Bool) (rounds : Nat) (s : Frontier Nat)
    (hnew : target ∉ s.seen) :
    let result := search (neighbours g incoming) (fun v => v == target) rounds s
    target ∉ result.2.seen ∧ pathLoop g target incoming rounds s =
      result.1.map fun id => (result.2.mark target id).previous := by
  induction rounds generalizing s with
  | zero => exact ⟨hnew, rfl⟩
  | succ rounds ih =>
    rw [pathLoop, search]
    cases s.queue with
    | nil => exact ⟨hnew, rfl⟩
    | cons id queue =>
      obtain ⟨hkept, hscan⟩ :=
        pathScan_eq target id (walkList g id incoming) { s with queue := queue } hnew
      rw [← neighbours] at hkept hscan
      simp only [hscan]
      generalize scan (fun v => v == target) id (neighbours g incoming id) _ = result at hkept ⊢
      obtain ⟨found, s'⟩ := result
      cases found with
      | true => exact ⟨hkept, rfl⟩
      | false => exact ih s' hkept

theorem followBack_eq {next : Nat → List Nat} {hit : Nat → Bool}
    {space : List Nat} {depth : Nat → Nat} {s : Frontier Nat}
    (h : Layered next hit source space depth s) (hnew : target ∉ s.seen)
    (hpos : ∀ v ∈ s.seen, v ≠ 0) (id : Nat) (rounds : Nat) (hv : v ∈ s.seen)
    (hrounds : depth v < rounds) :
    followBack (s.mark target id).previous source rounds v =
      trail s.previous source rounds v ++ [source] := by
  induction rounds generalizing v with
  | zero => exact absurd hrounds (Nat.not_lt_zero _)
  | succ rounds ih =>
    rw [followBack, trail, if_neg (hpos v hv)]
    by_cases hstart : v = source
    · rw [if_pos hstart, if_pos hstart, hstart]
      rfl
    · rw [if_neg hstart, if_neg hstart]
      obtain ⟨hprev, -, hdepth⟩ := h.parent v hv hstart
      have hsame : (s.mark target id).previous v = s.previous v :=
        Function.update_of_ne (ne_of_mem_of_not_mem hv hnew) _ _
      rw [hsame, ih hprev (by omega), List.cons_append]

def pathAnswer (g : Graph) (source target : Nat) (incoming : Bool) : Option (List Nat) :=
  if source = target then closedPath g source incoming else openPath g source target incoming

theorem Intact.requireUsable (h : Intact g) {Q : Unit → Graph → Prop} {E : XgError → Graph → Prop} :
    wp xgRequireUsable g Q E ↔ Q () g := by
  simp [xgRequireUsable, h.present]

theorem xgPath_run (h : Intact g) (hsource : g.hasVertex source = true)
    (htarget : g.hasVertex target = true) (incoming : Bool) :
    (xgPath source target incoming).run g = .ok (pathAnswer g source target incoming) g := by
  apply run_of_returns
  rw [xgPath, returns, wp_bind, h.requireUsable, wp_bind, wp_requireVertex]
  refine ⟨fun hdead => absurd (hsource.symm.trans hdead) Bool.noConfusion, fun _ => ?_⟩
  rw [wp_bind, wp_requireVertex]
  refine ⟨fun hdead => absurd (htarget.symm.trans hdead) Bool.noConfusion, fun _ => ?_⟩
  rw [wp_bind, wp_get, wp_ite]
  refine ⟨fun heq => ⟨?_, rfl⟩, fun hne => ⟨?_, rfl⟩⟩
  · rw [pathAnswer, if_pos heq]
  · rw [pathAnswer, if_neg hne]

theorem pathAnswer_shortest (h : Intact g)
    (hsource : g.hasVertex source = true) (htarget : g.hasVertex target = true)
    (incoming : Bool) :
    ShortestWalk (g.Follows incoming) source target (pathAnswer g source target incoming) := by
  have hspace : source ∈ List.range g.vertexCapacity := List.mem_range.2 (hasVertex_lt hsource)
  have hended : Ended (neighbours g incoming) (fun v => v == target) source
      (List.range g.vertexCapacity) (search (neighbours g incoming) (fun v => v == target)
        (g.vertexCapacity + 1) ⟨[source], fun _ => 0, [source]⟩) := by
    apply search_spec (neighbours_closed h incoming) _ (Layered.init _ hspace)
    simp only [List.length_range, List.length_singleton]
    omega
  have hshortest := hended.shortest g.vertexCapacity (by rw [List.length_range])
  rw [follows_eq h] at hshortest
  rw [pathAnswer]
  by_cases heq : source = target
  · subst heq
    rw [if_pos rfl, closedPath_eq (by have hcap := h.table.capacity; omega)]
    exact hshortest
  · rw [if_neg heq]
    have hopen : openPath g source target incoming = answer source target g.vertexCapacity
        (search (neighbours g incoming) (fun v => v == target) (g.vertexCapacity + 1)
          ⟨[source], fun _ => 0, [source]⟩) := by
      obtain ⟨hnew, hloop⟩ := pathLoop_eq (g := g) target incoming (g.vertexCapacity + 1)
        ⟨[source], fun _ => 0, [source]⟩ (by simpa using fun hst => heq hst.symm)
      rw [openPath, hloop]
      generalize search (neighbours g incoming) (fun v => v == target) _ _ = result at hended hnew ⊢
      obtain ⟨found, s⟩ := result
      cases found with
      | none => rfl
      | some id =>
        obtain ⟨depth, hlayered, -⟩ := hended
        have hid : id ∈ s.seen := hlayered.waiting List.mem_cons_self
        have hfew : depth id < g.vertexCapacity := by
          have hdepth := hlayered.depth_lt hid
          rwa [List.length_range] at hdepth
        have hpos : ∀ v ∈ s.seen, v ≠ 0 := by
          intro v hv
          by_cases hstart : v = source
          · rw [hstart]
            exact hasVertex_pos hsource
          · have hlink := (hlayered.parent v hv hstart).2.1
            exact hasVertex_pos (h.follows_live ((mem_neighbours h).1 hlink)).2
        have hback : followBack (s.mark target id).previous source g.vertexCapacity id =
            trail s.previous source g.vertexCapacity id ++ [source] :=
          followBack_eq hlayered hnew hpos id g.vertexCapacity hid hfew
        have hmarked : (s.mark target id).previous target = id := Function.update_self _ _ _
        simp only [Option.map_some, followBack, if_neg (hasVertex_pos htarget),
          if_neg (fun hst => heq hst.symm : ¬ target = source), hmarked, hback]
        simp [answer]
    rw [hopen]
    exact hshortest

section Cycles

/-- A closed walk whose first step leads from `u` to `v`. -/
def ClosedFrom (g : Graph) (u v : Nat) (q : List Nat) : Prop :=
  Walk g.Adjacent u u q ∧ q.tail.head? = some v

/-- A cycle where there is one that starts with an edge looked at; where asked for, no such cycle
is shorter. -/
def Best (g : Graph) (shortest : Bool) (looked : Nat → Nat → Prop) : Option (List Nat) → Prop
  | none => ∀ u v q, looked u v → ¬ ClosedFrom g u v q
  | some p => (∃ x, Walk g.Adjacent x x p) ∧
      (shortest = true → ∀ u v q, looked u v → ClosedFrom g u v q → p.length ≤ q.length)

variable {shortest : Bool} {looked looked' : Nat → Nat → Prop} {best : Option (List Nat)}

theorem Best.mono (h : Best g shortest looked best)
    (hsub : ∀ u v q, looked' u v → ClosedFrom g u v q → looked u v) :
    Best g shortest looked' best := by
  cases best with
  | none => exact fun u v q hlook hq => h u v q (hsub u v q hlook hq) hq
  | some p => exact ⟨h.1, fun hs u v q hlook hq => h.2 hs u v q (hsub u v q hlook hq) hq⟩

variable {u v : Nat}

theorem best_loop (hloop : g.Adjacent u u) :
    Best g shortest (fun _ _ => True) (some [u, u]) :=
  ⟨⟨u, walk_pair hloop⟩, fun _ _ _ _ _ hq => hq.1.long⟩

theorem ClosedFrom.rest {q : List Nat} (h : ClosedFrom g u v q) (hne : u ≠ v) :
    ∃ tail, q = u :: tail ∧ Walk g.Adjacent v u tail := by
  obtain ⟨hwalk, hnext⟩ := h
  rcases hwalk.tail_cases with ⟨rfl, -⟩ | ⟨x, tail, rfl, -, htail⟩
  · exact absurd (Option.some.inj hnext) hne
  · have hx : x = v := by
      have hfirst := htail.first
      rw [List.tail_cons] at hnext
      exact Option.some.inj (hfirst.symm.trans hnext)
    exact ⟨tail, rfl, hx ▸ htail⟩

theorem Best.skip (h : Best g shortest looked best) (hne : u ≠ v)
    (hnone : ∀ p, ¬ Walk g.Adjacent v u p) :
    Best g shortest (fun x y => looked x y ∨ (x = u ∧ y = v)) best := by
  apply h.mono
  intro x y q hlook hq
  rcases hlook with hold | ⟨rfl, rfl⟩
  · exact hold
  · obtain ⟨tail, -, htail⟩ := hq.rest hne
    exact absurd htail (hnone tail)

theorem Best.candidate {tail : List Nat} (h : Best g shortest looked best)
    (hne : u ≠ v) (hedge : g.Adjacent u v) (htail : ShortestWalk g.Adjacent v u (some tail)) :
    Best g shortest (fun x y => looked x y ∨ (x = u ∧ y = v))
      (some (better shortest (u :: tail) best)) := by
  obtain ⟨hwalk, hleast⟩ := htail
  have hclosed : ∃ x, Walk g.Adjacent x x (u :: tail) := ⟨u, hwalk.cons hedge⟩
  have hnew {q : List Nat} (hq : ClosedFrom g u v q) : (u :: tail).length ≤ q.length := by
    obtain ⟨rest, rfl, hrest⟩ := hq.rest hne
    exact Nat.succ_le_succ (hleast rest hrest)
  cases best with
  | none =>
    refine ⟨hclosed, fun _ x y q hlook hq => ?_⟩
    rcases hlook with hold | ⟨rfl, rfl⟩
    · exact absurd hq (h x y q hold)
    · exact hnew hq
  | some p =>
    rw [better]
    by_cases hshorter : shortest = true ∧ (u :: tail).length < p.length
    · rw [if_pos hshorter]
      refine ⟨hclosed, fun hs x y q hlook hq => ?_⟩
      rcases hlook with hold | ⟨rfl, rfl⟩
      · exact (Nat.le_of_lt hshorter.2).trans (h.2 hs x y q hold hq)
      · exact hnew hq
    · rw [if_neg hshorter]
      refine ⟨h.1, fun hs x y q hlook hq => ?_⟩
      rcases hlook with hold | ⟨rfl, rfl⟩
      · exact h.2 hs x y q hold hq
      · exact (Nat.le_of_not_lt fun hlt => hshorter ⟨hs, hlt⟩).trans (hnew hq)

theorem cycleEntries_spec (h : Intact g) (entries : List Nat)
    (hentries : entries ⊆ outs g u) (hbest : Best g shortest looked best) :
    returns (cycleEntries shortest u entries best) g fun found g' => g' = g ∧
      (found.1 = true → Best g shortest (fun _ _ => True) found.2) ∧
      (found.1 = false →
        Best g shortest (fun x y => looked x y ∨ (x = u ∧ y ∈ entries.map xgEntryVertex))
          found.2) := by
  induction entries generalizing looked best with
  | nil =>
    refine ⟨rfl, Bool.noConfusion, fun _ => hbest.mono fun x y _ hlook _ => ?_⟩
    exact hlook.resolve_right fun hmem => List.not_mem_nil hmem.2
  | cons entry entries ih =>
    have hedge : g.Adjacent u (xgEntryVertex entry) :=
      ⟨xgEntryLabel entry, entry, hentries List.mem_cons_self, rfl, rfl⟩
    have hentries' : entries ⊆ outs g u := fun e he => hentries (List.mem_cons_of_mem entry he)
    obtain ⟨hu, hv⟩ := h.adjacent_live hedge
    have hgrow {best' : Option (List Nat)} (hbest' : Best g shortest
        (fun x y => looked x y ∨ (x = u ∧ y = xgEntryVertex entry)) best') :
        returns (cycleEntries shortest u entries best') g fun found g' => g' = g ∧
          (found.1 = true → Best g shortest (fun _ _ => True) found.2) ∧
          (found.1 = false → Best g shortest
            (fun x y => looked x y ∨ (x = u ∧ y ∈ (entry :: entries).map xgEntryVertex))
              found.2) := by
      apply wp_of_returns (ih hentries' hbest')
      intro found g' hfound
      refine ⟨hfound.1, hfound.2.1, fun hf => (hfound.2.2 hf).mono fun x y _ hlook _ => ?_⟩
      rw [List.map_cons, List.mem_cons] at hlook
      rcases hlook with hold | ⟨hx, hy | hy⟩
      · exact Or.inl (Or.inl hold)
      · exact Or.inl (Or.inr ⟨hx, hy⟩)
      · exact Or.inr ⟨hx, hy⟩
    rw [cycleEntries, returns]
    by_cases hloop : u = xgEntryVertex entry
    · rw [if_pos hloop]
      rw [← hloop] at hedge
      by_cases hs : shortest = true
      · rw [if_pos hs]
        exact ⟨rfl, fun _ => best_loop hedge, Bool.noConfusion⟩
      · rw [if_neg hs]
        have hfound : Best g shortest
            (fun x y => looked x y ∨ (x = u ∧ y = xgEntryVertex entry)) (some [u, u]) :=
          ⟨⟨u, walk_pair hedge⟩, fun hs' => absurd hs' hs⟩
        exact hgrow hfound
    · rw [if_neg hloop, wp_bind, wp_of_run (xgPath_run h hv hu false)]
      have hpath := pathAnswer_shortest h hv hu false
      cases hanswer : pathAnswer g (xgEntryVertex entry) u false with
      | none =>
        rw [hanswer] at hpath
        exact hgrow (hbest.skip hloop hpath)
      | some tail =>
        rw [hanswer] at hpath
        exact hgrow (hbest.candidate hloop hedge hpath)

theorem cycleVertices_spec (h : Intact g) (ids : List Nat)
    (hbest : Best g shortest looked best) :
    returns (cycleVertices shortest ids best) g fun found g' => g' = g ∧
      Best g shortest (fun x y => looked x y ∨ x ∈ ids) found := by
  induction ids generalizing looked best with
  | nil =>
    exact ⟨rfl, hbest.mono fun x y _ hlook _ => hlook.resolve_right List.not_mem_nil⟩
  | cons u ids ih =>
    have hrest {best' : Option (List Nat)}
        (hbest' : Best g shortest (fun x y => looked x y ∨ x = u) best') :
        returns (cycleVertices shortest ids best') g fun found g' => g' = g ∧
          Best g shortest (fun x y => looked x y ∨ x ∈ u :: ids) found := by
      apply wp_of_returns (ih hbest')
      intro found g' hfound
      refine ⟨hfound.1, hfound.2.mono fun x y _ hlook _ => ?_⟩
      rw [List.mem_cons, ← or_assoc] at hlook
      exact hlook
    rw [cycleVertices, returns, wp_bind, wp_get, wp_ite]
    refine ⟨fun hdead => ?_, fun _ => ?_⟩
    · apply hrest
      apply hbest.mono
      intro x y q hlook hq
      rcases hlook with hold | rfl
      · exact hold
      · -- no walk starts at a vertex that is not live
        obtain ⟨z, hz⟩ : ∃ z, g.Adjacent x z := by
          rcases hq.1.tail_cases with ⟨-, hstep⟩ | ⟨z, -, -, hstep, -⟩
          · exact ⟨x, hstep⟩
          · exact ⟨z, hstep⟩
        have hlive := (h.adjacent_live hz).1
        rw [hdead] at hlive
        cases hlive
    · rw [wp_bind]
      apply wp_of_returns (cycleEntries_spec h (outs g u) (List.Subset.refl _) hbest)
      intro found g' hfound
      obtain ⟨rfl, hearly, hlate⟩ := hfound
      rw [wp_ite]
      refine ⟨fun hf => ⟨rfl, (hearly hf).mono fun _ _ _ _ _ => trivial⟩, fun hf => ?_⟩
      apply hrest
      apply (hlate (by simpa using hf)).mono
      intro x y q hlook hq
      rcases hlook with hold | rfl
      · exact Or.inl hold
      · refine Or.inr ⟨rfl, adjacent_iff.1 ?_⟩
        rcases hq.1.tail_cases with ⟨rfl, hstep⟩ | ⟨z, tail, rfl, hstep, htail⟩
        · obtain rfl := Option.some.inj hq.2
          exact hstep
        · have hz : z = y := Option.some.inj (htail.first.symm.trans hq.2)
          rw [← hz]
          exact hstep

theorem Intact.mem_allIds (h : Intact g) {id : Nat} (hid : g.hasVertex id = true) :
    id ∈ g.allIds := by
  have hpos := hasVertex_pos hid
  have hbelow := h.table.below id hid
  rw [Graph.allIds, List.mem_range'_1]
  omega

theorem xgCycle_spec (h : Intact g) (shortest : Bool) :
    ∃ answer, (xgCycle shortest).run g = .ok answer g ∧
      Best g shortest (fun _ _ => True) answer := by
  have hnone : Best g shortest (fun _ _ => False) none := fun _ _ _ => False.elim
  apply exists_run
  rw [xgCycle, returns, wp_bind, h.requireUsable, wp_bind, wp_get]
  apply wp_of_returns (cycleVertices_spec h g.allIds hnone)
  intro answer g' hfound
  refine ⟨hfound.1, hfound.2.mono fun x y q _ hq => Or.inr (h.mem_allIds ?_)⟩
  rcases hq.1.tail_cases with ⟨-, hstep⟩ | ⟨z, -, -, hstep, -⟩
  · exact (h.adjacent_live hstep).1
  · exact (h.adjacent_live hstep).1

theorem exists_closedFrom {x : Nat} {q : List Nat} (h : Walk g.Adjacent x x q) :
    ∃ v, ClosedFrom g x v q := by
  rcases h.tail_cases with ⟨rfl, -⟩ | ⟨v, tail, rfl, -, htail⟩
  · exact ⟨x, h, rfl⟩
  · exact ⟨v, h, htail.first⟩

theorem Best.none_iff (h : Best g shortest (fun _ _ => True) best) :
    best = none ↔ Reach.Acyclic g.Adjacent := by
  constructor
  · intro hnone x hcycle
    rw [hnone] at h
    obtain ⟨q, hq⟩ := exists_walk hcycle
    obtain ⟨v, hclosed⟩ := exists_closedFrom hq
    exact h x v q trivial hclosed
  · intro hacyclic
    cases best with
    | none => rfl
    | some p =>
      obtain ⟨x, hwalk⟩ := h.1
      exact absurd hwalk.transGen (hacyclic x)

/-- `xg_path` finds a shortest walk of at least one edge where there is a walk, in either
direction, and `xg_cycle` a closed one where there is a cycle, the shortest of all where that is
asked for. -/
theorem paths_and_cycles (h : Intact g) :
    (∀ source target incoming, g.hasVertex source = true → g.hasVertex target = true →
      ∃ answer, (xgPath source target incoming).run g = .ok answer g ∧
        ShortestWalk (g.Follows incoming) source target answer) ∧
    ∀ shortest, ∃ answer, (xgCycle shortest).run g = .ok answer g ∧
      (answer = none ↔ Reach.Acyclic g.Adjacent) ∧
      ∀ p, answer = some p → (∃ x, Walk g.Adjacent x x p) ∧
        (shortest = true → ∀ x q, Walk g.Adjacent x x q → p.length ≤ q.length) := by
  refine ⟨fun source target incoming hsource htarget => ?_, fun shortest => ?_⟩
  · exact ⟨_, xgPath_run h hsource htarget incoming,
      pathAnswer_shortest h hsource htarget incoming⟩
  · obtain ⟨answer, hrun, hbest⟩ := xgCycle_spec h shortest
    refine ⟨answer, hrun, hbest.none_iff, fun p hp => ?_⟩
    rw [hp] at hbest
    refine ⟨hbest.1, fun hs x q hq => ?_⟩
    obtain ⟨v, hclosed⟩ := exists_closedFrom hq
    exact hbest.2 hs x v q trivial hclosed

theorem paths_and_cycles_twoCycle :
    (∃ answer, (xgPath 1 1 false).run twoCycle = .ok answer twoCycle ∧
      ShortestWalk (twoCycle.Follows false) 1 1 answer) ∧
    ∃ answer, (xgCycle true).run twoCycle = .ok answer twoCycle ∧
      (answer = none ↔ Reach.Acyclic twoCycle.Adjacent) ∧
      ∀ p, answer = some p → (∃ x, Walk twoCycle.Adjacent x x p) ∧
        (true = true → ∀ x q, Walk twoCycle.Adjacent x x q → p.length ≤ q.length) :=
  ⟨(paths_and_cycles twoCycle_intact).1 1 1 false rfl rfl,
    (paths_and_cycles twoCycle_intact).2 true⟩

example : outcome (xgPath 1 1 false) twoCycle = .ok (some [1, 2, 1]) := rfl

end Cycles

end XPerl.XGraph
