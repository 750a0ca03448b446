import XPerl.XGraph.Paths

/-! `xg_delete_paths`: it ends, and nothing but edges of the paths it finds goes. -/

namespace XPerl.XGraph

open XPerl.Framework Exec BreadthFirst Relation

def xgLabelValue (id : Nat) : XgM Value := do
  xgRequireUsable
  let graph ← get
  throwIf (id > maxLabelId ∨ id ≥ graph.labelsById.length) (.invalidLabel "")
  return Value.ofNormalized (graph.labelsById[id]?.join)

def findBetween (target : Nat) : List Nat → Option Nat
  | [] => none
  | entry :: entries =>
    if xgEntryVertex entry = target then some entry
    else if xgEntryVertex entry > target then none
    else findBetween target entries

/-- `while (out)`, for at most so many rounds; `none` is a loop that did not end. -/
def deleteAllBetween (source target : Nat) : Nat → Nat → XgM (Option Nat)
  | 0, _ => return none
  | rounds + 1, removed => do
    let graph ← get
    match findBetween target (graph.out source).entries with
    | none => return some removed
    | some entry =>
      let label ← xgLabelValue (xgEntryLabel entry)
      let _ ← xgDeleteEdge source target label
      deleteAllBetween source target rounds (removed + 1)

def xgDeleteAllBetween (source target : Nat) : XgM (Option Nat) := do
  let graph ← get
  deleteAllBetween source target (graph.liveEdges + 1) 0

def deleteAlong : List Nat → Nat → XgM (Option Nat)
  | left :: right :: path, removed => do
    let count ← xgDeleteAllBetween left right
    match count with
    | none => return none
    | some count => deleteAlong (right :: path) (removed + count)
  | _, removed => return some removed

def deletePathsLoop (source target : Nat) : Nat → Nat → XgM (Option Nat)
  | 0, _ => return none
  | rounds + 1, removed => do
    let path ← xgPath source target false
    match path with
    | none => return some removed
    | some path =>
      let total ← deleteAlong path removed
      match total with
      | none => return none
      | some total => deletePathsLoop source target rounds total

def xgDeletePaths (source target : Nat) : XgM (Option Nat) := do
  xgRequireMutable
  xgRequireVertex source
  xgRequireVertex target
  let graph ← get
  deletePathsLoop source target (graph.liveEdges + 1) 0

variable {g g' : Graph}

def Graph.labelValue (g : Graph) (l : Nat) : Value := Value.ofNormalized g.labelsById[l]?.join

variable {u v l n source target : Nat} {P Q : Nat → Nat → Prop}

theorem xgLabelValue_run (h : Intact g) (hedge : g.Outgoing u v l) :
    (xgLabelValue l).run g = .ok (g.labelValue l) g := by
  obtain ⟨e, he, -, rfl⟩ := hedge
  have hlt := h.topology.labels u e he
  have hlimit := h.labels.limit
  apply run_of_returns
  rw [xgLabelValue, returns, wp_bind, h.requireUsable, wp_bind, wp_get, wp_bind, wp_throwIf, wp_pure]
  exact ⟨fun hbad => by omega, fun _ => ⟨rfl, rfl⟩⟩

theorem xgLabelId_value (hpresent : g.unavailableThreadClone = false) (hlabels : Labels g)
    (hnamed : LabelNamed g l) (declare : Int) :
    (xgLabelId (g.labelValue l) declare).run g = .ok l g := by
  obtain ⟨rest, hrest⟩ := hlabels.reserved
  apply run_of_returns
  simp only [xgLabelId, xgRequireUsable, returns, wp_bind, wp_get, wp_throwIf, hpresent]
  refine ⟨fun hbad => absurd hbad (by decide), fun _ => ?_⟩
  rcases hnamed with rfl | ⟨s, hs⟩
  · rw [Graph.labelValue, hrest]
    exact ⟨rfl, rfl⟩
  · have hid := (hlabels.inverse s l).2 hs
    rw [Graph.labelValue, hs]
    cases s with
    | nil =>
      have htwo : g.labelIdsByName [] = some 2 := (hlabels.inverse [] 2).2 (by rw [hrest]; rfl)
      rw [hid] at htwo
      obtain rfl := Option.some.inj htwo
      exact ⟨rfl, rfl⟩
    | cons c s =>
      simp only [Option.join_some, Value.ofNormalized]
      rw [wp_normalizeLabel_str]
      simp only [wp_bind, wp_get, hid]
      exact ⟨rfl, rfl⟩

theorem xgLabelValue_spec (h : WF g) (hknown : KnownLabels g)
    (hedge : g.Outgoing u v l) :
    ∃ value, (xgLabelValue l).run g = .ok value g ∧ (xgLabelId value (-1)).run g = .ok l g := by
  refine ⟨g.labelValue l, xgLabelValue_run (h.intact hknown) hedge, ?_⟩
  obtain ⟨e, he, -, rfl⟩ := hedge
  exact xgLabelId_value h.usable.1 h.labels (hknown u e he) (-1)

/-- Edges that go between two vertices `P` holds of: `n` of them, and none comes. -/
structure Removed (P : Nat → Nat → Prop) (n : Nat) (g g' : Graph) : Prop where
  wf : WF g'
  known : KnownLabels g'
  frame : SameFrame g g'
  fewer : ∀ x y l, g'.Outgoing x y l → g.Outgoing x y l
  only : ∀ x y l, g.Outgoing x y l → ¬ g'.Outgoing x y l → P x y
  count : g'.liveEdges + n = g.liveEdges

theorem Removed.none (P : Nat → Nat → Prop) (h : WF g) (hknown : KnownLabels g) :
    Removed P 0 g g :=
  ⟨h, hknown, SameFrame.refl g, fun _ _ _ hout => hout, fun _ _ _ hout hno => absurd hout hno, rfl⟩

theorem Removed.trans {m : Nat} {g'' : Graph} (h : Removed P n g g')
    (h' : Removed Q m g' g'') : Removed (fun x y => P x y ∨ Q x y) (n + m) g g'' where
  wf := h'.wf
  known := h'.known
  frame := h.frame.trans h'.frame
  fewer := fun x y l hout => h.fewer x y l (h'.fewer x y l hout)
  only := by
    intro x y l hout hno
    by_cases hmid : g'.Outgoing x y l
    · exact Or.inr (h'.only x y l hmid hno)
    · exact Or.inl (h.only x y l hout hmid)
  count := by
    have hcount := h.count
    have hcount' := h'.count
    omega

theorem Removed.mono (h : Removed P n g g')
    (hPQ : ∀ x y, P x y → Q x y) : Removed Q n g g' :=
  ⟨h.wf, h.known, h.frame, h.fewer, fun x y l hout hno => hPQ x y (h.only x y l hout hno), h.count⟩

theorem deleteEdge_present (h : WF g) (hknown : KnownLabels g)
    (hedge : g.Outgoing u v l) :
    ∃ value g', (xgLabelValue l).run g = .ok value g ∧
      (xgDeleteEdge u v value).run g = .ok true g' ∧
      Removed (fun x y => x = u ∧ y = v) 1 g g' ∧ ¬ g'.Outgoing u v l := by
  obtain ⟨value, hvalue, hlid⟩ := xgLabelValue_spec h hknown hedge
  obtain ⟨hu, hv⟩ := h.inStep.ends u v l hedge
  obtain ⟨hfv, hold⟩ := (outgoing_iff h).1 hedge
  have hfu := h.table.fits hu hfv.2
  have holdIn := (h.topology.mirror u v l hfu hfv).1 hold
  have hne : l ≠ 0 := by
    intro hzero
    obtain ⟨rest, hrest⟩ := h.labels.reserved
    have hnamed := hknown u _ hold
    rw [xgEntryLabel_pack hfv, hzero, LabelNamed, hrest] at hnamed
    simp at hnamed
  obtain ⟨lo, li, hlo, hli, hgone, -, -, -⟩ := removedBoth_spec h hfu hfv hold
  refine ⟨value, Graph.touchTopology { (g.setOut u lo).setIn v li with liveEdges :=
    g.liveEdges - 1 }, hvalue, ?_, ?_, ?_⟩
  · apply run_of_returns
    rw [xgDeleteEdge, returns, wp_bind, wp_requireMutable h, wp_bind, wp_requireVertex]
    refine ⟨fun hdead => absurd (hu.symm.trans hdead) Bool.noConfusion, fun _ => ?_⟩
    rw [wp_bind, wp_requireVertex]
    refine ⟨fun hdead => absurd (hv.symm.trans hdead) Bool.noConfusion, fun _ => ?_⟩
    rw [wp_bind, wp_of_run hlid, if_neg hne, wp_bind, wp_get, outList_of_mem hold,
      inList_of_mem holdIn]
    simp only [hlo, hli, wp_bind, wp_modify, wp_pure]
    exact ⟨trivial, rfl⟩
  · have hwf := hgone.wf h hfu hfv hold
    generalize ({ (g.setOut u lo).setIn v li with liveEdges := g.liveEdges - 1 } : Graph) = g₁
      at hgone hwf ⊢
    have hfewer (x y k : Nat) (hout : g₁.Outgoing x y k) : g.Outgoing x y k := by
      obtain ⟨e, he, hends⟩ := hout
      exact ⟨e, ((hgone.outs x e).1 he).1, hends⟩
    have hthin : Thinned g g₁.touchTopology :=
      ⟨hgone.frame.flags.1, sameLabels hgone.frame.labelsById,
        fun x e he => ((hgone.outs x e).1 he).1⟩
    refine ⟨hwf.touched, hknown.thinned hthin, hgone.frame.touched, hfewer, ?_, ?_⟩
    · intro x y k hout hno
      obtain ⟨hfits, hmem⟩ := (outgoing_iff h).1 hout
      apply Decidable.byContradiction
      intro hother
      refine hno ⟨xgPack y k, (hgone.outs x _).2 ⟨hmem, fun hsame => hother ⟨hsame.1, ?_⟩⟩,
        xgEntryVertex_pack hfits, xgEntryLabel_pack hfits⟩
      exact (xgPack_inj hfits hfv hsame.2).1
    · have hpos := (h.topology.edges.erase (x := (u, xgPack v l)) (Q := fun p =>
        p.2 ∈ outs g p.1 ∧ p ≠ (u, xgPack v l)) hold fun _ => Iff.rfl).2
      have hcount := hgone.edges
      change g₁.liveEdges + 1 = g.liveEdges
      omega
  · intro hout
    obtain ⟨-, hmem⟩ := (outgoing_iff (hgone.wf h hfu hfv hold).touched).1 hout
    exact ((hgone.outs u _).1 hmem).2 ⟨rfl, rfl⟩

theorem findBetween_spec (target : Nat) (entries : List Nat)
    (hsorted : entries.Pairwise (· < ·)) :
    (∀ e, findBetween target entries = some e → e ∈ entries ∧ xgEntryVertex e = target) ∧
      (findBetween target entries = none → ∀ e ∈ entries, xgEntryVertex e ≠ target) := by
  induction entries with
  | nil => exact ⟨fun e he => (by cases he), fun _ e he => by cases he⟩
  | cons entry entries ih =>
    obtain ⟨hfirst, hrest⟩ := List.pairwise_cons.1 hsorted
    obtain ⟨hsome, hnone⟩ := ih hrest
    rw [findBetween]
    by_cases hfound : xgEntryVertex entry = target
    · rw [if_pos hfound]
      refine ⟨fun e he => ?_, fun hfalse => by cases hfalse⟩
      obtain rfl := Option.some.inj he
      exact ⟨List.mem_cons_self, hfound⟩
    · rw [if_neg hfound]
      by_cases hbeyond : xgEntryVertex entry > target
      · rw [if_pos hbeyond]
        refine ⟨fun e he => (by cases he), fun _ e he => ?_⟩
        rcases List.mem_cons.1 he with rfl | he
        · exact hfound
        · have hlt := hfirst e he
          rw [xgEntryVertex_eq] at hbeyond ⊢
          omega
      · rw [if_neg hbeyond]
        refine ⟨fun e he => ?_, fun hend e he => ?_⟩
        · obtain ⟨hmem, hvertex⟩ := hsome e he
          exact ⟨List.mem_cons_of_mem entry hmem, hvertex⟩
        · rcases List.mem_cons.1 he with rfl | he
          · exact hfound
          · exact hnone hend e he

theorem deleteAllBetween_spec (u v : Nat) (rounds removed : Nat) (h : WF g)
    (hknown : KnownLabels g) (hrounds : g.liveEdges < rounds) :
    returns (deleteAllBetween u v rounds removed) g fun result g' =>
      ∃ n, result = some (removed + n) ∧ Removed (fun x y => x = u ∧ y = v) n g g' ∧
        ¬ g'.Adjacent u v := by
  induction rounds generalizing g removed with
  | zero => exact absurd hrounds (Nat.not_lt_zero _)
  | succ rounds ih =>
    rw [deleteAllBetween, returns, wp_bind, wp_get]
    obtain ⟨hsome, hnone⟩ := findBetween_spec v (outs g u) (h.topology.outOk u).sorted
    rw [outs] at hsome hnone
    cases hfind : findBetween v (g.out u).entries with
    | none =>
      refine ⟨0, rfl, Removed.none _ h hknown, fun hedge => ?_⟩
      obtain ⟨l, e, he, hv, -⟩ := hedge
      exact hnone hfind e he hv
    | some e =>
      obtain ⟨he, hv⟩ := hsome e hfind
      have hedge : g.Outgoing u v (xgEntryLabel e) := ⟨e, he, hv, rfl⟩
      obtain ⟨value, g₁, hvalue, hdelete, hremoved, -⟩ := deleteEdge_present h hknown hedge
      simp only [wp_bind, wp_of_run hvalue, wp_of_run hdelete]
      have hfew : g₁.liveEdges < rounds := by
        have hcount := hremoved.count
        omega
      apply wp_of_returns (ih (removed + 1) hremoved.wf hremoved.known hfew)
      intro result g' hresult
      obtain ⟨n, hresult, hrest, hgone⟩ := hresult
      refine ⟨1 + n, by rw [hresult, Nat.add_assoc], ?_, hgone⟩
      exact (hremoved.trans hrest).mono fun x y hxy => hxy.elim id id

/-- Two vertices that follow each other on a path. -/
def Consecutive (path : List Nat) (x y : Nat) : Prop := [x, y] <:+: path

theorem deleteAlong_spec (path : List Nat) (removed : Nat) (h : WF g) (hknown : KnownLabels g) :
    returns (deleteAlong path removed) g fun result g' =>
      ∃ n, result = some (removed + n) ∧ Removed (Consecutive path) n g g' ∧
        ∀ x y, Consecutive path x y → ¬ g'.Adjacent x y := by
  induction path generalizing g removed with
  | nil =>
    refine ⟨0, rfl, Removed.none _ h hknown, fun x y hxy => ?_⟩
    have hlen := hxy.length_le
    simp at hlen
  | cons left path ih =>
    cases path with
    | nil =>
      refine ⟨0, rfl, Removed.none _ h hknown, fun x y hxy => ?_⟩
      have hlen := hxy.length_le
      simp at hlen
    | cons right path =>
      have hsplit (x y : Nat) : Consecutive (left :: right :: path) x y ↔
          (x = left ∧ y = right) ∨ Consecutive (right :: path) x y := by
        rw [Consecutive, List.infix_cons_iff, Consecutive]
        simp
      rw [deleteAlong, xgDeleteAllBetween, returns]
      simp only [wp_bind, wp_get]
      apply wp_of_returns (deleteAllBetween_spec left right _ 0 h hknown (Nat.lt_succ_self _))
      intro result g₁ hresult
      obtain ⟨n, rfl, hfirst, hgone⟩ := hresult
      simp only [Nat.zero_add]
      apply wp_of_returns (ih (removed + n) hfirst.wf hfirst.known)
      intro result g' hresult
      obtain ⟨m, rfl, hrest, hcut⟩ := hresult
      refine ⟨n + m, by rw [Nat.add_assoc], ?_, fun x y hxy => ?_⟩
      · exact (hfirst.trans hrest).mono fun x y hxy => (hsplit x y).2 hxy
      · rcases (hsplit x y).1 hxy with ⟨rfl, rfl⟩ | hxy
        · intro hedge
          obtain ⟨l, hout⟩ := hedge
          exact hgone ⟨l, hrest.fewer x y l hout⟩
        · exact hcut x y hxy

/-- The paths a call finds, each cut before the next search: of all edges exactly those between
neighbours on the path go. -/
inductive Found (source target : Nat) : Graph → List (List Nat) → Graph → Prop
  | done {g : Graph} (hnone : (xgPath source target false).run g = .ok none g) :
      Found source target g [] g
  | cut {g g₁ g' : Graph} {path : List Nat} {paths : List (List Nat)}
      (hpath : (xgPath source target false).run g = .ok (some path) g)
      (hcut : ∀ x y l, g₁.Outgoing x y l ↔ g.Outgoing x y l ∧ ¬ Consecutive path x y)
      (hrest : Found source target g₁ paths g') : Found source target g (path :: paths) g'

theorem Found.none_left {paths : List (List Nat)}
    (h : Found source target g paths g') : (xgPath source target false).run g' = .ok none g' := by
  induction h with
  | done hnone => exact hnone
  | cut _ _ _ ih => exact ih

theorem Removed.pos {path : List Nat} (hwf : WF g)
    (h : Removed (Consecutive path) n g g') (hwalk : Walk g.Adjacent source target path)
    (hcut : ∀ x y, Consecutive path x y → ¬ g'.Adjacent x y) : 0 < n := by
  obtain ⟨-, -, hlong, hsteps⟩ := hwalk
  match path with
  | [] => simp at hlong
  | [_] => simp at hlong
  | x :: y :: path =>
    have hedge := (List.isChain_cons_cons.1 hsteps).1
    have hxy : Consecutive (x :: y :: path) x y := ⟨[], path, rfl⟩
    obtain ⟨l, hout⟩ := hedge
    have hlt : g'.liveEdges < g.liveEdges :=
      hwf.inStep.edges.lt h.wf.inStep.edges (fun e he => h.fewer _ _ _ he) (x := (x, y, l)) hout
        fun hstill => hcut x y hxy ⟨l, hstill⟩
    have hcount := h.count
    omega

theorem deletePathsLoop_spec (source target : Nat) (rounds removed : Nat) (h : WF g)
    (hknown : KnownLabels g) (hsource : g.hasVertex source = true)
    (htarget : g.hasVertex target = true) (hrounds : g.liveEdges < rounds) :
    returns (deletePathsLoop source target rounds removed) g fun result g' =>
      ∃ n paths, result = some (removed + n) ∧ Found source target g paths g' ∧
        Removed (fun x y => ∃ path ∈ paths, Consecutive path x y) n g g' := by
  induction rounds generalizing g removed with
  | zero => exact absurd hrounds (Nat.not_lt_zero _)
  | succ rounds ih =>
    have hintact := h.intact hknown
    have hrun := xgPath_run hintact hsource htarget false
    have hshortest := pathAnswer_shortest hintact hsource htarget false
    rw [deletePathsLoop, returns, wp_bind, wp_of_run hrun]
    cases hanswer : pathAnswer g source target false with
    | none =>
      rw [hanswer] at hrun
      exact ⟨0, [], rfl, Found.done hrun, Removed.none _ h hknown⟩
    | some path =>
      rw [hanswer] at hrun hshortest
      simp only [wp_bind]
      apply wp_of_returns (deleteAlong_spec path removed h hknown)
      intro result g₁ hresult
      obtain ⟨n, rfl, hremoved, hgone⟩ := hresult
      have hpos := hremoved.pos h hshortest.1 hgone
      have hcount := hremoved.count
      have hsource₁ : g₁.hasVertex source = true := by rw [hremoved.frame.live, hsource]
      have htarget₁ : g₁.hasVertex target = true := by rw [hremoved.frame.live, htarget]
      simp only
      apply wp_of_returns (ih (removed + n) hremoved.wf hremoved.known hsource₁ htarget₁ (by omega))
      intro result g' hresult
      obtain ⟨m, paths, rfl, hfound, hrest⟩ := hresult
      refine ⟨n + m, path :: paths, by rw [Nat.add_assoc], Found.cut hrun ?_ hfound, ?_⟩
      · intro x y l
        constructor
        · intro hout
          exact ⟨hremoved.fewer x y l hout, fun hxy => hgone x y hxy ⟨l, hout⟩⟩
        · intro hout
          apply Classical.byContradiction
          intro hno
          exact hout.2 (hremoved.only x y l hout.1 hno)
      · apply (hremoved.trans hrest).mono
        intro x y hxy
        rcases hxy with hxy | ⟨p, hp, hxy⟩
        · exact ⟨path, List.mem_cons_self, hxy⟩
        · exact ⟨p, List.mem_cons_of_mem path hp, hxy⟩

/-- `xg_delete_paths` ends with no path left. It counts the edges it removed, which all lie on the
paths it found, and leaves an intact graph; a frozen graph it refuses. -/
theorem delete_paths_severs (h : Intact g) {source target : Nat}
    (hsource : g.hasVertex source = true) (htarget : g.hasVertex target = true) :
    (g.frozen = true → (xgDeletePaths source target).run g = .error .frozen g) ∧
    (g.frozen = false → ∃ n paths g', (xgDeletePaths source target).run g = .ok (some n) g' ∧
      Found source target g paths g' ∧
      (xgPath source target false).run g' = .ok none g' ∧
      (∀ p, ¬ Walk g'.Adjacent source target p) ∧
      Counted (fun e : Nat × Nat × Nat =>
        g.Outgoing e.1 e.2.1 e.2.2 ∧ ¬ g'.Outgoing e.1 e.2.1 e.2.2) n ∧
      (∀ x y l, g.Outgoing x y l → ¬ g'.Outgoing x y l →
        ∃ path ∈ paths, Consecutive path x y) ∧
      Intact g') := by
  constructor
  · intro hfrozen
    simp [xgDeletePaths, xgRequireMutable, xgRequireUsable, throwIf, h.present, hfrozen]
  · intro hmutable
    have hwf := h.wf hmutable
    have hspec : returns (xgDeletePaths source target) g fun result g' => ∃ n paths,
        result = some n ∧ Found source target g paths g' ∧
          Removed (fun x y => ∃ path ∈ paths, Consecutive path x y) n g g' := by
      rw [xgDeletePaths, returns, wp_bind, wp_requireMutable hwf, wp_bind, wp_requireVertex]
      refine ⟨fun hdead => absurd (hsource.symm.trans hdead) Bool.noConfusion, fun _ => ?_⟩
      rw [wp_bind, wp_requireVertex]
      refine ⟨fun hdead => absurd (htarget.symm.trans hdead) Bool.noConfusion, fun _ => ?_⟩
      rw [wp_bind, wp_get]
      apply wp_of_returns (deletePathsLoop_spec source target _ 0 hwf h.known hsource htarget
        (Nat.lt_succ_self _))
      intro result g' hresult
      obtain ⟨n, paths, rfl, hrest⟩ := hresult
      exact ⟨n, paths, by rw [Nat.zero_add], hrest⟩
    unfold returns wp at hspec
    cases hrun : (xgDeletePaths source target).run g with
    | error e g' =>
      rw [hrun] at hspec
      exact hspec.elim
    | ok result g' =>
      rw [hrun] at hspec
      obtain ⟨n, paths, rfl, hfound, hremoved⟩ := hspec
      have hintact' := hremoved.wf.intact hremoved.known
      have hnone := hfound.none_left
      have hsource' : g'.hasVertex source = true := by rw [hremoved.frame.live, hsource]
      have htarget' : g'.hasVertex target = true := by rw [hremoved.frame.live, htarget]
      refine ⟨n, paths, g', rfl, hfound, hnone, ?_, ?_, hremoved.only, hintact'⟩
      · have hshortest := pathAnswer_shortest hintact' hsource' htarget' false
        rw [xgPath_run hintact' hsource' htarget' false] at hnone
        have hanswer : pathAnswer g' source target false = none := by
          injection hnone
        rw [hanswer] at hshortest
        exact hshortest
      · have hdiff := (h.inStep.edges.diff hintact'.inStep.edges
          fun e hout => hremoved.fewer _ _ _ hout).1
        have hcount := hremoved.count
        rwa [← hcount, Nat.add_sub_cancel_left] at hdiff

theorem delete_paths_severs_twoCycle :
    ∃ n paths g', (xgDeletePaths 1 1).run twoCycle = .ok (some n) g' ∧
      Found 1 1 twoCycle paths g' ∧ (xgPath 1 1 false).run g' = .ok none g' ∧
      (∀ p, ¬ Walk g'.Adjacent 1 1 p) ∧
      Counted (fun e : Nat × Nat × Nat =>
        twoCycle.Outgoing e.1 e.2.1 e.2.2 ∧ ¬ g'.Outgoing e.1 e.2.1 e.2.2) n ∧
      (∀ x y l, twoCycle.Outgoing x y l → ¬ g'.Outgoing x y l →
        ∃ path ∈ paths, Consecutive path x y) ∧
      Intact g' :=
  (delete_paths_severs twoCycle_intact rfl rfl).2 rfl

example : outcome (xgDeletePaths 1 1) twoCycle = .ok (some 2) := rfl

end XPerl.XGraph
