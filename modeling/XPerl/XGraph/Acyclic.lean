import XPerl.Framework.Reach
import XPerl.XGraph.Run
import XPerl.XGraph.Thinning

/-! Graphs in acyclic mode: what the search of an insertion answers, and what a run keeps. -/

namespace XPerl.XGraph

open XPerl.Framework Exec Reach Relation

variable {g g' : Graph}

def Graph.Adjacent (g : Graph) (u v : Nat) : Prop := ∃ l, g.Outgoing u v l

variable {u v source target : Nat}

theorem adjacent_iff : g.Adjacent u v ↔ v ∈ (outs g u).map xgEntryVertex := by
  rw [List.mem_map]
  constructor
  · intro hedge
    obtain ⟨l, e, he, hv, -⟩ := hedge
    exact ⟨e, he, hv⟩
  · intro hedge
    obtain ⟨e, he, hv⟩ := hedge
    exact ⟨xgEntryLabel e, e, he, hv, rfl⟩

def successors (g : Graph) (id : Nat) : List Nat :=
  if id ≥ g.vertexCapacity ∨ (g.vertices id).live = false then []
  else (outs g id).map xgEntryVertex

theorem reachLoop_eq (wanted rounds : Nat) (stack seen : List Nat) :
    reachLoop g wanted rounds stack seen = search (successors g) wanted rounds stack seen := by
  induction rounds generalizing stack seen with
  | zero => rfl
  | succ rounds ih =>
    cases stack with
    | nil => rfl
    | cons id stack =>
      rw [reachLoop, search]
      by_cases hfound : id = wanted
      · rw [if_pos hfound, if_pos hfound]
      · rw [if_neg hfound, if_neg hfound]
        by_cases hdead : id ≥ g.vertexCapacity ∨ (g.vertices id).live = false
        · rw [if_pos hdead, ih, successors, if_pos hdead]
          rfl
        · rw [if_neg hdead, successors, if_neg hdead]
          cases hout : (g.vertices id).outList with
          | none =>
            have hnil : outs g id = [] := by simp [outs, Graph.out, hout, xgAdjNew]
            rw [hnil]
            exact ih stack seen
          | some out =>
            have hentries : outs g id = out.entries := by simp [outs, Graph.out, hout]
            rw [hentries, List.foldl_map]
            exact ih _ _

theorem mem_successors (h : WF g) : v ∈ successors g u ↔ g.Adjacent u v := by
  rw [adjacent_iff, successors]
  by_cases hdead : u ≥ g.vertexCapacity ∨ (g.vertices u).live = false
  · rw [if_pos hdead]
    have hno : g.hasVertex u = false := by
      rcases hdead with hfar | hdead
      · simp [Graph.hasVertex, Nat.not_lt.2 hfar]
      · simp [Graph.hasVertex, hdead]
    rw [outs_eq_nil h hno]
    rfl
  · rw [if_neg hdead]

theorem xgReaches_iff (h : WF g) {start wanted : Nat} (hstart : g.hasVertex start = true) :
    xgReaches g start wanted = true ↔ ReflTransGen g.Adjacent start wanted := by
  have hrel : (fun a b => b ∈ successors g a) = g.Adjacent := by
    funext u v
    exact propext (mem_successors h)
  have hclosed : ∀ u ∈ List.range g.vertexCapacity,
      successors g u ⊆ List.range g.vertexCapacity := by
    intro u _ v hv
    obtain ⟨l, hout⟩ := (mem_successors h).1 hv
    exact List.mem_range.2 (hasVertex_lt (h.inStep.ends u v l hout).2)
  rw [xgReaches, reachLoop_eq, ← hrel]
  apply search_iff hclosed (List.mem_range.2 (hasVertex_lt hstart))
  rw [List.length_range]
  exact Nat.lt_succ_self _

/-- The arguments that pass every check of `xg_add_edge` before the search. -/
structure Addable (g : Graph) (source target : Nat) (label : Value) : Prop where
  label : label ≠ .ref ∧ label ≠ .dies
  source : g.hasVertex source = true
  target : g.hasVertex target = true

/-- With the edge some way leads back to its start. -/
def ClosesCycle (g : Graph) (source target : Nat) : Prop :=
  ∃ x, TransGen (Extended g.Adjacent source target) x x

theorem closesCycle_iff (h : WF g) (hno : Acyclic g.Adjacent)
    (htarget : g.hasVertex target = true) :
    (source = target ∨ xgReaches g target source = true) ↔ ClosesCycle g source target := by
  have hclose : ClosesCycle g source target ↔ ReflTransGen g.Adjacent target source := by
    have hext := acyclic_extended_iff (a := source) (b := target) hno
    rw [← not_iff_not, ← hext, ClosesCycle, not_exists]
    rfl
  rw [hclose, xgReaches_iff h htarget]
  constructor
  · intro hcode
    rcases hcode with rfl | hway
    · exact ReflTransGen.refl
    · exact hway
  · exact Or.inr

/-- The mode, and no way back. -/
structure NoCycle (g : Graph) : Prop where
  mode : g.acyclic = true
  acyclic : Acyclic g.Adjacent

theorem NoCycle.thinned (h : NoCycle g) (hthin : Thinned g g') : NoCycle g' := by
  refine ⟨hthin.acyclic.trans h.mode, h.acyclic.mono ?_⟩
  intro u v hedge
  obtain ⟨l, e, he, hends⟩ := hedge
  exact ⟨l, e, hthin.outs u he, hends⟩

theorem NoCycle.edgeAdded (h : NoCycle g) {l : Nat} (hadded : EdgeAdded u v l g g')
    (hfits : Fits v l) (hopen : ¬ ClosesCycle g u v) : NoCycle g' := by
  refine ⟨hadded.frame.flags.1.trans h.mode, ?_⟩
  have hext : Acyclic (Extended g.Adjacent u v) := fun x hcycle => hopen ⟨x, hcycle⟩
  apply hext.mono
  intro x y hedge
  obtain ⟨k, e, he, hy, hk⟩ := hedge
  rcases (hadded.outs x e).1 he with ⟨rfl, rfl⟩ | hold
  · rw [xgEntryVertex_pack hfits] at hy
    exact Or.inr ⟨rfl, hy.symm⟩
  · exact Or.inl ⟨k, e, hold, hy, hk⟩

theorem xgLabelId_rejects (label : Value) (declare : Int) :
    wp (xgLabelId label declare) g (fun _ _ => True) (fun e _ => e ≠ .cycleRejected) := by
  simp only [xgLabelId, xgRequireUsable, wp_bind, wp_get, wp_throwIf]
  refine ⟨fun _ => XgError.noConfusion, fun _ => ?_⟩
  cases label with
  | undef => exact trivial
  | ref => exact XgError.noConfusion
  | dies => exact XgError.noConfusion
  | str s =>
    cases s with
    | nil => exact trivial
    | cons c s =>
      rw [wp_normalizeLabel_str]
      simp only [wp_bind, wp_get]
      cases g.labelIdsByName (c :: s) with
      | some id => exact trivial
      | none =>
        simp only [wp_ite, wp_bind, wp_throwIf, wp_modify, wp_pure]
        exact ⟨fun _ => trivial, fun _ => ⟨fun _ => XgError.noConfusion,
          fun _ => ⟨fun _ => XgError.noConfusion, fun _ => trivial⟩⟩⟩

theorem updateList_rejects (read : Graph → AdjList) (write : Graph → AdjList → Graph)
    (f : AdjList → Option AdjList) :
    wp (updateList read write f) g (fun _ _ => True) (fun e _ => e ≠ .cycleRejected) := by
  cases hf : f (read g) with
  | none =>
    rw [wp_updateList_none hf]
    exact XgError.noConfusion
  | some list =>
    rw [wp_updateList_some hf]
    trivial

theorem installEdge_rejects (source target lid : Nat) :
    wp (installEdge source target lid) g (fun _ _ => True) (fun e _ => e ≠ .cycleRejected) := by
  simp only [installEdge, wp_bind, wp_modify, wp_get, wp_throwIf]
  refine ⟨fun _ => XgError.noConfusion, fun _ => ?_⟩
  apply wp_mono (updateList_rejects _ _ _) ?_ (fun _ _ he => he)
  intro _ g₁ _
  apply wp_mono (updateList_rejects _ _ _) ?_ (fun _ _ he => he)
  intro _ g₂ _
  apply wp_mono (updateList_rejects _ _ _) ?_ (fun _ _ he => he)
  intro _ g₃ _
  exact updateList_rejects _ _ _

theorem ClosesCycle.of_thinned (hthin : Thinned g g')
    (h : ClosesCycle g' source target) : ClosesCycle g source target := by
  obtain ⟨x, hcycle⟩ := h
  refine ⟨x, TransGen.mono ?_ x x hcycle⟩
  intro u v hedge
  rcases hedge with ⟨l, e, he, hends⟩ | hnew
  · exact Or.inl ⟨l, e, hthin.outs u he, hends⟩
  · exact Or.inr hnew

theorem Interned.ready {label : Value} {lid : Nat} (h : Interned g label 0 lid g') :
    lid < g'.labelsById.length ∧ ∀ id, g'.hasVertex id = g.hasVertex id := by
  cases h with
  | unknown hneg => exact absurd hneg (by decide)
  | known _ hlt _ => exact ⟨hlt, fun _ => rfl⟩
  | fresh => exact ⟨by simp [Graph.touchNames, Graph.internLabel], fun _ => rfl⟩

theorem insertion_spec (h : WF g) (hno : NoCycle g) (label : Value)
    (hu : g.hasVertex source = true) (hv : g.hasVertex target = true)
    (hopen : ¬ ClosesCycle g source target) :
    wp (xgLabelId label 0 >>= installEdge source target) g (fun _ g' => NoCycle g')
      (fun e g' => NoCycle g' ∧ e ≠ .cycleRejected) := by
  rw [wp_bind]
  have hlabel := wp_and (xgLabelId_spec h label 0)
    (wp_and (thins_labelId label 0) (xgLabelId_rejects label 0))
  apply wp_mono hlabel
  · intro lid g₁ hfound
    obtain ⟨hinterned, hthin, -⟩ := hfound
    obtain ⟨hlid, hlive⟩ := hinterned.ready
    have h₁ := hinterned.wf h
    have hno₁ := hno.thinned hthin
    have hu₁ : g₁.hasVertex source = true := by rw [hlive, hu]
    have hv₁ : g₁.hasVertex target = true := by rw [hlive, hv]
    have hfits : Fits target lid := by
      apply h₁.table.fits hv₁
      have hlimit := h₁.labels.limit
      omega
    have hinstall := wp_and (installEdge_spec h₁ hu₁ hv₁ hlid)
      (installEdge_rejects source target lid)
    apply wp_mono hinstall
    · intro _ g' hadded
      obtain ⟨⟨hadded, -⟩, -⟩ := hadded
      exact hno₁.edgeAdded hadded hfits (fun hclose => hopen (hclose.of_thinned hthin))
    · intro e g' hrefused
      obtain ⟨⟨hresized, -⟩, he⟩ := hrefused
      have hsame : Thinned g₁ g' := by
        refine ⟨hresized.frame.flags.1, sameLabels hresized.frame.labelsById, fun u e he => ?_⟩
        rw [hresized.outs] at he
        exact he
      exact ⟨hno₁.thinned hsame, he⟩
  · intro e g₁ hfailed
    obtain ⟨-, hthin, he⟩ := hfailed
    exact ⟨hno.thinned hthin, he⟩

theorem xgAddEdge_acyclic (h : WF g) (hno : NoCycle g) (source target : Nat) (label : Value) :
    wp (xgAddEdge source target label) g
      (fun _ g' => NoCycle g' ∧ ¬ (Addable g source target label ∧ ClosesCycle g source target))
      (fun e g' => NoCycle g' ∧ (e = .cycleRejected → g' = g) ∧
        (e = .cycleRejected ↔ Addable g source target label ∧ ClosesCycle g source target)) := by
  have hthrown {e : XgError} (he : e ≠ .cycleRejected) (hbad : ¬ Addable g source target label) :
      NoCycle g ∧ (e = .cycleRejected → g = g) ∧
        (e = .cycleRejected ↔ Addable g source target label ∧ ClosesCycle g source target) :=
    ⟨hno, fun _ => rfl, fun hcycle => absurd hcycle he, fun hboth => absurd hboth.1 hbad⟩
  have hchecked (normalized : Option Str) (hlabel : Value.ofNormalized normalized = label) :
      wp (do
        xgRequireVertex source
        xgRequireVertex target
        let graph ← get
        throwIf (graph.acyclic = true ∧ (source = target ∨ xgReaches graph target source = true))
          .cycleRejected
        let lid ← xgLabelId (Value.ofNormalized normalized) 0
        installEdge source target lid) g
      (fun _ g' => NoCycle g' ∧ ¬ (Addable g source target label ∧ ClosesCycle g source target))
      (fun e g' => NoCycle g' ∧ (e = .cycleRejected → g' = g) ∧
        (e = .cycleRejected ↔ Addable g source target label ∧ ClosesCycle g source target)) := by
    rw [hlabel, wp_bind, wp_requireVertex]
    refine ⟨fun hu => hthrown XgError.noConfusion (fun hadd => ?_), fun hu => ?_⟩
    · rw [hadd.source] at hu
      cases hu
    rw [wp_bind, wp_requireVertex]
    refine ⟨fun hv => hthrown XgError.noConfusion (fun hadd => ?_), fun hv => ?_⟩
    · rw [hadd.target] at hv
      cases hv
    have hu' : g.hasVertex source = true := by simpa using hu
    have hv' : g.hasVertex target = true := by simpa using hv
    have hadd : Addable g source target label := by
      refine ⟨?_, hu', hv'⟩
      rw [← hlabel]
      cases normalized with
      | none => exact ⟨Value.noConfusion, Value.noConfusion⟩
      | some s => exact ⟨Value.noConfusion, Value.noConfusion⟩
    have hcode : (source = target ∨ xgReaches g target source = true) ↔
        ClosesCycle g source target := closesCycle_iff h hno.acyclic hv'
    rw [wp_bind, wp_get, wp_bind, wp_throwIf]
    refine ⟨fun hcycle => ?_, fun hfree => ?_⟩
    · exact ⟨hno, fun _ => rfl, fun _ => ⟨hadd, hcode.1 hcycle.2⟩, fun _ => rfl⟩
    have hopen : ¬ ClosesCycle g source target := fun hclose =>
      hfree ⟨hno.mode, hcode.2 hclose⟩
    apply wp_mono (insertion_spec h hno label hu' hv' hopen)
    · intro _ g' hg'
      exact ⟨hg', fun hboth => hopen hboth.2⟩
    · intro e g' hg'
      obtain ⟨hg', he⟩ := hg'
      exact ⟨hg', fun hcycle => absurd hcycle he, fun hcycle => absurd hcycle he,
        fun hboth => absurd hboth.2 hopen⟩
  rw [xgAddEdge, wp_bind, wp_requireMutable h, wp_bind]
  cases label with
  | undef => exact hchecked none rfl
  | ref => exact hthrown XgError.noConfusion (fun hadd => hadd.label.1 rfl)
  | dies => exact hthrown XgError.noConfusion (fun hadd => hadd.label.2 rfl)
  | str s => exact hchecked (some s) rfl

theorem call_noCycle (h : WF g) (hno : NoCycle g) (op : Op) : NoCycle (stateAfter op.call g) := by
  by_cases hop : ∃ source target label, op = .addEdge source target label
  · obtain ⟨source, target, label, rfl⟩ := hop
    have hspec := xgAddEdge_acyclic h hno source target label
    have hcall : wp (Op.addEdge source target label).call g (fun _ g' => NoCycle g')
        (fun _ g' => NoCycle g') := by
      rw [Op.call, wp_map]
      exact wp_mono hspec (fun _ _ hg' => hg'.1) (fun _ _ hg' => hg'.1)
    exact wp_stateAfter hcall
  · have hthins : Drifts Thinned op.call g :=
      call_thins fun source target label heq => hop ⟨source, target, label, heq⟩
    exact hno.thinned (wp_stateAfter hthins)

theorem run_noCycle (h : WF g) (hno : NoCycle g) (ops : List Op) :
    NoCycle (run Op.call g ops) := by
  induction ops generalizing g with
  | nil => exact hno
  | cons op ops ih => exact ih (call_kept h op).1 (call_noCycle h hno op)

theorem xgNew_noCycle (strictLabels : Bool) : NoCycle (xgNew true strictLabels) := by
  refine ⟨rfl, fun x hcycle => ?_⟩
  have hnone (u v : Nat) : ¬ (xgNew true strictLabels).Adjacent u v := by
    intro hedge
    obtain ⟨l, e, he, -⟩ := hedge
    exact absurd he List.not_mem_nil
  cases hcycle with
  | single hedge => exact hnone _ _ hedge
  | tail _ hedge => exact hnone _ _ hedge

/-- In every state of a run in acyclic mode no way leads back to its start, and an insertion is
rejected exactly where its edge would close a cycle; what is rejected changes nothing. -/
theorem acyclic_along_run (strictLabels : Bool) (ops : List Op) :
    let g := run Op.call (xgNew true strictLabels) ops
    Acyclic g.Adjacent ∧ ∀ source target label,
      (outcome (Op.addEdge source target label).call g = .error .cycleRejected ↔
        Addable g source target label ∧ ClosesCycle g source target) ∧
      (outcome (Op.addEdge source target label).call g = .error .cycleRejected →
        stateAfter (Op.addEdge source target label).call g = g) := by
  intro g
  have h : WF g := (run_kept (xgNew_wf true strictLabels) ops).1
  have hno : NoCycle g := run_noCycle (xgNew_wf true strictLabels) (xgNew_noCycle strictLabels) ops
  refine ⟨hno.acyclic, fun source target label => ?_⟩
  have hcall : wp (Op.addEdge source target label).call g
      (fun _ _ => ¬ (Addable g source target label ∧ ClosesCycle g source target))
      (fun e g' => (e = .cycleRejected → g' = g) ∧
        (e = .cycleRejected ↔ Addable g source target label ∧ ClosesCycle g source target)) := by
    rw [Op.call, wp_map]
    exact wp_mono (xgAddEdge_acyclic h hno source target label) (fun _ _ hg' => hg'.2)
      (fun _ _ hg' => hg'.2)
  obtain ⟨hreturn, hthrow⟩ := wp_iff.1 hcall
  cases hout : outcome (Op.addEdge source target label).call g with
  | ok answer =>
    refine ⟨⟨?_, fun hboth => absurd hboth (hreturn answer hout)⟩, ?_⟩
    · intro hfalse
      cases hfalse
    · intro hfalse
      cases hfalse
  | error e =>
    obtain ⟨hsame, hiff⟩ := hthrow e hout
    rw [Except.error.injEq]
    exact ⟨hiff, hsame⟩

end XPerl.XGraph
